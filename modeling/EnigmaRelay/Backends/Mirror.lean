import EnigmaRelay.Memory.Acknowledged
import EnigmaRelay.Memory.Traversal
import EnigmaRelay.Sled.Plain

open Std Machine

namespace EnigmaRelay

open RecipientState (ackItem)

section Trees

variable [UuidText]

/-- The trees say of one recipient what its entry in memory says. -/
structure Mirrors (entry : RecipientState) (recipient : String) (store : SledStore) : Prop where
  messages : stored store.messages recipient = entry.messages
  quota : SledStore.readQuota store.quota recipient = { bytes := entry.quotaBytes, count := entry.quotaCount }
  seq : SledStore.currentSeq store.seq recipient = .ok entry.seq

section Push

variable {entry : RecipientState} {recipient : String} {store : SledStore}

theorem Mirrors.absent_iff (mirrors : Mirrors entry recipient store) (coherent : entry.Coherent recipient)
    (consistent : store.Consistent) (item : AckItem) :
    entry.idx[item]? = none ↔ store.index[itemKey recipient item]? = none := by
  rw [coherent.absent_iff, consistent.indexed.absent_iff consistent.keyed, mirrors.messages]

theorem Mirrors.accept {msg : InboundMessage} (mirrors : Mirrors entry msg.recipient store)
    (coherent : entry.Coherent msg.recipient) (consistent : store.Consistent) :
    Mirrors (entry.accept msg) msg.recipient (SledStore.accept msg entry.seq store) := by
  have bound : entry.seq < 2 ^ 64 := SledStore.currentSeq_bound mirrors.seq
  have fits : saturatingAdd entry.seq 1 < 2 ^ 64 := Nat.lt_of_le_of_lt (saturatingAdd_le _ _) (by decide)
  refine ⟨?_, ?_, ?_⟩
  · rw [coherent.accept_messages, ← mirrors.messages]
    apply consistent.keyed.stored_insert_last bound
    intro found member
    rw [queued_recipient, mirrors.messages] at member
    exact coherent.below _ _ (coherent.filed.mem.mp member)
  · rw [SledStore.accept, SledStore.readQuota_insert, if_pos rfl, mirrors.quota]
    rfl
  · rw [SledStore.accept, SledStore.currentSeq_insert _ _ _ fits, if_pos rfl]
    rfl

theorem Mirrors.accept_other {msg : InboundMessage} {arrivalSeq : Nat} (mirrors : Mirrors entry recipient store)
    (consistent : store.Consistent) (read : SledStore.currentSeq store.seq msg.recipient = .ok arrivalSeq)
    (absent : store.index[itemKey msg.recipient msg.ackItem]? = none) (other : msg.recipient ≠ recipient) :
    Mirrors entry recipient (SledStore.accept msg arrivalSeq store) := by
  have bound : arrivalSeq < 2 ^ 64 := SledStore.currentSeq_bound read
  have fits : saturatingAdd arrivalSeq 1 < 2 ^ 64 := Nat.lt_of_le_of_lt (saturatingAdd_le _ _) (by decide)
  have fresh : store.messages[(msg.queued arrivalSeq).key]? = none :=
    consistent.indexed.fresh consistent.keyed bound absent
  refine ⟨?_, ?_, ?_⟩
  · rw [← mirrors.messages]
    exact consistent.keyed.stored_insert_other bound fresh other
  · rw [SledStore.accept, SledStore.readQuota_insert, if_neg other, mirrors.quota]
  · rw [SledStore.accept, SledStore.currentSeq_insert _ _ _ fits, if_neg other, mirrors.seq]

end Push

section Ack

/-- The two acknowledgements of one recipient after the same pairs. -/
structure MirrorsTx (recipient : String) (current : RecipientState × AckOutcome) (tx : SledStore.AckTx) : Prop where
  coherent : current.1.Coherent recipient
  keyed : Keyed tx.messages
  indexed : Indexed tx.messages tx.index
  messages : stored tx.messages recipient = current.1.messages
  quota : tx.quotaValue = { bytes := current.1.quotaBytes, count := current.1.quotaCount }
  outcome : tx.outcome = current.2

variable {recipient : String} {current : RecipientState × AckOutcome} {tx : SledStore.AckTx}

theorem MirrorsTx.delete (mirrors : MirrorsTx recipient current tx) {msg : QueueMessage}
    (found : current.1.queue[msg.arrivalSeq]? = some msg) (present : tx.messages[msg.key]? = some msg) :
    MirrorsTx recipient (current.1.drop msg.arrivalSeq,
      { current.2 with deleted := saturatingAdd current.2.deleted 1 }) (tx.delete msg) := by
  have coherent := mirrors.coherent
  have keyed := mirrors.keyed
  refine ⟨coherent.drop _, keyed.erase msg.key, mirrors.indexed.erase keyed present, ?_, ?_, ?_⟩
  · have left := coherent.filed.dropAll_messages [msg.arrivalSeq]
    rw [RecipientState.dropAll, List.foldl_cons, List.foldl_nil] at left
    rw [SledStore.AckTx.delete, keyed.stored_erase, left, ← mirrors.messages]
    apply List.filter_congr
    intro other member
    have pending : other ∈ current.1.messages := mirrors.messages ▸ member
    have number : other.arrivalSeq = msg.arrivalSeq ↔ other = msg := by
      constructor
      · intro same
        have bound := coherent.filed.mem.mp pending
        rw [same, found] at bound
        exact (Option.some.inj bound).symm
      · exact congrArg QueueMessage.arrivalSeq
    have key : other.key = msg.key ↔ other = msg := by
      constructor
      · intro same
        have bound := (keyed.mem_stored.mp member).1
        rw [same, present] at bound
        exact (Option.some.inj bound).symm
      · exact congrArg QueueMessage.key
    simp [number, key]
  · rw [SledStore.AckTx.delete, mirrors.quota, RecipientState.drop_of_some _ _ found]
    rfl
  · rw [SledStore.AckTx.delete, mirrors.outcome]

theorem MirrorsTx.item (mirrors : MirrorsTx recipient current tx) (item : AckItem) :
    ∃ after, SledStore.ackItem recipient tx item = .ok after ∧ MirrorsTx recipient (ackItem current item) after ∧
      (ackItem current item).1.seq = current.1.seq ∧
      ∀ other, other ≠ recipient → stored after.messages other = stored tx.messages other := by
  have coherent := mirrors.coherent
  have split : ackItem current item = ackItem (current.1, current.2) item := rfl
  rcases SledStore.Consistent.ackItem mirrors.keyed mirrors.indexed recipient item with
    ⟨absent, missed⟩ | ⟨msg, present, owner, pair, deleted⟩
  · refine ⟨tx.miss, missed, ?_, ?_, fun _ _ => rfl⟩
    all_goals
      have nowhere : current.1.idx[item]? = none := by
        rw [coherent.absent_iff, ← mirrors.messages, ← mirrors.indexed.absent_iff mirrors.keyed, absent]
      rcases coherent.ackItem current.2 item with ⟨_, same⟩ | ⟨seq, msg, found, pair, _⟩
    · rw [split, same]
      refine ⟨coherent, mirrors.keyed, mirrors.indexed, mirrors.messages, mirrors.quota, ?_⟩
      rw [SledStore.AckTx.miss, mirrors.outcome]
    · rw [(coherent.indexed item seq).mpr ⟨msg, found, pair⟩] at nowhere
      cases nowhere
    · rw [split, same]
    · rw [(coherent.indexed item seq).mpr ⟨msg, found, pair⟩] at nowhere
      cases nowhere
  · have pending : msg ∈ current.1.messages := mirrors.messages ▸ mirrors.keyed.mem_stored.mpr ⟨present, owner⟩
    have found := coherent.filed.mem.mp pending
    have same : ackItem current item =
        (current.1.drop msg.arrivalSeq, { current.2 with deleted := saturatingAdd current.2.deleted 1 }) := by
      rcases coherent.ackItem current.2 item with ⟨nowhere, _⟩ | ⟨seq, other, bound, match_, same⟩
      · exact absurd pair ((coherent.absent_iff item).mp nowhere msg pending)
      · have equal : other = msg :=
          coherent.distinct (RecipientState.mem_messages.mpr ⟨seq, bound⟩) pending (match_.trans pair.symm)
        rw [split, same, ← coherent.arrival seq other bound, equal]
    refine ⟨tx.delete msg, deleted, ?_, ?_, ?_⟩
    · rw [same]
      exact mirrors.delete found present
    · rw [same, RecipientState.drop_seq]
    · intro other elsewhere
      exact mirrors.keyed.stored_erase_other present (by rw [owner]; exact Ne.symm elsewhere)

theorem MirrorsTx.items (mirrors : MirrorsTx recipient current tx) (items : List AckItem) :
    ∃ last, items.foldlM (SledStore.ackItem recipient) tx = .ok last ∧
      MirrorsTx recipient (items.foldl ackItem current) last ∧ (items.foldl ackItem current).1.seq = current.1.seq ∧
      ∀ other, other ≠ recipient → stored last.messages other = stored tx.messages other := by
  induction items generalizing current tx with
  | nil => exact ⟨tx, rfl, mirrors, rfl, fun _ _ => rfl⟩
  | cons item rest ih =>
    obtain ⟨after, once, next, seq, elsewhere⟩ := mirrors.item item
    obtain ⟨last, folded, final, lastSeq, lastElsewhere⟩ := ih next
    refine ⟨last, ?_, final, lastSeq.trans seq, ?_⟩
    · rw [List.foldlM_cons, once]
      exact folded
    · exact fun other different => (lastElsewhere other different).trans (elsewhere other different)

variable {entry : RecipientState} {store : SledStore}

theorem Mirrors.ack (mirrors : Mirrors entry recipient store) (coherent : entry.Coherent recipient)
    (consistent : store.Consistent) (order : HashOrder) (items : Vec AckItem) :
    (SledStore.ack order recipient items store).1 = (entry.ack order items).1 ∧
      Mirrors (entry.ack order items).2 recipient (SledStore.ack order recipient items store).2 ∧
      ∀ other untouched, recipient ≠ other → Mirrors untouched other store →
        Mirrors untouched other (SledStore.ack order recipient items store).2 := by
  have start : MirrorsTx recipient (entry, {}) (SledStore.AckTx.start store recipient) :=
    ⟨coherent, consistent.keyed, consistent.indexed, mirrors.messages, mirrors.quota, rfl⟩
  obtain ⟨last, folded, final, seq, elsewhere⟩ := start.items (order.items.arrange items.toList.dedup)
  rcases SledStore.ack_cases order recipient items store with ⟨err, acked⟩ | ⟨tx, whole, acked⟩
  · exfalso
    unfold SledStore.ack at acked
    simp only [show SledStore.AckTx.mk store.messages store.index (SledStore.readQuota store.quota recipient) {} =
      SledStore.AckTx.start store recipient from rfl, folded] at acked
    cases acked
  · rw [folded] at whole
    cases whole
    rw [acked]
    refine ⟨?_, ⟨final.messages, ?_, ?_⟩, ?_⟩
    · rw [RecipientState.ack]
      simp only [final.outcome, final.quota]
    · rw [SledStore.readQuota_insert, if_pos rfl, final.quota]
      rfl
    · exact mirrors.seq.trans (congrArg Except.ok seq.symm)
    · intro other untouched different same
      refine ⟨(elsewhere other (Ne.symm different)).trans same.messages, ?_, same.seq⟩
      rw [SledStore.readQuota_insert, if_neg different, same.quota]

end Ack

section Pull

variable [Base64] {entry : RecipientState} {recipient : String} {store : SledStore}

theorem Mirrors.pull (mirrors : Mirrors entry recipient store) (coherent : entry.Coherent recipient)
    (consistent : store.Consistent) (plain : SledStore.Plain store.messages) (own : ':' ∉ recipient.toList)
    {cursor : Option String} {start : Option Nat} (started : startSeq recipient cursor = .ok start) (limit : Nat)
    {nowMs : Nat} (early : ∀ msg ∈ entry.messages, nowMs < msg.deadlineMs) :
    SledStore.pull recipient cursor limit nowMs store =
        ((entry.pull recipient cursor limit nowMs).1, store) ∧
      (entry.pull recipient cursor limit nowMs).2 = entry := by
  rcases coherent.filed.pull cursor limit nowMs with ⟨err, refused, _⟩ | ⟨first, batch, dropped, same, pulled, spec⟩
  · rw [started] at refused
    cases refused
  · rw [started] at same
    cases same
    have kept : entry.dropAll dropped = entry := by
      apply RecipientState.dropAll_absent
      intro seq member
      cases found : entry.queue[seq]? with
      | none => rfl
      | some msg =>
        have alive := early msg (RecipientState.mem_messages.mpr ⟨seq, found⟩)
        exact absurd (spec.expired seq member msg found) (Nat.not_le.mpr alive)
    have items : SledStore.waiting recipient start nowMs store = entry.pending start nowMs := by
      rw [SledStore.waiting, mirrors.messages]
      rfl
    have cursors : ((entry.pending start nowMs).take (min limit u32Max)).getLast?.map
        (fun item => encodeCursor recipient item.arrivalSeq) =
        ((entry.pending start nowMs).take (min limit u32Max)).getLast?.map
          (fun item => encodeCursor item.recipient item.arrivalSeq) := by
      apply Option.map_congr
      intro last ends
      have pending := (MemStore.mem_pending.mp (List.mem_of_mem_take (List.mem_of_getLast? ends))).1
      rw [coherent.owner _ _ (coherent.filed.mem.mp pending)]
    rw [pulled, kept, SledStore.pull_plain consistent.keyed plain own started, items, mirrors.quota, cursors]
    refine ⟨congrArg (fun batch => (Except.ok batch, store)) ?_, rfl⟩
    have estimate := spec.estimate
    have next := spec.cursor
    rw [spec.items] at estimate next
    rw [kept] at estimate
    cases batch
    simp only [PullBatch.mk.injEq]
    exact ⟨spec.items.symm, next.symm, estimate.symm⟩

end Pull

end Trees

end EnigmaRelay
