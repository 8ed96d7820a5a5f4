import EnigmaRelay.Foundation.Removal
import EnigmaRelay.Model.Standard
import EnigmaRelay.Sled.Run

open Std Machine Removal

namespace EnigmaRelay.SledStore

def pairs (messages : Tree QueueMessage) (recipient : String) : Finset AckItem :=
  ((stored messages recipient).map QueueMessage.ackItem).toFinset

/-- A transaction under way, seen as the removal of pairs. -/
def AckTx.tally (tx : AckTx) (recipient : String) : Tally AckItem where
  present := pairs tx.messages recipient
  hits := tx.outcome.deleted
  misses := tx.outcome.missing

theorem mem_pairs {messages : Tree QueueMessage} {recipient : String} {item : AckItem} :
    item ∈ pairs messages recipient ↔ ∃ msg ∈ stored messages recipient, msg.ackItem = item := by
  rw [pairs, List.mem_toFinset, List.mem_map]

section Trees

variable [UuidText]

/-- Index and quota agree with the stored messages, for every recipient. -/
structure Agreed (store : SledStore) : Prop where
  keyed : Keyed store.messages
  indexed : Indexed store.messages store.index
  quota : ∀ recipient, readQuota store.quota recipient = total (stored store.messages recipient)

theorem new_agreed : Agreed new := by
  refine ⟨new_consistent.keyed, new_consistent.indexed, ?_⟩
  intro recipient
  simp [readQuota, new, stored, total]

theorem Agreed.push {store : SledStore} (agreed : store.Agreed) {limits : RelayLimits} {msg : InboundMessage}
    (fits : HasRoom limits msg (readQuota store.quota msg.recipient) →
      (readQuota store.quota msg.recipient).bytes + msg.payloadBytes ≤ u64Max ∧
        (readQuota store.quota msg.recipient).count + 1 ≤ u64Max) : (SledStore.push limits msg store).2.Agreed := by
  rcases push_after limits msg store with unchanged | ⟨absent, room, arrivalSeq, _, number, _, pushed⟩
  · rw [unchanged]
    exact agreed
  · obtain ⟨bytes, count⟩ := fits room
    have bound : (msg.queued arrivalSeq).arrivalSeq < 2 ^ 64 := currentSeq_bound number
    have fresh : store.messages[(msg.queued arrivalSeq).key]? = none := agreed.indexed.fresh agreed.keyed bound absent
    rw [pushed]
    refine ⟨agreed.keyed.insert bound, agreed.indexed.insert agreed.keyed bound absent, ?_⟩
    intro recipient
    rw [accept, readQuota_insert, saturatingAdd_of_le bytes, saturatingAdd_of_le count]
    split
    · rename_i same
      subst same
      have joined := stored_insert_perm fresh
      rw [queued_recipient] at joined
      rw [total_perm joined, total_cons, ← agreed.quota]
      rfl
    · rename_i different
      rw [agreed.quota, agreed.keyed.stored_insert_other bound fresh different]

theorem card_pairs {messages : Tree QueueMessage} {index : Tree Bytes} (keyed : Keyed messages)
    (indexed : Indexed messages index) (recipient : String) :
    (pairs messages recipient).card = (stored messages recipient).length := by
  have distinct : ((stored messages recipient).map QueueMessage.ackItem).Nodup := by
    apply List.Nodup.map_on
    · intro a first b second same
      obtain ⟨aStored, aOwner⟩ := keyed.mem_stored.mp first
      obtain ⟨bStored, bOwner⟩ := keyed.mem_stored.mp second
      exact indexed.distinct keyed aStored bStored (aOwner.trans bOwner.symm) same
    · apply (keyed.sorted recipient).imp
      rintro a b below rfl
      exact OrderedMap.not_lt_both below below
  rw [pairs, List.toFinset_card_of_nodup distinct, List.length_map]

def Acked (recipient : String) (items : List AckItem) (entry : Bytes × QueueMessage) : Prop :=
  entry.2.recipient = recipient ∧ entry.2.ackItem ∈ items

instance (recipient : String) (items : List AckItem) (entry : Bytes × QueueMessage) :
    Decidable (Acked recipient items entry) := inferInstanceAs (Decidable (_ ∧ _))

/-- A transaction whose trees agree. -/
structure AlignedTx (tx : AckTx) : Prop where
  keyed : Keyed tx.messages
  indexed : Indexed tx.messages tx.index

/-- What the items make of a transaction: their messages are gone with their entries, each refunded once. -/
structure Cleared (recipient : String) (items : List AckItem) (before after : AckTx) : Prop where
  messages : after.messages.toList = before.messages.toList.filter (fun entry => ¬ Acked recipient items entry)
  index : ∀ key : Bytes, after.index[key]? =
    if key ∈ items.map (itemKey recipient) then none else before.index[key]?
  refunds : ∃ gone, (stored before.messages recipient).Perm (gone ++ stored after.messages recipient) ∧
    after.quotaValue = gone.foldl QuotaValue.refund before.quotaValue

section Item

variable {recipient : String} {tx : AckTx}

theorem AlignedTx.item (agreed : AlignedTx tx) (room : tx.outcome.deleted + tx.outcome.missing < u64Max)
    (item : AckItem) : ∃ next, ackItem recipient tx item = .ok next ∧ AlignedTx next ∧
      next.tally recipient = remove (tx.tally recipient) item ∧ Cleared recipient [item] tx next := by
  have hits : saturatingAdd tx.outcome.deleted 1 = tx.outcome.deleted + 1 := saturatingAdd_of_le (by omega)
  have misses : saturatingAdd tx.outcome.missing 1 = tx.outcome.missing + 1 := saturatingAdd_of_le (by omega)
  have keyed := agreed.keyed
  rcases Consistent.ackItem keyed agreed.indexed recipient item with ⟨absent, missed⟩ | ⟨msg, present, rfl, rfl, deleted⟩
  · have nowhere := (agreed.indexed.absent_iff keyed recipient item).mp absent
    have unlisted : item ∉ (tx.tally recipient).present := by
      rw [AckTx.tally, mem_pairs]
      rintro ⟨msg, member, pair⟩
      exact nowhere msg member pair
    refine ⟨tx.miss, missed, ⟨keyed, agreed.indexed⟩, ?_, ⟨?_, ?_, [], .refl _, rfl⟩⟩
    · rw [remove_of_notMem unlisted, AckTx.tally, AckTx.miss, misses]
      rfl
    · symm
      rw [AckTx.miss, List.filter_eq_self]
      intro entry member
      have here : tx.messages[entry.1]? = some entry.2 := OrderedMap.mem_toList.mp member
      rw [decide_eq_true_eq]
      rintro ⟨owner, pair⟩
      rw [(keyed _ _ here).1] at here
      exact nowhere entry.2 (keyed.mem_stored.mpr ⟨here, owner⟩) (List.mem_singleton.mp pair)
    · intro key
      rw [AckTx.miss]
      split
      · rename_i same
        rw [List.map_singleton, List.mem_singleton] at same
        rw [same, absent]
      · rfl
  · have listed : msg.ackItem ∈ (tx.tally msg.recipient).present :=
      mem_pairs.mpr ⟨msg, keyed.mem_stored.mpr ⟨present, rfl⟩, rfl⟩
    have gone : ∀ entry ∈ tx.messages.toList, entry.1 = msg.key ↔ Acked msg.recipient [msg.ackItem] entry := by
      intro entry member
      have here : tx.messages[entry.1]? = some entry.2 := OrderedMap.mem_toList.mp member
      have own := (keyed _ _ here).1
      constructor
      · intro same
        rw [same, present] at here
        cases Option.some.inj here
        exact ⟨rfl, List.mem_singleton.mpr rfl⟩
      · rintro ⟨owner, pair⟩
        rw [own] at here ⊢
        rw [agreed.indexed.distinct keyed here present owner (List.mem_singleton.mp pair)]
    refine ⟨tx.delete msg, deleted, ⟨keyed.erase _, agreed.indexed.erase keyed present⟩, ?_,
      ⟨?_, ?_, [msg], stored_erase_perm present, rfl⟩⟩
    · have left : pairs (tx.messages.erase msg.key) msg.recipient =
          (pairs tx.messages msg.recipient).erase msg.ackItem := by
        ext other
        rw [mem_pairs, Finset.mem_erase, mem_pairs, keyed.stored_erase]
        have apart : ∀ found ∈ stored tx.messages msg.recipient, found.key ≠ msg.key ↔ found.ackItem ≠ msg.ackItem := by
          intro found member
          obtain ⟨here, owner⟩ := keyed.mem_stored.mp member
          apply not_congr
          constructor
          · intro same
            rw [same, present] at here
            cases Option.some.inj here
            rfl
          · exact fun same => congrArg QueueMessage.key (agreed.indexed.distinct keyed here present owner same)
        constructor
        · rintro ⟨found, member, rfl⟩
          obtain ⟨kept, different⟩ := List.mem_filter.mp member
          exact ⟨(apart found kept).mp (of_decide_eq_true different), found, kept, rfl⟩
        · rintro ⟨different, found, kept, rfl⟩
          exact ⟨found, List.mem_filter.mpr ⟨kept, decide_eq_true ((apart found kept).mpr different)⟩, rfl⟩
      rw [remove_of_mem listed, AckTx.tally, AckTx.delete, hits, left]
      rfl
    · rw [AckTx.delete, OrderedMap.toList_erase]
      apply List.filter_congr
      intro entry member
      exact decide_eq_decide.mpr (not_congr (gone entry member))
    · intro key
      simp [AckTx.delete, OrderedMap.getElem?_erase, eq_comm]

theorem Cleared.cons {first : AckItem} {rest : List AckItem} {next last : AckTx}
    (once : Cleared recipient [first] tx next) (later : Cleared recipient rest next last) :
    Cleared recipient (first :: rest) tx last := by
  refine ⟨?_, ?_, ?_⟩
  · rw [later.messages, once.messages, List.filter_filter]
    apply List.filter_congr
    intro entry _
    rw [← Bool.decide_and]
    apply decide_eq_decide.mpr
    simp only [Acked, List.mem_cons, List.not_mem_nil, or_false]
    tauto
  · intro key
    rw [later.index, once.index]
    by_cases listed : key ∈ rest.map (itemKey recipient)
    · simp [listed]
    · simp [listed]
  · obtain ⟨front, split, charged⟩ := once.refunds
    obtain ⟨back, splitLater, chargedLater⟩ := later.refunds
    refine ⟨front ++ back, ?_, ?_⟩
    · rw [List.append_assoc]
      exact split.trans (splitLater.append_left front)
    · rw [chargedLater, charged, List.foldl_append]

theorem Cleared.quota {items : List AckItem} {before after : AckTx} (cleared : Cleared recipient items before after)
    (exactly : before.quotaValue = total (stored before.messages recipient)) :
    after.quotaValue = total (stored after.messages recipient) := by
  obtain ⟨gone, split, charged⟩ := cleared.refunds
  rw [charged, exactly, total_perm split, foldl_refund]

theorem Cleared.stored_other {items : List AckItem} {before after : AckTx}
    (cleared : Cleared recipient items before after)
    {other : String} (different : recipient ≠ other) : stored after.messages other = stored before.messages other := by
  rw [stored, stored, cleared.messages, List.filter_map, List.filter_map, List.filter_filter]
  congr 1
  apply List.filter_congr
  intro entry _
  by_cases owner : entry.2.recipient = other
  · have free : ¬ Acked recipient items entry := fun acked => different (acked.1.symm.trans owner)
    simp [owner, free]
  · simp [owner]

theorem AlignedTx.items (agreed : AlignedTx tx) {items : List AckItem}
    (room : tx.outcome.deleted + tx.outcome.missing + items.length ≤ u64Max) :
    ∃ last, items.foldlM (ackItem recipient) tx = .ok last ∧ AlignedTx last ∧
      last.tally recipient = items.foldl remove (tx.tally recipient) ∧ Cleared recipient items tx last := by
  induction items generalizing tx with
  | nil =>
    refine ⟨tx, rfl, agreed, rfl, ?_, fun _ => rfl, [], .refl _, rfl⟩
    symm
    rw [List.filter_eq_self]
    intro entry _
    simp [Acked]
  | cons item rest ih =>
    rw [List.length_cons] at room
    obtain ⟨next, once, nextAgreed, counted, cleared⟩ := agreed.item (by omega) item
    have total := remove_counted (tx.tally recipient) item
    rw [← counted] at total
    have step : next.outcome.deleted + next.outcome.missing = tx.outcome.deleted + tx.outcome.missing + 1 := total
    obtain ⟨last, folded, lastAgreed, tallied, later⟩ := ih nextAgreed (by omega)
    refine ⟨last, ?_, lastAgreed, ?_, cleared.cons later⟩
    · rw [List.foldlM_cons, once]
      exact folded
    · rw [tallied, counted, List.foldl_cons]

end Item

/-- An acknowledgement removes the messages of the items it names and counts each item once. -/
structure Acknowledges (store : SledStore) (recipient : String) (items : Vec AckItem) (order : HashOrder) : Prop where
  answer : (ack order recipient items store).1 = .ok
    { deleted := (items.toList.toFinset ∩ pairs store.messages recipient).card
      missing := (items.toList.toFinset \ pairs store.messages recipient).card
      remaining := (pairs store.messages recipient \ items.toList.toFinset).card }
  messages : (ack order recipient items store).2.messages.toList =
    store.messages.toList.filter (fun entry => ¬ (entry.2.recipient = recipient ∧ entry.2.ackItem ∈ items.toList))
  index : ∀ key : Bytes, (ack order recipient items store).2.index[key]? =
    if key ∈ items.toList.map (itemKey recipient) then none else store.index[key]?
  quota : (ack order recipient items store).2.quota = store.quota.insert (quotaKey recipient)
    (total (stored (ack order recipient items store).2.messages recipient))
  seq : (ack order recipient items store).2.seq = store.seq
  agreed : (ack order recipient items store).2.Agreed
  found : ∀ past item later, order.items.arrange items.toList.dedup = past ++ item :: later →
    ∀ tx, past.foldlM (ackItem recipient) (AckTx.start store recipient) = .ok tx →
      ∀ bytes, tx.index[itemKey recipient item]? = some bytes → ∃ seq msg, decodeU64 bytes = .ok seq ∧
        tx.messages[messageKey recipient seq item.messageId item.chunkIndex]? = some msg
  reordered : ∀ order', ack order' recipient items store = ack order recipient items store

section Law

variable {store : SledStore}

/-- What an acknowledgement commits, on trees that agree. -/
theorem ack_cleared (keyed : Keyed store.messages) (indexed : Indexed store.messages store.index) (recipient : String)
    (items : Vec AckItem) (order : HashOrder) :
    ∃ last : AckTx, AlignedTx last ∧ Cleared recipient items.toList (AckTx.start store recipient) last ∧
      ack order recipient items store =
        (.ok { deleted := (items.toList.toFinset ∩ pairs store.messages recipient).card
               missing := (items.toList.toFinset \ pairs store.messages recipient).card
               remaining := last.quotaValue.count },
          { store with
            messages := last.messages
            index := last.index
            quota := store.quota.insert (quotaKey recipient) last.quotaValue }) ∧
      pairs last.messages recipient = pairs store.messages recipient \ items.toList.toFinset := by
  have arranged := order.items.arranged items.toList.dedup
  have distinct := order.items.nodup_arrange (List.nodup_dedup items.toList)
  have listed : ∀ item, item ∈ order.items.arrange items.toList.dedup ↔ item ∈ items.toList := by
    intro item
    rw [order.items.mem_arrange, List.mem_dedup]
  have named : (order.items.arrange items.toList.dedup).toFinset = items.toList.toFinset := by
    ext item
    rw [List.mem_toFinset, listed, List.mem_toFinset]
  have size : (order.items.arrange items.toList.dedup).length ≤ u64Max := by
    rw [arranged.length_eq]
    exact Nat.le_trans (List.dedup_sublist _).length_le items.bounded
  have room : (AckTx.start store recipient).outcome.deleted + (AckTx.start store recipient).outcome.missing +
      (order.items.arrange items.toList.dedup).length ≤ u64Max := by simpa [AckTx.start] using size
  have aligned : AlignedTx (AckTx.start store recipient) := ⟨keyed, indexed⟩
  obtain ⟨last, folded, lastAligned, tallied, cleared⟩ := @AlignedTx.items _ recipient _ aligned _ room
  rw [foldl_remove distinct, named] at tallied
  have hits : last.outcome.deleted = _ := congrArg Tally.hits tallied
  have misses : last.outcome.missing = _ := congrArg Tally.misses tallied
  refine ⟨last, lastAligned, ⟨?_, ?_, cleared.refunds⟩, ?_, congrArg Tally.present tallied⟩
  · rw [cleared.messages]
    apply List.filter_congr
    intro entry _
    simp [Acked, listed]
  · intro key
    rw [cleared.index]
    simp [listed]
  · unfold ack
    dsimp only
    rw [show AckTx.mk store.messages store.index (readQuota store.quota recipient) {} =
        AckTx.start store recipient from rfl,
      folded]
    simp only [hits, misses, AckTx.tally, AckTx.start, Nat.zero_add]

theorem AlignedTx.found {recipient : String} {tx : AckTx} (aligned : AlignedTx tx) {item : AckItem} {bytes : Bytes}
    (entry : tx.index[itemKey recipient item]? = some bytes) :
    ∃ seq msg, decodeU64 bytes = .ok seq ∧
      tx.messages[messageKey recipient seq item.messageId item.chunkIndex]? = some msg := by
  obtain ⟨msg, present, rfl, rfl, rfl⟩ := aligned.indexed.sound recipient item bytes entry
  exact ⟨msg.arrivalSeq, msg, decodeU64_encodeU64 (aligned.keyed _ _ present).2, present⟩

theorem ack_reordered (agreed : store.Agreed) (recipient : String) (items : Vec AckItem) (order order' : HashOrder) :
    ack order' recipient items store = ack order recipient items store := by
  obtain ⟨last, _, cleared, acked, _⟩ := ack_cleared agreed.keyed agreed.indexed recipient items order
  obtain ⟨last', _, cleared', acked', _⟩ := ack_cleared agreed.keyed agreed.indexed recipient items order'
  have messages : last'.messages = last.messages :=
    OrderedMap.eq_of_toList (cleared'.messages.trans cleared.messages.symm)
  have index : last'.index = last.index := by
    apply ExtTreeMap.ext_getElem?
    intro key
    rw [cleared'.index, cleared.index]
  have quota : last'.quotaValue = last.quotaValue := by
    rw [cleared.quota (agreed.quota recipient), cleared'.quota (agreed.quota recipient), messages]
  rw [acked, acked', messages, index, quota]

theorem Agreed.acknowledges (agreed : store.Agreed) (recipient : String) (items : Vec AckItem) (order : HashOrder) :
    Acknowledges store recipient items order := by
  obtain ⟨last, aligned, cleared, acked, left⟩ := ack_cleared agreed.keyed agreed.indexed recipient items order
  have quota := cleared.quota (agreed.quota recipient)
  have remaining : last.quotaValue.count = (pairs store.messages recipient \ items.toList.toFinset).card := by
    rw [quota, total, ← left, card_pairs aligned.keyed aligned.indexed]
  constructor
  · rw [acked, remaining]
  · rw [acked]
    exact cleared.messages
  · rw [acked]
    exact cleared.index
  · rw [acked, quota]
  · rw [acked]
  · rw [acked]
    refine ⟨aligned.keyed, aligned.indexed, ?_⟩
    intro other
    rw [readQuota_insert]
    split
    · rename_i same
      rw [← same, quota]
    · rename_i different
      rw [agreed.quota, cleared.stored_other different]
      rfl
  · intro past item later split tx folded bytes entry
    have size : past.length ≤ u64Max := by
      have whole := congrArg List.length split
      rw [(order.items.arranged _).length_eq, List.length_append] at whole
      have short := (List.dedup_sublist items.toList).length_le
      have bounded := items.bounded
      omega
    have room : (AckTx.start store recipient).outcome.deleted + (AckTx.start store recipient).outcome.missing +
        past.length ≤ u64Max := by simpa [AckTx.start] using size
    have start : AlignedTx (AckTx.start store recipient) := ⟨agreed.keyed, agreed.indexed⟩
    obtain ⟨reached, same, reachedAligned, _⟩ := @AlignedTx.items _ recipient _ start _ room
    rw [folded] at same
    cases same
    exact reachedAligned.found entry
  · exact ack_reordered agreed recipient items order

/-- On every agreed state an acknowledgement keeps its law, whatever the recipient and the iteration order. -/
theorem ack_law (agreed : store.Agreed) (recipient : String) (items : Vec AckItem) (order : HashOrder) :
    Acknowledges store recipient items order := agreed.acknowledges recipient items order

end Law

end Trees

def sampleStore : SledStore :=
  let first := (push sampleLimits (sample "a:b" 1 0 5 3) new).2
  let second := (push sampleLimits (sample "a" 1 0 20 3) first).2
  (push sampleLimits (sample "a:b" 2 0 20 4) second).2

theorem sampleStore_agreed : sampleStore.Agreed := by
  have first : (push sampleLimits (sample "a:b" 1 0 5 3) new).2.Agreed :=
    new_agreed.push (fun _ => by decide +kernel)
  have second : (push sampleLimits (sample "a" 1 0 20 3) (push sampleLimits (sample "a:b" 1 0 5 3) new).2).2.Agreed :=
    first.push (fun _ => by decide +kernel)
  exact second.push (fun _ => by decide +kernel)

theorem ack_law_sample : Acknowledges sampleStore "a:b" (.ofList [sampleItem 1, sampleItem 1, sampleItem 3]) .asListed :=
  ack_law sampleStore_agreed "a:b" (.ofList [sampleItem 1, sampleItem 1, sampleItem 3]) .asListed

end EnigmaRelay.SledStore
