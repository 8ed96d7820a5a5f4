import EnigmaRelay.Model.PurgeSteps
import EnigmaRelay.Model.Standard
import EnigmaRelay.Sled.Run

open Std Machine

namespace EnigmaRelay.SledStore

section Purge

variable [MessageIter]

/-- The quota value of a recipient that a purge has read and not yet written back. -/
def PurgeRun.held (run : PurgeRun) (recipient : String) : Option QuotaValue :=
  match run.phase with
  | .writeBack pending => pending.lookup recipient
  | .finished _ => none
  | _ => run.quotas[recipient]?

/-- The message that a purge has read and not yet removed. -/
def PurgeRun.inHand (run : PurgeRun) : Option QueueMessage :=
  match run.phase with
  | .removeMessage _ msg => some msg
  | _ => none

/-- The entry that a purge is about to take: the iterator yields it, its message has expired and the batch has room. -/
def PurgeRun.takes (run : PurgeRun) (messages : Tree QueueMessage) : Option (Bytes × QueueMessage) :=
  match run.phase with
  | .next => (TreeIter.next run.entries messages).1.filter (fun entry =>
      run.removed < run.target && entry.2.deadlineMs ≤ run.nowMs)
  | _ => none

end Purge

section WriteBacks

variable (order : HashOrder) (quotas : ExtTreeMap String QuotaValue compare)

theorem lookup_writeBacks (recipient : String) : (writeBacks order quotas).lookup recipient = quotas[recipient]? := by
  have looked : ∀ names : List String, (names.map (fun name => (name, (quotas[name]?).getD {}))).lookup recipient =
      if recipient ∈ names then some ((quotas[recipient]?).getD {}) else none := by
    intro names
    induction names with
    | nil => rfl
    | cons name rest ih =>
      rw [List.map_cons, List.lookup_cons]
      by_cases same : recipient = name
      · simp [same]
      · rw [beq_eq_false_iff_ne.mpr same]
        simp [same, ih]
  rw [writeBacks, looked]
  by_cases cached : recipient ∈ quotas
  · rw [if_pos (order.recipients.mem_arrange.mpr (ExtTreeMap.mem_keys.mpr cached)),
      ExtTreeMap.getElem?_eq_some_getElem cached, Option.getD_some]
  · rw [if_neg (fun member => cached (ExtTreeMap.mem_keys.mp (order.recipients.mem_arrange.mp member))),
      ExtTreeMap.getElem?_eq_none cached]

theorem nodup_writeBacks : ((writeBacks order quotas).map Prod.fst).Nodup := by
  have names : (writeBacks order quotas).map Prod.fst = order.recipients.arrange quotas.keys := by
    rw [writeBacks, List.map_map]
    exact List.map_id _
  rw [names]
  exact order.recipients.nodup_arrange ExtTreeMap.nodup_keys

theorem lookup_eq_none {entries : List (String × QuotaValue)} {recipient : String}
    (absent : recipient ∉ entries.map Prod.fst) : entries.lookup recipient = none := by
  rw [List.lookup_eq_none_iff]
  intro entry member
  have different : recipient ≠ entry.1 := fun same => absent (same ▸ List.mem_map_of_mem member)
  simpa using different

end WriteBacks

/-- The trees with an acknowledgement's transaction as it is so far. -/
def AckTx.commit (tx : AckTx) (recipient : String) (store : SledStore) : SledStore :=
  { store with
    messages := tx.messages
    index := tx.index
    quota := store.quota.insert (quotaKey recipient) tx.quotaValue }

theorem readQuota_commit (tx : AckTx) (store : SledStore) (recipient other : String) :
    readQuota (tx.commit recipient store).quota other =
    if recipient = other then tx.quotaValue else readQuota store.quota other := readQuota_insert _ _ _ _

section Iteration

variable [MessageIter]

namespace Collecting

variable (state : Collecting) (recipient : String)

def booked : QuotaValue := (state.purge.held recipient).getD (readQuota state.store.quota recipient)

/-- A message that has left the tree and whose charge the purge has not yet taken back. -/
def owed : List QueueMessage :=
  match state.purge.phase with
  | .removeMessage key msg => if msg.recipient = recipient ∧ state.store.messages[key]? = none then [msg] else []
  | .removeIndex msg => if msg.recipient = recipient then [msg] else []
  | .readQuota msg => if msg.recipient = recipient then [msg] else []
  | _ => []

/-- The message in the hands of a purge is still stored, or its recipient's quota is held. -/
structure Hand [UuidText] (key : Bytes) (msg : QueueMessage) : Prop where
  own : key = msg.key
  bound : msg.arrivalSeq < 2 ^ 64
  present : state.store.messages[key]? = some msg ∨
    state.store.messages[key]? = none ∧ (state.purge.held msg.recipient).isSome = true

/-- The books of a purge under way balance. -/
structure Books [UuidText] : Prop where
  keyed : Keyed state.store.messages
  hand : ∀ key msg, state.purge.phase = .removeMessage key msg → state.Hand key msg
  pending : ∀ pending, state.purge.phase = .writeBack pending → (pending.map Prod.fst).Nodup
  balanced : ∀ recipient, state.booked recipient = total (state.owed recipient ++ stored state.store.messages recipient)

end Collecting

theorem takes_eq_some {run : PurgeRun} (phase : run.phase = .next) {messages : Tree QueueMessage} {key : Bytes}
    {msg : QueueMessage} (found : (TreeIter.next run.entries messages).1 = some (key, msg))
    (room : run.removed < run.target) (expired : msg.deadlineMs ≤ run.nowMs) :
    run.takes messages = some (key, msg) := by
  simp [PurgeRun.takes, phase, found, room, expired]

theorem owed_congr {run : PurgeRun} {store after : SledStore} (recipient : String)
    (same : ∀ key msg, run.phase = .removeMessage key msg → msg.recipient = recipient →
      (after.messages[key]? = none ↔ store.messages[key]? = none)) :
    Collecting.owed ⟨after, run⟩ recipient = Collecting.owed ⟨store, run⟩ recipient := by
  rw [Collecting.owed, Collecting.owed]
  cases phase : run.phase with
  | removeMessage key msg =>
    by_cases owner : msg.recipient = recipient
    · simp only [same key msg phase owner]
    · simp only [owner, false_and]
  | _ => rfl

theorem inHand_eq {run : PurgeRun} {msg : QueueMessage} (hand : run.inHand = some msg) :
    ∃ key, run.phase = .removeMessage key msg := by
  rw [PurgeRun.inHand] at hand
  split at hand
  · rename_i key found phase
    cases Option.some.inj hand
    exact ⟨key, phase⟩
  · cases hand

section Trees

variable [UuidText]

theorem Collecting.Books.start {store : SledStore} (keyed : Keyed store.messages)
    (agree : ∀ recipient, readQuota store.quota recipient = total (stored store.messages recipient))
    (order : HashOrder) (nowMs max : Nat) : (Collecting.start order nowMs max store).Books :=
  ⟨keyed, nofun, nofun, agree⟩

theorem Collecting.Books.next {run : PurgeRun} {store : SledStore} (books : Collecting.Books ⟨store, run⟩)
    (phase : run.phase = .next)
    (there : ∀ key msg, run.takes store.messages = some (key, msg) → store.messages[key]? = some msg) :
    Collecting.Books ⟨(run.step store).2, (run.step store).1⟩ := by
  obtain ⟨keyed, hand, pending, balanced⟩ := books
  have settled : ∀ recipient, (run.quotas[recipient]?).getD (readQuota store.quota recipient) =
      total (stored store.messages recipient) := by
    intro recipient
    have same := balanced recipient
    simp only [Collecting.booked, Collecting.owed, PurgeRun.held, phase] at same
    exact same
  rcases run.next_cases phase store with ⟨_, stepped⟩ | ⟨key, msg, found, room, read⟩
  · rw [stepped]
    refine ⟨keyed, ?_, ?_, ?_⟩
    · nofun
    · intro entries same
      cases same
      exact nodup_writeBacks run.order run.quotas
    · intro recipient
      change ((writeBacks run.order run.quotas).lookup recipient).getD (readQuota store.quota recipient) =
        total (stored store.messages recipient)
      rw [lookup_writeBacks]
      exact settled recipient
  · rcases read with ⟨_, stepped⟩ | ⟨expired, stepped⟩
    · rw [stepped]
      refine ⟨keyed, ?_, ?_, ?_⟩
      · intro key msg same
        cases phase.symm.trans same
      · intro pending same
        cases phase.symm.trans same
      · intro recipient
        simp only [Collecting.booked, Collecting.owed, PurgeRun.held, phase]
        exact settled recipient
    · have present := there key msg (takes_eq_some phase found room expired)
      rw [stepped]
      refine ⟨keyed, ?_, nofun, ?_⟩
      · intro key' msg' same
        cases same
        exact ⟨(keyed _ _ present).1, (keyed _ _ present).2, .inl present⟩
      · intro recipient
        change (run.quotas[recipient]?).getD (readQuota store.quota recipient) =
          total ((if msg.recipient = recipient ∧ store.messages[key]? = none then [msg] else []) ++
            stored store.messages recipient)
        rw [if_neg (fun both => by rw [present] at both; cases both.2)]
        exact settled recipient

theorem Collecting.Books.purge {run : PurgeRun} {store : SledStore} (books : Collecting.Books ⟨store, run⟩)
    (there : ∀ key msg, run.takes store.messages = some (key, msg) → store.messages[key]? = some msg) :
    Collecting.Books ⟨(run.step store).2, (run.step store).1⟩ := by
  obtain ⟨nowMs, target, order, entries, removed, quotas, phase⟩ := run
  cases phase with
  | next => exact books.next rfl there
  | removeMessage key msg =>
    obtain ⟨keyed, hand, pending, balanced⟩ := books
    obtain ⟨rfl, bound, present⟩ := hand key msg rfl
    refine ⟨keyed.erase _, nofun, nofun, ?_⟩
    intro recipient
    have same : (quotas[recipient]?).getD (readQuota store.quota recipient) =
        total ((if msg.recipient = recipient ∧ store.messages[msg.key]? = none then [msg] else []) ++
          stored store.messages recipient) := balanced recipient
    change (quotas[recipient]?).getD (readQuota store.quota recipient) =
      total ((if msg.recipient = recipient then [msg] else []) ++ stored (store.messages.erase msg.key) recipient)
    rcases present with here | ⟨gone, _⟩
    · rw [here, if_neg (fun both => by cases both.2)] at same
      by_cases owner : msg.recipient = recipient
      · subst owner
        rw [if_pos rfl]
        exact same.trans (total_perm (stored_erase_perm here))
      · rw [if_neg owner, keyed.stored_erase_other here owner]
        exact same
    · rw [OrderedMap.erase_of_none _ _ gone]
      rw [gone] at same
      simpa using same
  | removeIndex msg => exact ⟨books.keyed, nofun, nofun, books.balanced⟩
  | readQuota msg =>
    obtain ⟨keyed, hand, pending, balanced⟩ := books
    refine ⟨keyed, nofun, nofun, ?_⟩
    intro recipient
    have same : (quotas[recipient]?).getD (readQuota store.quota recipient) =
        total ((if msg.recipient = recipient then [msg] else []) ++ stored store.messages recipient) :=
      balanced recipient
    change ((quotas.insert msg.recipient ((cachedQuota quotas store msg.recipient).refund msg))[recipient]?).getD
      (readQuota store.quota recipient) = total (stored store.messages recipient)
    rw [OrderedMap.getElem?_insert]
    by_cases owner : msg.recipient = recipient
    · subst owner
      have cached : cachedQuota quotas store msg.recipient =
          (quotas[msg.recipient]?).getD (readQuota store.quota msg.recipient) := by
        rw [cachedQuota]
        cases quotas[msg.recipient]? <;> rfl
      rw [if_pos rfl, cached, same, if_pos rfl, List.singleton_append, total_cons, refund_charge]
      rfl
    · rw [if_neg owner] at same ⊢
      exact same
  | writeBack entries =>
    obtain ⟨keyed, hand, pending, balanced⟩ := books
    cases entries with
    | nil => exact ⟨keyed, nofun, nofun, balanced⟩
    | cons entry rest =>
      obtain ⟨name, value⟩ := entry
      obtain ⟨fresh, distinct⟩ := List.nodup_cons.mp (pending _ rfl)
      refine ⟨keyed, nofun, ?_, ?_⟩
      · intro entries same
        cases same
        exact distinct
      intro recipient
      have same : (((name, value) :: rest).lookup recipient).getD (readQuota store.quota recipient) =
          total (stored store.messages recipient) := balanced recipient
      change (rest.lookup recipient).getD (readQuota (store.quota.insert (quotaKey name) value) recipient) =
        total (stored store.messages recipient)
      rw [List.lookup_cons] at same
      rw [readQuota_insert]
      by_cases owner : name = recipient
      · subst owner
        rw [lookup_eq_none fresh, if_pos rfl]
        simpa using same
      · rw [if_neg owner]
        rw [beq_eq_false_iff_ne.mpr (Ne.symm owner)] at same
        exact same
  | finished count => exact books

section Handlers

variable {run : PurgeRun} {store after : SledStore}

theorem Collecting.Books.delete (books : Collecting.Books ⟨store, run⟩) {msg : QueueMessage}
    (present : store.messages[msg.key]? = some msg)
    (compatible : (run.held msg.recipient).isSome = true ↔ run.inHand = some msg)
    (messages : after.messages = store.messages.erase msg.key)
    (quota : ∀ recipient, readQuota after.quota recipient =
      if msg.recipient = recipient then (readQuota store.quota recipient).refund msg
      else readQuota store.quota recipient) :
    Collecting.Books ⟨after, run⟩ := by
  have keyed : Keyed store.messages := books.keyed
  -- the key in hand is the key of the deleted message only when the message is the one in hand
  have apart : ∀ key found, run.phase = .removeMessage key found → found ≠ msg → msg.key ≠ key := by
    intro key found phase different same
    rcases (books.hand key found phase).present with here | ⟨gone, _⟩
    · have both : store.messages[key]? = some found := here
      rw [← same, present] at both
      exact different (Option.some.inj both).symm
    · have missing : store.messages[key]? = none := gone
      rw [← same, present] at missing
      cases missing
  have kept :
      ∀ key found, run.phase = .removeMessage key found → found ≠ msg → after.messages[key]? = store.messages[key]? := by
    intro key found phase different
    rw [messages, OrderedMap.getElem?_erase, if_neg (apart key found phase different)]
  refine ⟨by rw [messages]; exact keyed.erase _, ?_, books.pending, ?_⟩
  · intro key found phase
    obtain ⟨own, bound, placed⟩ := books.hand key found phase
    refine ⟨own, bound, ?_⟩
    by_cases taken : found = msg
    · right
      have hand : run.inHand = some msg := by
        rw [PurgeRun.inHand, show run.phase = _ from phase, taken]
      refine ⟨?_, taken ▸ compatible.mpr hand⟩
      rw [show after.messages = _ from messages, own, taken, OrderedMap.getElem?_erase, if_pos rfl]
    · rw [show after.messages[key]? = _ from kept key found phase taken]
      exact placed
  · intro recipient
    have balanced := books.balanced recipient
    rw [Collecting.booked] at balanced ⊢
    change (run.held recipient).getD (readQuota after.quota recipient) =
      total (_ ++ stored after.messages recipient)
    rw [quota, messages]
    by_cases owner : msg.recipient = recipient
    · subst owner
      rw [if_pos rfl]
      have leaves := stored_erase_perm present
      cases held : run.held msg.recipient with
      | some value =>
        -- the purge will find the message gone, and take its charge back from the value it holds
        obtain ⟨key, phase⟩ := inHand_eq (compatible.mp (by rw [held]; rfl))
        have own := (books.hand key msg phase).own
        have before : Collecting.owed ⟨store, run⟩ msg.recipient = [] := by
          simp [Collecting.owed, phase, own, present]
        have now : Collecting.owed ⟨after, run⟩ msg.recipient = [msg] := by
          simp [Collecting.owed, phase, own, messages]
        simp only [before, held] at balanced
        rw [now]
        exact balanced.trans (total_perm leaves)
      | none =>
        have same : Collecting.owed ⟨after, run⟩ msg.recipient = Collecting.owed ⟨store, run⟩ msg.recipient := by
          apply owed_congr
          intro key found phase _
          rw [kept key found phase]
          rintro rfl
          have hand : run.inHand = some found := by rw [PurgeRun.inHand, phase]
          have holding := compatible.mpr hand
          rw [held] at holding
          cases holding
        have moved : (Collecting.owed ⟨store, run⟩ msg.recipient ++ stored store.messages msg.recipient).Perm
            (msg :: (Collecting.owed ⟨store, run⟩ msg.recipient ++
              stored (store.messages.erase msg.key) msg.recipient)) :=
          (leaves.append_left _).trans List.perm_middle
        simp only [held, Option.getD_none] at balanced ⊢
        rw [balanced, same, total_perm moved, total_cons, refund_charge]
    · have same : Collecting.owed ⟨after, run⟩ recipient = Collecting.owed ⟨store, run⟩ recipient := by
        apply owed_congr
        intro key found phase named
        rw [kept key found phase]
        rintro rfl
        exact owner named
      rw [if_neg owner, keyed.stored_erase_other present owner, same]
      exact balanced

theorem Collecting.Books.congr (books : Collecting.Books ⟨store, run⟩) (messages : after.messages = store.messages)
    (quota : ∀ recipient, readQuota after.quota recipient = readQuota store.quota recipient) :
    Collecting.Books ⟨after, run⟩ := by
  refine ⟨by rw [messages]; exact books.keyed, ?_, books.pending, ?_⟩
  · intro key msg phase
    obtain ⟨own, bound, placed⟩ := books.hand key msg phase
    refine ⟨own, bound, ?_⟩
    rw [show after.messages = _ from messages]
    exact placed
  · intro recipient
    have same : Collecting.owed ⟨after, run⟩ recipient = Collecting.owed ⟨store, run⟩ recipient :=
      owed_congr recipient (fun key msg _ _ => by rw [messages])
    rw [Collecting.booked, show readQuota after.quota recipient = _ from quota recipient, same,
      show after.messages = _ from messages]
    exact books.balanced recipient

theorem Collecting.Books.insert (books : Collecting.Books ⟨store, run⟩) {msg : QueueMessage}
    (bound : msg.arrivalSeq < 2 ^ 64) (fresh : store.messages[msg.key]? = none)
    (free : run.held msg.recipient = none) (messages : after.messages = store.messages.insert msg.key msg)
    (quota : ∀ recipient, readQuota after.quota recipient =
      if msg.recipient = recipient then (readQuota store.quota recipient).charge msg
      else readQuota store.quota recipient) :
    Collecting.Books ⟨after, run⟩ := by
  have keyed : Keyed store.messages := books.keyed
  have kept : ∀ key found, run.phase = .removeMessage key found → after.messages[key]? = store.messages[key]? := by
    intro key found phase
    rw [messages, OrderedMap.getElem?_insert, if_neg]
    rintro rfl
    obtain ⟨own, small, here | ⟨_, holding⟩⟩ := books.hand _ found phase
    · have present : store.messages[msg.key]? = some found := here
      rw [fresh] at present
      cases present
    · rw [← (key_injective bound small own).1] at holding
      change (run.held msg.recipient).isSome = true at holding
      rw [free] at holding
      cases holding
  have same : ∀ recipient, Collecting.owed ⟨after, run⟩ recipient = Collecting.owed ⟨store, run⟩ recipient :=
    fun recipient => owed_congr recipient (fun key found phase _ => by rw [kept key found phase])
  refine ⟨by rw [messages]; exact keyed.insert bound, ?_, books.pending, ?_⟩
  · intro key found phase
    obtain ⟨own, small, placed⟩ := books.hand key found phase
    refine ⟨own, small, ?_⟩
    rw [show after.messages[key]? = _ from kept key found phase]
    exact placed
  · intro recipient
    have balanced := books.balanced recipient
    rw [Collecting.booked] at balanced ⊢
    change (run.held recipient).getD (readQuota after.quota recipient) = total (_ ++ stored after.messages recipient)
    rw [quota, messages, same]
    by_cases owner : msg.recipient = recipient
    · subst owner
      have joined :
          (Collecting.owed ⟨store, run⟩ msg.recipient ++ stored (store.messages.insert msg.key msg) msg.recipient).Perm
          (msg :: (Collecting.owed ⟨store, run⟩ msg.recipient ++ stored store.messages msg.recipient)) :=
        ((stored_insert_perm fresh).append_left _).trans List.perm_middle
      simp only [free, Option.getD_none, if_pos] at balanced ⊢
      rw [balanced, total_perm joined, total_cons]
    · rw [if_neg owner, keyed.stored_insert_other bound fresh owner]
      exact balanced

end Handlers

def named (recipient : String) (item : AckItem) (store : SledStore) : Option QueueMessage :=
  match store.index[itemKey recipient item]? with
  | none => none
  | some seqBytes =>
    match decodeU64 seqBytes with
    | .error _ => none
    | .ok seq => store.messages[messageKey recipient seq item.messageId item.chunkIndex]?

def lands (limits : RelayLimits) (msg : InboundMessage) (store : SledStore) : Option Nat :=
  match (push limits msg store).1 with
  | .ok result => if result.stored then (currentSeq store.seq msg.recipient).toOption else none
  | .error _ => none

/-- A handler's transaction that the write-back of the quotas it runs into does not undo: it stores
    nothing for a recipient whose quota the purge holds, and of the messages it deletes the purge
    holds the quota if and only if it has the message itself in hand. And an operation of the purge that
    takes no message which a handler has deleted since the iterator saw it. -/
def Collecting.compatible (limits : RelayLimits) (state : Collecting) : Turn → Bool
  | .purge => (state.purge.takes state.store.messages).all (fun entry => state.store.messages[entry.1]? = some entry.2)
  | .push msg =>
    (lands limits msg state.store).all (fun seq =>
      (state.purge.held msg.recipient).isNone && (state.store.messages[(msg.queued seq).key]?).isNone &&
        (readQuota state.store.quota msg.recipient).bytes + msg.payloadBytes ≤ u64Max &&
        (readQuota state.store.quota msg.recipient).count + 1 ≤ u64Max)
  | .ack _ recipient items =>
    items.toList.all (fun item => (named recipient item state.store).all (fun msg =>
      (state.purge.held recipient).isSome == (state.purge.inHand == some msg)))

section Handlers

variable {run : PurgeRun} {store : SledStore}

theorem Collecting.Books.ack (books : Collecting.Books ⟨store, run⟩) {limits : RelayLimits} {order : HashOrder}
    {recipient : String} {items : Vec AckItem}
    (compatible : Collecting.compatible limits ⟨store, run⟩ (.ack order recipient items) = true) :
    Collecting.Books ⟨(SledStore.ack order recipient items store).2, run⟩ := by
  have agreed : ∀ item ∈ items.toList, ∀ msg, named recipient item store = some msg →
      ((run.held recipient).isSome = true ↔ run.inHand = some msg) := by
    intro item member msg leads
    have each := List.all_eq_true.mp compatible item member
    rw [leads, Option.all_some, beq_iff_eq, Bool.eq_iff_iff, beq_iff_eq] at each
    exact each
  rcases ack_cases order recipient items store with ⟨err, acked⟩ | ⟨tx, folded, acked⟩
  · rw [acked]
    exact books
  · rw [acked]
    refine (ackItems_invariant (P := fun tx => Collecting.Books ⟨tx.commit recipient store, run⟩ ∧
      (∀ (key bytes : Bytes), tx.index[key]? = some bytes → store.index[key]? = some bytes) ∧
      ∀ (key : Bytes) (msg : QueueMessage), tx.messages[key]? = some msg →
        store.messages[key]? = some msg) ?_ ⟨?_, ?_, ?_⟩ folded).1
    · rintro tx item next listed ⟨txBooks, entries, part⟩ once
      have member : item ∈ items.toList := List.mem_dedup.mp (order.items.mem_arrange.mp listed)
      have keyed : Keyed tx.messages := txBooks.keyed
      have shorter : ∀ (key bytes : Bytes), (tx.index.erase (itemKey recipient item))[key]? = some bytes →
          store.index[key]? = some bytes := by
        intro key bytes entry
        rw [OrderedMap.getElem?_erase] at entry
        split at entry
        · cases entry
        · exact entries key bytes entry
      rcases ackItem_cases keyed recipient item with ⟨_, missed⟩ | ⟨_, _, _, _, failed⟩ | ⟨_, _, _, _, _, missed⟩ |
        ⟨bytes, msg, entry, decoded, present, owner, pair, deleted⟩
      · rw [missed] at once
        cases once
        exact ⟨txBooks, entries, part⟩
      · rw [failed] at once
        cases once
      · rw [missed] at once
        cases once
        exact ⟨txBooks.congr rfl (fun _ => rfl), shorter, part⟩
      · rw [deleted] at once
        cases once
        have key : messageKey recipient msg.arrivalSeq item.messageId item.chunkIndex = msg.key := by
          rw [← owner, ← pair]
          rfl
        have leads : named recipient item store = some msg := by
          simp only [named, entries _ _ entry, decoded, key, part _ _ present]
        refine ⟨txBooks.delete present (owner ▸ agreed item member msg leads) rfl ?_, ?_, ?_⟩
        · intro other
          rw [readQuota_commit, readQuota_commit, owner]
          split <;> rfl
        · rw [AckTx.delete, owner, pair]
          exact shorter
        · intro other found left
          rw [AckTx.delete, OrderedMap.getElem?_erase] at left
          split at left
          · cases left
          · exact part other found left
    · refine books.congr rfl ?_
      intro other
      rw [readQuota_commit]
      split
      · rename_i same
        rw [← same]
        rfl
      · rfl
    · exact fun _ _ entry => entry
    · exact fun _ _ present => present

theorem Collecting.Books.push (books : Collecting.Books ⟨store, run⟩) {limits : RelayLimits} {msg : InboundMessage}
    (compatible : Collecting.compatible limits ⟨store, run⟩ (.push msg) = true) :
    Collecting.Books ⟨(SledStore.push limits msg store).2, run⟩ := by
  rcases push_after limits msg store with unchanged | ⟨_, _, arrivalSeq, _, number, told, pushed⟩
  · rw [unchanged]
    exact books
  · have lands : SledStore.lands limits msg store = some arrivalSeq := by
      simp [SledStore.lands, pushed, number, told, Except.toOption]
    simp only [Collecting.compatible, lands, Option.all_some, Bool.and_eq_true, Option.isNone_iff_eq_none,
      decide_eq_true_eq] at compatible
    obtain ⟨⟨⟨free, fresh⟩, bytes⟩, count⟩ := compatible
    rw [pushed]
    refine @Collecting.Books.insert _ _ _ _ _ books (msg.queued arrivalSeq) (currentSeq_bound number) fresh free rfl ?_
    intro recipient
    rw [accept, readQuota_insert, saturatingAdd_of_le bytes, saturatingAdd_of_le count, queued_recipient]
    split
    · rename_i same
      rw [← same]
      rfl
    · rfl

/-- One turn keeps the books, if it is compatible with the purge. -/
theorem Collecting.Books.step {state : Collecting} {turn : Turn} {limits : RelayLimits} (books : state.Books)
    (compatible : state.compatible limits turn = true) : (state.step limits turn).2.Books := by
  cases turn with
  | push msg => exact books.push compatible
  | ack order recipient items => exact books.ack compatible
  | purge =>
    apply books.purge
    intro key msg takes
    rw [Collecting.compatible, takes, Option.all_some] at compatible
    exact of_decide_eq_true compatible

end Handlers

/-- However the iterator reads: a purge under way leaves exact quotas, when every handler's transaction is compatible
    with it and it takes only messages that are still there. -/
theorem purge_keeps_quota {limits : RelayLimits} {store : SledStore} (keyed : Keyed store.messages)
    (agree : ∀ recipient, readQuota store.quota recipient = total (stored store.messages recipient))
    (order : HashOrder) (nowMs max : Nat) {turns : List Turn}
    (compatible : ∀ event ∈ trace (Collecting.step limits) (.start order nowMs max store) turns,
      event.before.compatible limits event.input = true)
    {removed : Nat}
    (finished : (final (Collecting.step limits) (.start order nowMs max store) turns).purge.phase = .finished removed)
    (recipient : String) :
    readQuota (final (Collecting.step limits) (.start order nowMs max store) turns).store.quota recipient =
      total (stored (final (Collecting.step limits) (.start order nowMs max store) turns).store.messages recipient) := by
  have books := guarded_run (P := fun state : Collecting => state.Books) (Collecting.step limits)
    (fun _ _ books guard => books.step guard) (Collecting.Books.start keyed agree order nowMs max) compatible
  have balanced := books.balanced recipient
  rw [Collecting.booked, Collecting.owed, PurgeRun.held, finished] at balanced
  exact balanced

end Trees

end Iteration

theorem new_agree (recipient : String) : readQuota new.quota recipient = total (stored new.messages recipient) := by
  simp [readQuota, new, stored, total]

def sampleTurns : List Turn :=
  [.push (sample "a" 1 0 5 3), .purge, .purge, .push (sample "b" 2 8 20 4), .purge, .purge,
    .ack .asListed "b" (.ofList [sampleItem 2]), .purge, .purge, .purge]

theorem purge_keeps_quota_sample :
    readQuota (final (Collecting.step sampleLimits) (.start .asListed 10 1024 new) sampleTurns).store.quota "a" =
      total (stored (final (Collecting.step sampleLimits) (.start .asListed 10 1024 new) sampleTurns).store.messages "a") :=
  purge_keeps_quota new_consistent.keyed new_agree .asListed 10 1024 (by decide +kernel)
    (by decide +kernel : _ = PurgePhase.finished 1) "a"

def overtaken : List Turn :=
  [.push (sample "a" 1 0 5 3), .purge, .purge, .purge, .purge, .push (sample "a" 2 8 20 4), .purge, .purge, .purge,
    .purge]

theorem purge_loses_charge :
    let last := final (Collecting.step sampleLimits) (.start .asListed 10 1024 new) overtaken
    (∀ recipient, readQuota new.quota recipient = total (stored new.messages recipient)) ∧
      last.purge.phase = .finished 1 ∧ readQuota last.store.quota "a" = { bytes := 0, count := 0 } ∧
      total (stored last.store.messages "a") = { bytes := 4, count := 1 } :=
  ⟨new_agree, by decide +kernel⟩

/-- The iterator has cached a message that is then acknowledged, and its charge is taken back twice. -/
example :
    let last := final (Collecting.step sampleLimits) (.start .asListed 10 1024 new)
      [.push (sample "a" 1 0 20 4), .push (sample "a" 2 0 5 3), .push (sample "a" 3 0 20 4), .purge,
        .ack .asListed "a" (.ofList [sampleItem 2]), .purge, .purge, .purge, .purge, .purge, .purge, .purge, .purge]
    last.purge.phase = .finished 1 ∧ readQuota last.store.quota "a" = { bytes := 5, count := 1 } ∧
      total (stored last.store.messages "a") = { bytes := 8, count := 2 } := by decide +kernel

end EnigmaRelay.SledStore
