import EnigmaRelay.Sled.PurgeQuota

open Std Machine

namespace EnigmaRelay.SledStore

theorem named_stored [UuidText] {store : SledStore} (keyed : Keyed store.messages)
    (complete : Complete store.messages store.index) {msg : QueueMessage} (present : store.messages[msg.key]? = some msg) :
    named msg.recipient msg.ackItem store = some msg := by
  have key : messageKey msg.recipient msg.arrivalSeq msg.ackItem.messageId msg.ackItem.chunkIndex = msg.key := rfl
  simp only [named, complete msg present, decodeU64_encodeU64 (keyed _ _ present).2, key, present]

section Iteration

variable [MessageIter]

namespace Collecting

variable (state : Collecting)

def stale (recipient : String) (item : AckItem) : Prop :=
  ∃ msg, state.purge.phase = .removeIndex msg ∧ msg.recipient = recipient ∧ msg.ackItem = item

def filed [UuidText] (entry : Bytes × QueueMessage) : Prop := entry.1 = entry.2.key ∧ entry.2.arrivalSeq < 2 ^ 64

/-- The index of a purge under way: every message has its entry, and only a stale one lacks its message. -/
structure Aligned [UuidText] : Prop where
  keyed : Keyed state.store.messages
  hand : ∀ key msg, state.purge.phase = .removeMessage key msg → key = msg.key ∧ msg.arrivalSeq < 2 ^ 64
  complete : Complete state.store.messages state.store.index
  sound : ∀ (recipient : String) (item : AckItem) (bytes : Bytes),
    state.store.index[itemKey recipient item]? = some bytes → state.stale recipient item ∨
      ∃ msg : QueueMessage, state.store.messages[msg.key]? = some msg ∧ msg.recipient = recipient ∧
        msg.ackItem = item ∧ bytes = encodeU64 msg.arrivalSeq
  reading : ∃ seen, state.purge.entries = TreeIter.reached seen ∧ TreeIter.Covers seen filed

end Collecting

/-- The purge removes an index entry only when no stored message has its pair. -/
def Collecting.undisturbed [UuidText] (state : Collecting) : Turn → Bool
  | .purge =>
    match state.purge.phase with
    | .removeIndex msg => (named msg.recipient msg.ackItem state.store).isNone
    | _ => true
  | _ => true

section Trees

variable [UuidText]

theorem Collecting.Aligned.start {store : SledStore} (keyed : Keyed store.messages)
    (indexed : Indexed store.messages store.index) (order : HashOrder) (nowMs max : Nat) :
    (Collecting.start order nowMs max store).Aligned :=
  ⟨keyed, by simp [Collecting.start, PurgeRun.start], indexed.complete,
    fun recipient item bytes entry => .inr (indexed.sound recipient item bytes entry), [], rfl, .nil⟩

section Steps

variable {run : PurgeRun} {store : SledStore}

theorem Collecting.Aligned.onward (aligned : Collecting.Aligned ⟨store, run⟩) {next : PurgeRun} {after : SledStore}
    (settled : ∀ msg, run.phase ≠ .removeIndex msg) (messages : after.messages = store.messages)
    (index : after.index = store.index)
    (hand : ∀ key msg, next.phase = .removeMessage key msg → key = msg.key ∧ msg.arrivalSeq < 2 ^ 64)
    (reading : ∃ seen, next.entries = TreeIter.reached seen ∧ TreeIter.Covers seen Collecting.filed) :
    Collecting.Aligned ⟨after, next⟩ := by
  refine ⟨by rw [messages]; exact aligned.keyed, hand, by rw [messages, index]; exact aligned.complete, ?_, reading⟩
  intro recipient item bytes entry
  rw [index] at entry
  rcases aligned.sound recipient item bytes entry with ⟨msg, phase, _⟩ | found
  · exact absurd phase (settled msg)
  · right
    rw [messages]
    exact found

theorem Collecting.Aligned.next (lawful : TreeIter.Lawful Bytes QueueMessage compare)
    (aligned : Collecting.Aligned ⟨store, run⟩) (phase : run.phase = .next) :
    Collecting.Aligned ⟨(run.step store).2, (run.step store).1⟩ := by
  obtain ⟨seen, cursor, covers⟩ := aligned.reading
  change run.entries = _ at cursor
  have here : ∀ (key : Bytes) (msg : QueueMessage), store.messages[key]? = some msg →
      TreeIter.passed seen key = true ∨ Collecting.filed (key, msg) :=
    fun key msg present => .inr (aligned.keyed key msg present)
  have reading : ∃ seen, (TreeIter.next run.entries store.messages).2 = TreeIter.reached seen ∧
      TreeIter.Covers seen Collecting.filed := by
    refine ⟨seen ++ [store.messages], ?_, covers.read here (fun _ filed => .inl filed)⟩
    rw [cursor, TreeIter.reached_snoc]
  have settled : ∀ msg, run.phase ≠ .removeIndex msg := by simp [phase]
  rcases run.next_cases phase store with ⟨_, stepped⟩ | ⟨key, msg, found, _, ⟨_, stepped⟩ | ⟨_, stepped⟩⟩
  · rw [stepped]
    exact aligned.onward settled rfl rfl (by simp) reading
  · rw [stepped]
    exact aligned.onward settled rfl rfl (by simp [phase]) reading
  · rw [stepped]
    refine aligned.onward settled rfl rfl ?_ reading
    intro key' msg' same
    cases same
    rw [cursor] at found
    exact lawful.covered covers here found

theorem Collecting.Aligned.purge (lawful : TreeIter.Lawful Bytes QueueMessage compare)
    (aligned : Collecting.Aligned ⟨store, run⟩) (undisturbed : Collecting.undisturbed ⟨store, run⟩ .purge = true) :
    Collecting.Aligned ⟨(run.step store).2, (run.step store).1⟩ := by
  obtain ⟨nowMs, target, order, entries, removed, quotas, phase⟩ := run
  cases phase with
  | next => exact aligned.next lawful rfl
  | removeMessage key msg =>
    obtain ⟨rfl, bound⟩ := aligned.hand key msg rfl
    have keyed : Keyed store.messages := aligned.keyed
    refine ⟨keyed.erase _, by simp [PurgeRun.step], Complete.erase aligned.complete _, ?_, aligned.reading⟩
    intro recipient item bytes entry
    rcases aligned.sound recipient item bytes entry with ⟨_, phase, _⟩ | ⟨found, present, owner, pair, same⟩
    · cases phase
    · by_cases taken : msg.key = found.key
      · left
        obtain ⟨owners, _, pairs⟩ := key_injective bound (keyed _ _ present).2 taken
        exact ⟨msg, rfl, owners.trans owner, pairs.trans pair⟩
      · right
        refine ⟨found, ?_, owner, pair, same⟩
        change (store.messages.erase msg.key)[found.key]? = some found
        rw [OrderedMap.getElem?_erase, if_neg taken]
        exact present
  | removeIndex msg =>
    have keyed : Keyed store.messages := aligned.keyed
    have complete : Complete store.messages store.index := aligned.complete
    have gone : named msg.recipient msg.ackItem store = none := Option.isNone_iff_eq_none.mp undisturbed
    have trimmed : Complete store.messages (store.index.erase (itemKey msg.recipient msg.ackItem)) := by
      apply complete.erase_index
      intro found present owner pair
      have leads := named_stored keyed complete present
      rw [owner, pair, gone] at leads
      cases leads
    refine ⟨keyed, by simp [PurgeRun.step], trimmed, ?_, aligned.reading⟩
    · intro recipient item bytes entry
      change (store.index.erase (itemKey msg.recipient msg.ackItem))[itemKey recipient item]? = some bytes at entry
      rw [OrderedMap.getElem?_erase] at entry
      split at entry
      · cases entry
      · rename_i different
        rcases aligned.sound recipient item bytes entry with ⟨_, phase, owner, pair⟩ | found
        · cases phase
          rw [owner, pair] at different
          exact absurd rfl different
        · exact .inr found
  | readQuota msg => exact aligned.onward (by simp) rfl rfl (by simp [PurgeRun.step]) aligned.reading
  | writeBack entries =>
    cases entries with
    | nil => exact aligned.onward (by simp) rfl rfl (by simp [PurgeRun.step]) aligned.reading
    | cons entry rest => exact aligned.onward (by simp) rfl rfl (by simp [PurgeRun.step]) aligned.reading
  | finished count => exact aligned

theorem Collecting.Aligned.trim (aligned : Collecting.Aligned ⟨store, run⟩) {after : SledStore} {recipient : String}
    {item : AckItem} {bytes : Bytes} {arrivalSeq : Nat} (entry : store.index[itemKey recipient item]? = some bytes)
    (decoded : decodeU64 bytes = .ok arrivalSeq)
    (gone : store.messages[messageKey recipient arrivalSeq item.messageId item.chunkIndex]? = none)
    (messages : after.messages = store.messages) (index : after.index = store.index.erase (itemKey recipient item)) :
    Collecting.Aligned ⟨after, run⟩ := by
  have keyed : Keyed store.messages := aligned.keyed
  have complete : Complete store.messages store.index := aligned.complete
  have trimmed : Complete store.messages (store.index.erase (itemKey recipient item)) := by
    apply complete.erase_index
    rintro found present rfl rfl
    rw [complete found present] at entry
    cases Option.some.inj entry
    rw [decodeU64_encodeU64 (keyed _ _ present).2] at decoded
    cases decoded
    change store.messages[found.key]? = none at gone
    rw [present] at gone
    cases gone
  refine ⟨by rw [messages]; exact keyed, aligned.hand, by rw [messages, index]; exact trimmed, ?_, aligned.reading⟩
  intro recipient' item' bytes' left
  rw [index, OrderedMap.getElem?_erase] at left
  split at left
  · cases left
  · rw [messages]
    exact aligned.sound recipient' item' bytes' left

theorem Collecting.Aligned.delete (aligned : Collecting.Aligned ⟨store, run⟩) {after : SledStore} {msg : QueueMessage}
    (present : store.messages[msg.key]? = some msg) (messages : after.messages = store.messages.erase msg.key)
    (index : after.index = store.index.erase (itemKey msg.recipient msg.ackItem)) : Collecting.Aligned ⟨after, run⟩ := by
  have keyed : Keyed store.messages := aligned.keyed
  have complete : Complete store.messages store.index := aligned.complete
  have trimmed : Complete (store.messages.erase msg.key) (store.index.erase (itemKey msg.recipient msg.ackItem)) := by
    apply (complete.erase msg.key).erase_index
    intro found still owner pair
    rw [OrderedMap.getElem?_erase] at still
    split at still
    · cases still
    · rename_i different
      rw [complete.distinct keyed present still owner.symm pair.symm] at different
      exact different rfl
  refine ⟨by rw [messages]; exact keyed.erase _, aligned.hand, by rw [messages, index]; exact trimmed, ?_, aligned.reading⟩
  intro recipient item bytes left
  rw [index, OrderedMap.getElem?_erase] at left
  split at left
  · cases left
  · rename_i different
    rcases aligned.sound recipient item bytes left with waiting | ⟨found, still, owner, pair, same⟩
    · exact .inl waiting
    · refine .inr ⟨found, ?_, owner, pair, same⟩
      rw [messages, OrderedMap.getElem?_erase, if_neg]
      · exact still
      · intro taken
        obtain ⟨owners, _, pairs⟩ := key_injective (keyed _ _ present).2 (keyed _ _ still).2 taken
        rw [owners, pairs, owner, pair] at different
        exact different rfl

theorem Collecting.Aligned.ack (aligned : Collecting.Aligned ⟨store, run⟩) (order : HashOrder) (recipient : String)
    (items : Vec AckItem) : Collecting.Aligned ⟨(SledStore.ack order recipient items store).2, run⟩ := by
  rcases ack_cases order recipient items store with ⟨err, acked⟩ | ⟨tx, folded, acked⟩
  · rw [acked]
    exact aligned
  · rw [acked]
    refine ackItems_invariant (P := fun tx => Collecting.Aligned ⟨tx.commit recipient store, run⟩) ?_ ?_ folded
    · intro tx item next _ txAligned once
      have keyed : Keyed tx.messages := txAligned.keyed
      rcases ackItem_cases keyed recipient item with ⟨_, missed⟩ | ⟨_, _, _, _, failed⟩ |
        ⟨_, _, entry, decoded, gone, missed⟩ | ⟨_, msg, _, _, present, owner, pair, deleted⟩
      · rw [missed] at once
        cases once
        exact txAligned
      · rw [failed] at once
        cases once
      · rw [missed] at once
        cases once
        exact txAligned.trim entry decoded gone rfl rfl
      · rw [deleted] at once
        cases once
        exact txAligned.delete present rfl rfl
    · exact ⟨aligned.keyed, aligned.hand, aligned.complete, aligned.sound, aligned.reading⟩

theorem Collecting.Aligned.push (aligned : Collecting.Aligned ⟨store, run⟩) (limits : RelayLimits)
    (msg : InboundMessage) :
    Collecting.Aligned ⟨(SledStore.push limits msg store).2, run⟩ := by
  have keyed : Keyed store.messages := aligned.keyed
  have complete : Complete store.messages store.index := aligned.complete
  rcases push_after limits msg store with unchanged | ⟨absent, _, arrivalSeq, _, number, _, pushed⟩
  · rw [unchanged]
    exact aligned
  · rw [pushed]
    have bound : (msg.queued arrivalSeq).arrivalSeq < 2 ^ 64 := currentSeq_bound number
    have fresh := complete.fresh keyed bound absent
    refine ⟨keyed.insert bound, aligned.hand, complete.insert absent, ?_, aligned.reading⟩
    intro recipient item bytes entry
    change (store.index.insert (itemKey msg.recipient msg.ackItem) (encodeU64 arrivalSeq))[itemKey recipient item]? =
      some bytes at entry
    rw [OrderedMap.getElem?_insert] at entry
    split at entry
    · rename_i same
      obtain ⟨owner, pair⟩ := itemKey_injective same
      refine .inr ⟨msg.queued arrivalSeq, ?_, owner, pair, (Option.some.inj entry).symm⟩
      rw [accept, OrderedMap.getElem?_insert, if_pos rfl]
    · rcases aligned.sound recipient item bytes entry with waiting | ⟨found, present, owner, pair, same⟩
      · exact .inl waiting
      · refine .inr ⟨found, ?_, owner, pair, same⟩
        rw [accept, OrderedMap.getElem?_insert, if_neg]
        · exact present
        · intro keys
          rw [keys] at fresh
          change store.messages[found.key]? = some found at present
          rw [fresh] at present
          cases present

/-- One turn keeps the index aligned, if the purge removes no entry of a stored message. -/
theorem Collecting.Aligned.step (lawful : TreeIter.Lawful Bytes QueueMessage compare) {state : Collecting} {turn : Turn}
    {limits : RelayLimits} (aligned : state.Aligned) (undisturbed : state.undisturbed turn = true) :
    (state.step limits turn).2.Aligned := by
  cases turn with
  | push msg => exact aligned.push limits msg
  | ack order recipient items => exact aligned.ack order recipient items
  | purge => exact aligned.purge lawful undisturbed

end Steps

/-- A purge under way leaves an exact index, when no pair comes back between the removal of its
    message and the removal of its entry. -/
theorem purge_keeps_index (lawful : TreeIter.Lawful Bytes QueueMessage compare) {limits : RelayLimits}
    {store : SledStore} (keyed : Keyed store.messages) (indexed : Indexed store.messages store.index)
    (order : HashOrder) (nowMs max : Nat) {turns : List Turn}
    (undisturbed : ∀ event ∈ trace (Collecting.step limits) (.start order nowMs max store) turns,
      event.before.undisturbed event.input = true)
    {removed : Nat}
    (finished : (final (Collecting.step limits) (.start order nowMs max store) turns).purge.phase = .finished removed) :
    Indexed (final (Collecting.step limits) (.start order nowMs max store) turns).store.messages
      (final (Collecting.step limits) (.start order nowMs max store) turns).store.index := by
  have aligned := guarded_run (P := fun state : Collecting => state.Aligned) (Collecting.step limits)
    (fun _ _ aligned guard => aligned.step lawful guard) (Collecting.Aligned.start keyed indexed order nowMs max)
    undisturbed
  refine ⟨aligned.complete, ?_⟩
  intro recipient item bytes entry
  rcases aligned.sound recipient item bytes entry with ⟨_, phase, _⟩ | found
  · rw [finished] at phase
    cases phase
  · exact found

end Trees

end Iteration

theorem purge_keeps_index_sample :
    Indexed (final (Collecting.step sampleLimits) (.start .asListed 10 1024 new) sampleTurns).store.messages
      (final (Collecting.step sampleLimits) (.start .asListed 10 1024 new) sampleTurns).store.index :=
  purge_keeps_index TreeIter.oneLeaf_lawful new_consistent.keyed new_consistent.indexed .asListed 10 1024
    (by decide +kernel) (by decide +kernel : _ = PurgePhase.finished 1)

def returning : List Turn :=
  [.push (sample "a" 1 0 5 3), .purge, .ack .asListed "a" sampleAck, .push (sample "a" 1 8 20 3),
    .purge, .purge, .purge, .purge, .purge, .purge, .purge]

theorem purge_loses_entry :
    let last := final (Collecting.step sampleLimits) (.start .asListed 10 1024 new) returning
    Indexed new.messages new.index ∧ last.purge.phase = .finished 1 ∧
      stored last.store.messages "a" = [(sample "a" 1 8 20 3).queued 1] ∧
      last.store.index[itemKey "a" (sampleItem 1)]? = none ∧ ¬ Indexed last.store.messages last.store.index := by
  intro last
  have present : last.store.messages[((sample "a" 1 8 20 3).queued 1).key]? = some ((sample "a" 1 8 20 3).queued 1) := by
    decide +kernel
  have absent : last.store.index[itemKey "a" (sampleItem 1)]? = none := by decide +kernel
  refine ⟨new_consistent.indexed, by decide +kernel, by decide +kernel, absent, ?_⟩
  intro indexed
  have entry := indexed.complete _ present
  change last.store.index[itemKey "a" (sampleItem 1)]? = _ at entry
  rw [absent] at entry
  cases entry

end EnigmaRelay.SledStore
