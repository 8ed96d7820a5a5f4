import EnigmaRelay.Sled.Operations

open Std Machine

namespace EnigmaRelay.SledStore

/-- How many sequence numbers a recipient has spent. -/
def spent (store : SledStore) (recipient : String) : Nat := (currentSeq store.seq recipient).toOption.getD 0

theorem spent_of_ok {store : SledStore} {recipient : String} {value : Nat}
    (read : currentSeq store.seq recipient = .ok value) : store.spent recipient = value := by
  rw [spent, read]
  rfl

theorem spent_bound (store : SledStore) (recipient : String) : store.spent recipient < 2 ^ 64 := by
  unfold spent
  cases read : currentSeq store.seq recipient with
  | error err => exact Nat.two_pow_pos 64
  | ok value => exact currentSeq_bound read

structure Shrinks (before after : SledStore) : Prop where
  messages : ∀ (key : Bytes) (msg : QueueMessage), after.messages[key]? = some msg → before.messages[key]? = some msg
  seq : after.seq = before.seq

theorem Shrinks.refl (store : SledStore) : Shrinks store store := ⟨fun _ _ present => present, rfl⟩

section Trees

variable [UuidText]

/-- What every call preserves, whoever the recipients and however many their messages. -/
structure Consistent (store : SledStore) : Prop where
  keyed : Keyed store.messages
  indexed : Indexed store.messages store.index
  numbered : ∀ recipient, ∃ value, currentSeq store.seq recipient = .ok value

theorem new_consistent : Consistent new := by
  refine ⟨?_, ⟨?_, ?_⟩, ?_⟩
  · intro key msg present
    simp [new] at present
  · intro msg present
    simp [new] at present
  · intro recipient item bytes entry
    simp [new] at entry
  · exact fun recipient => ⟨0, by simp [currentSeq, new]⟩

theorem Consistent.ackItem {tx : AckTx} (keyed : Keyed tx.messages) (indexed : Indexed tx.messages tx.index)
    (recipient : String) (item : AckItem) :
    (tx.index[itemKey recipient item]? = none ∧ SledStore.ackItem recipient tx item = .ok tx.miss) ∨
    ∃ msg : QueueMessage, tx.messages[msg.key]? = some msg ∧ msg.recipient = recipient ∧ msg.ackItem = item ∧
      SledStore.ackItem recipient tx item = .ok (tx.delete msg) := by
  have entered : ∀ {bytes : Bytes}, tx.index[itemKey recipient item]? = some bytes →
      ∃ msg : QueueMessage, tx.messages[msg.key]? = some msg ∧ msg.recipient = recipient ∧ msg.ackItem = item ∧
        decodeU64 bytes = .ok msg.arrivalSeq := by
    intro bytes entry
    obtain ⟨msg, present, owner, pair, same⟩ := indexed.sound recipient item bytes entry
    exact ⟨msg, present, owner, pair, by rw [same, decodeU64_encodeU64 (keyed _ _ present).2]⟩
  rcases ackItem_cases keyed recipient item with ⟨absent, missed⟩ | ⟨bytes, err, entry, failed, _⟩ |
    ⟨bytes, arrivalSeq, entry, decoded, gone, _⟩ | ⟨bytes, msg, _, _, present, owner, pair, deleted⟩
  · exact .inl ⟨absent, missed⟩
  · obtain ⟨msg, _, _, _, decoded⟩ := entered entry
    rw [failed] at decoded
    cases decoded
  · obtain ⟨msg, present, owner, pair, same⟩ := entered entry
    rw [decoded] at same
    cases same
    have key : messageKey recipient msg.arrivalSeq item.messageId item.chunkIndex = msg.key := by
      rw [← owner, ← pair]
      rfl
    rw [key, present] at gone
    cases gone
  · exact .inr ⟨msg, present, owner, pair, deleted⟩

theorem Consistent.ackItems {recipient : String} {items : List AckItem} {start last : AckTx}
    (keyed : Keyed start.messages) (indexed : Indexed start.messages start.index)
    (folded : items.foldlM (SledStore.ackItem recipient) start = .ok last) :
    Keyed last.messages ∧ Indexed last.messages last.index ∧
      ∀ (key : Bytes) (msg : QueueMessage), last.messages[key]? = some msg → start.messages[key]? = some msg := by
  refine ackItems_invariant (P := fun tx => Keyed tx.messages ∧ Indexed tx.messages tx.index ∧
    ∀ (key : Bytes) (msg : QueueMessage), tx.messages[key]? = some msg → start.messages[key]? = some msg)
    ?_ ⟨keyed, indexed, fun _ _ present => present⟩ folded
  rintro tx item next _ ⟨txKeyed, txIndexed, part⟩ once
  rcases Consistent.ackItem txKeyed txIndexed recipient item with ⟨_, missed⟩ | ⟨msg, present, owner, pair, deleted⟩
  · rw [missed] at once
    cases once
    exact ⟨txKeyed, txIndexed, part⟩
  · rw [deleted] at once
    cases once
    refine ⟨txKeyed.erase msg.key, txIndexed.erase txKeyed present, ?_⟩
    intro key found left
    rw [AckTx.delete, OrderedMap.getElem?_erase] at left
    split at left
    · cases left
    · exact part key found left

theorem Consistent.purgeScan (nowMs target : Nat) {entries : List (Bytes × QueueMessage)} {current : PurgeState}
    (keyed : Keyed current.store.messages) (indexed : Indexed current.store.messages current.store.index)
    (present : ∀ entry ∈ entries, current.store.messages[entry.1]? = some entry.2)
    (distinct : entries.Pairwise (fun a b => a.1 ≠ b.1)) :
    Keyed (SledStore.purgeScan nowMs target entries current).store.messages ∧
      Indexed (SledStore.purgeScan nowMs target entries current).store.messages
        (SledStore.purgeScan nowMs target entries current).store.index ∧
      Shrinks current.store (SledStore.purgeScan nowMs target entries current).store := by
  induction entries generalizing current with
  | nil => exact ⟨keyed, indexed, .refl _⟩
  | cons entry rest ih =>
    obtain ⟨key, msg⟩ := entry
    obtain ⟨apart, later⟩ := List.pairwise_cons.mp distinct
    have tail : ∀ entry ∈ rest, current.store.messages[entry.1]? = some entry.2 :=
      fun entry member => present entry (List.mem_cons_of_mem _ member)
    rw [SledStore.purgeScan]
    split
    · exact ⟨keyed, indexed, .refl _⟩
    · split
      · exact ih keyed indexed tail later
      · have here : current.store.messages[key]? = some msg := present (key, msg) List.mem_cons_self
        have own := (keyed key msg here).1
        subst own
        have nextKeyed : Keyed (current.remove msg.key msg).store.messages := keyed.erase msg.key
        have nextPresent : ∀ entry ∈ rest, (current.remove msg.key msg).store.messages[entry.1]? = some entry.2 := by
          intro entry member
          rw [PurgeState.remove, OrderedMap.getElem?_erase, if_neg (apart entry member)]
          exact tail entry member
        obtain ⟨lastKeyed, lastIndexed, part, same⟩ := ih nextKeyed (indexed.erase keyed here) nextPresent later
        refine ⟨lastKeyed, lastIndexed, ?_, same⟩
        intro other found left
        have kept := part other found left
        rw [PurgeState.remove, OrderedMap.getElem?_erase] at kept
        split at kept
        · cases kept
        · exact kept

theorem Consistent.purge {store : SledStore} (keyed : Keyed store.messages) (indexed : Indexed store.messages store.index)
    (order : HashOrder) (nowMs max : Nat) :
    Keyed (purgeExpired order nowMs max store).2.messages ∧
      Indexed (purgeExpired order nowMs max store).2.messages (purgeExpired order nowMs max store).2.index ∧
      Shrinks store (purgeExpired order nowMs max store).2 := by
  have present : ∀ entry ∈ store.messages.toList, store.messages[entry.1]? = some entry.2 :=
    fun entry member => OrderedMap.mem_toList.mp member
  have fresh : Keyed ({ store := store } : PurgeState).store.messages := keyed
  obtain ⟨lastKeyed, lastIndexed, part, same⟩ :=
    Consistent.purgeScan nowMs (min max gcBatchLimit) fresh indexed present (OrderedMap.keys_distinct store.messages)
  exact ⟨lastKeyed, lastIndexed, part, same⟩

end Trees

variable [Base64] [UuidText] (limits : RelayLimits)

abbrev next (store : SledStore) (input : Call × HashOrder) : Outcome × SledStore := relayStore.step limits store input
abbrev event (store : SledStore) (input : Call × HashOrder) : Event SledStore := Machine.taken (next limits) store input

/-- The call is a push that is stored under `arrivalSeq`. -/
structure Stores (store : SledStore) (input : Call × HashOrder) (msg : InboundMessage) (arrivalSeq : Nat) : Prop where
  call : input.1 = .push msg
  absent : store.index[itemKey msg.recipient msg.ackItem]? = none
  number : currentSeq store.seq msg.recipient = .ok arrivalSeq
  after : (next limits store input).2 = accept msg arrivalSeq store
  hit : ∀ recipient, Event.storedFor recipient (event limits store input) = decide (msg.recipient = recipient)

theorem step_effect {store : SledStore} (consistent : store.Consistent) (input : Call × HashOrder) :
    (∃ msg arrivalSeq, Stores limits store input msg arrivalSeq) ∨
    (Shrinks store (next limits store input).2 ∧ Keyed (next limits store input).2.messages ∧
      Indexed (next limits store input).2.messages (next limits store input).2.index ∧
      ∀ recipient, Event.storedFor recipient (event limits store input) = false) := by
  obtain ⟨keyed, indexed, numbered⟩ := consistent
  obtain ⟨call, order⟩ := input
  cases call with
  | push msg =>
    have step : next limits store (.push msg, order) =
        (.push (SledStore.push limits msg store).1, (SledStore.push limits msg store).2) := rfl
    have hit : ∀ recipient, Event.storedFor recipient (event limits store (.push msg, order)) = _ :=
      fun recipient => Event.storedFor_push recipient store _ msg order (SledStore.push limits msg store).1
    rcases push_cases limits msg store with ⟨_, _, pushed⟩ | ⟨_, _, pushed⟩ | ⟨_, _, err, failed, _⟩ |
      ⟨absent, _, arrivalSeq, number, pushed⟩
    · right
      rw [step, pushed]
      exact ⟨.refl _, keyed, indexed, fun r => by simp [hit, pushed]⟩
    · right
      rw [step, pushed]
      exact ⟨.refl _, keyed, indexed, fun r => by simp [hit, pushed]⟩
    · obtain ⟨value, read⟩ := numbered msg.recipient
      rw [failed] at read
      cases read
    · left
      refine ⟨msg, arrivalSeq, rfl, absent, number, by rw [step, pushed], ?_⟩
      intro recipient
      simp [hit, pushed]
  | pull recipient cursor limit nowMs =>
    right
    have same : (next limits store (.pull recipient cursor limit nowMs, order)).2 = store :=
      pull_unchanged recipient cursor limit nowMs store
    rw [same]
    exact ⟨.refl _, keyed, indexed, fun _ => rfl⟩
  | ack recipient items =>
    right
    have step : (next limits store (.ack recipient items, order)).2 = (SledStore.ack order recipient items store).2 := rfl
    rw [step]
    rcases ack_cases order recipient items store with ⟨err, acked⟩ | ⟨tx, folded, acked⟩
    · rw [acked]
      exact ⟨.refl _, keyed, indexed, fun _ => rfl⟩
    · rw [acked]
      have begun : Keyed (AckTx.start store recipient).messages := keyed
      obtain ⟨lastKeyed, lastIndexed, part⟩ := Consistent.ackItems begun indexed folded
      exact ⟨⟨part, rfl⟩, lastKeyed, lastIndexed, fun _ => rfl⟩
  | purgeExpired nowMs max =>
    right
    obtain ⟨lastKeyed, lastIndexed, shrinks⟩ := Consistent.purge keyed indexed order nowMs max
    exact ⟨shrinks, lastKeyed, lastIndexed, fun _ => rfl⟩

theorem step_consistent {store : SledStore} (consistent : store.Consistent) (input : Call × HashOrder) :
    (next limits store input).2.Consistent := by
  rcases step_effect limits consistent input with ⟨msg, arrivalSeq, stores⟩ | ⟨shrinks, keyed, indexed, _⟩
  · have bound := currentSeq_bound stores.number
    rw [stores.after]
    refine ⟨consistent.keyed.insert bound, consistent.indexed.insert consistent.keyed bound stores.absent, ?_⟩
    intro recipient
    have fits : saturatingAdd arrivalSeq 1 < 2 ^ 64 := Nat.lt_of_le_of_lt (saturatingAdd_le _ _) (by decide)
    rw [accept, currentSeq_insert recipient _ _ fits]
    split
    · exact ⟨_, rfl⟩
    · exact consistent.numbered recipient
  · refine ⟨keyed, indexed, ?_⟩
    rw [shrinks.seq]
    exact consistent.numbered

theorem run_consistent (calls : List (Call × HashOrder)) : (final (next limits) new calls).Consistent := by
  refine invariant_run (P := Consistent) (next limits) ?_ calls new_consistent
  exact fun _ input consistent => step_consistent limits consistent input

end EnigmaRelay.SledStore
