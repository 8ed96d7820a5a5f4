import EnigmaRelay.Sled.Plain

open Std Machine

namespace EnigmaRelay

/-- Every push of the calls is for a recipient without separators. -/
def PlainPushes (calls : List (Call × HashOrder)) : Prop :=
  ∀ input ∈ calls, ∀ msg, input.1 = .push msg → ':' ∉ msg.recipient.toList

namespace SledStore

/-- Numbers below the recipient's counter, each of them given to one message. -/
def Ascending (store : SledStore) : Prop :=
  ∀ recipient, ∀ msg ∈ stored store.messages recipient, msg.arrivalSeq < store.spent recipient ∧
    ∀ other ∈ stored store.messages recipient, msg.arrivalSeq = other.arrivalSeq → msg = other

@[simp] theorem spent_new (recipient : String) : spent new recipient = 0 := by
  apply spent_of_ok
  simp [currentSeq, new]

theorem new_ascending : Ascending new := by
  intro recipient msg member
  simp [stored, new] at member

theorem Shrinks.spent {before after : SledStore} (shrinks : Shrinks before after) (recipient : String) :
    after.spent recipient = before.spent recipient := by
  rw [SledStore.spent, shrinks.seq, SledStore.spent]

section Trees

variable [UuidText]

theorem Ascending.sorted {store : SledStore} (ascending : store.Ascending) (keyed : Keyed store.messages)
    (recipient : String) :
    (stored store.messages recipient).Pairwise (fun a b => a.arrivalSeq < b.arrivalSeq) := by
  refine ((keyed.arrival_sorted recipient).and (keyed.sorted recipient)).imp_of_mem ?_
  rintro a b first second ⟨ordered, below⟩
  apply Nat.lt_of_le_of_ne ordered
  intro same
  rw [(ascending recipient a first).2 b second same, ReflOrd.compare_self] at below
  cases below

theorem mem_stored_accept {store : SledStore} (keyed : Keyed store.messages) {msg : InboundMessage} {arrivalSeq : Nat}
    (read : currentSeq store.seq msg.recipient = .ok arrivalSeq) {recipient : String} {found : QueueMessage}
    (member : found ∈ stored (accept msg arrivalSeq store).messages recipient) :
    (found = msg.queued arrivalSeq ∧ msg.recipient = recipient) ∨ found ∈ stored store.messages recipient := by
  have bound : (msg.queued arrivalSeq).arrivalSeq < 2 ^ 64 := currentSeq_bound read
  obtain ⟨present, owner⟩ := (keyed.insert bound).mem_stored.mp member
  rw [OrderedMap.getElem?_insert] at present
  split at present
  · cases Option.some.inj present
    exact .inl ⟨rfl, owner⟩
  · exact .inr (keyed.mem_stored.mpr ⟨present, owner⟩)

theorem Shrinks.keyed {before after : SledStore} (shrinks : Shrinks before after) (keyed : Keyed before.messages) :
    Keyed after.messages :=
  fun key msg present => keyed key msg (shrinks.messages key msg present)

theorem Shrinks.stored {before after : SledStore} (shrinks : Shrinks before after) (keyed : Keyed before.messages)
    (left : Keyed after.messages) {recipient : String} {msg : QueueMessage}
    (member : msg ∈ EnigmaRelay.stored after.messages recipient) :
    msg ∈ EnigmaRelay.stored before.messages recipient := by
  obtain ⟨present, owner⟩ := left.mem_stored.mp member
  exact keyed.mem_stored.mpr ⟨shrinks.messages _ _ present, owner⟩

/-- The number of the message was given to it, and is that of no other message kept. -/
def Claimed (store : SledStore) (recipient : String) (msg : QueueMessage) : Prop :=
  msg.arrivalSeq < store.spent recipient ∧
    ∀ other ∈ stored store.messages recipient, msg.arrivalSeq = other.arrivalSeq → msg = other

section Accept

variable {store : SledStore} {msg : InboundMessage} {arrivalSeq : Nat}

theorem spent_accept (read : currentSeq store.seq msg.recipient = .ok arrivalSeq) (small : arrivalSeq < u64Max)
    (recipient : String) :
    (accept msg arrivalSeq store).spent recipient =
      store.spent recipient + if msg.recipient = recipient then 1 else 0 := by
  have fits : arrivalSeq + 1 < 2 ^ 64 := by
    have cap : u64Max < 2 ^ 64 := by decide
    omega
  have raised : saturatingAdd arrivalSeq 1 = arrivalSeq + 1 := saturatingAdd_of_le small
  rw [spent, accept, raised, currentSeq_insert _ _ _ fits]
  split
  · rename_i same
    rw [← same, spent_of_ok read]
    rfl
  · rfl

theorem Claimed.accept (keyed : Keyed store.messages) (read : currentSeq store.seq msg.recipient = .ok arrivalSeq)
    (small : arrivalSeq < u64Max) {recipient : String} {found : QueueMessage}
    (claimed : Claimed store recipient found) : Claimed (accept msg arrivalSeq store) recipient found := by
  obtain ⟨below, distinct⟩ := claimed
  constructor
  · rw [spent_accept read small]
    exact Nat.lt_of_lt_of_le below (Nat.le_add_right _ _)
  · intro other listed same
    rcases mem_stored_accept keyed read listed with ⟨rfl, owner⟩ | before
    · rw [same, ← owner, spent_of_ok read, queued_arrivalSeq] at below
      exact absurd below (Nat.lt_irrefl _)
    · exact distinct other before same

theorem accept_claimed (keyed : Keyed store.messages) (ascending : store.Ascending)
    (read : currentSeq store.seq msg.recipient = .ok arrivalSeq) (small : arrivalSeq < u64Max) :
    Claimed (accept msg arrivalSeq store) msg.recipient (msg.queued arrivalSeq) := by
  constructor
  · rw [spent_accept read small, if_pos rfl, spent_of_ok read, queued_arrivalSeq]
    exact Nat.lt_succ_self _
  · intro other listed same
    rcases mem_stored_accept keyed read listed with ⟨rfl, _⟩ | before
    · rfl
    · have below := (ascending msg.recipient other before).1
      rw [← same, spent_of_ok read, queued_arrivalSeq] at below
      exact absurd below (Nat.lt_irrefl _)

theorem Ascending.accept (keyed : Keyed store.messages) (ascending : store.Ascending)
    (read : currentSeq store.seq msg.recipient = .ok arrivalSeq) (small : arrivalSeq < u64Max) :
    (accept msg arrivalSeq store).Ascending := by
  intro recipient found member
  rcases mem_stored_accept keyed read member with ⟨rfl, rfl⟩ | earlier
  · exact accept_claimed keyed ascending read small
  · exact Claimed.accept keyed read small (ascending recipient found earlier)

end Accept

theorem Shrinks.claimed {before after : SledStore} (shrinks : Shrinks before after) (keyed : Keyed before.messages)
    {recipient : String} {msg : QueueMessage} (claimed : Claimed before recipient msg) :
    Claimed after recipient msg := by
  refine ⟨shrinks.spent recipient ▸ claimed.1, ?_⟩
  exact fun other listed => claimed.2 other (shrinks.stored keyed (shrinks.keyed keyed) listed)

theorem Shrinks.ascending {before after : SledStore} (shrinks : Shrinks before after) (keyed : Keyed before.messages)
    (ascending : before.Ascending) : after.Ascending :=
  fun recipient msg member =>
    shrinks.claimed keyed (ascending recipient msg (shrinks.stored keyed (shrinks.keyed keyed) member))

end Trees

variable [Base64] [UuidText] (limits : RelayLimits)

theorem step_ascending {store : SledStore} (consistent : store.Consistent) (ascending : store.Ascending)
    (input : Call × HashOrder)
    (room : ∀ recipient, Event.storedFor recipient (event limits store input) = true → store.spent recipient < u64Max) :
    (next limits store input).2.Ascending ∧ ∀ recipient, (next limits store input).2.spent recipient =
      store.spent recipient + if Event.storedFor recipient (event limits store input) then 1 else 0 := by
  rcases step_effect limits consistent input with ⟨msg, arrivalSeq, stores⟩ | ⟨shrinks, _, _, miss⟩
  · have counter : store.spent msg.recipient = arrivalSeq := spent_of_ok stores.number
    have small : arrivalSeq < u64Max := counter ▸ room msg.recipient (by rw [stores.hit]; simp)
    rw [stores.after]
    refine ⟨ascending.accept consistent.keyed stores.number small, ?_⟩
    intro recipient
    rw [spent_accept stores.number small, stores.hit]
    simp
  · refine ⟨shrinks.ascending consistent.keyed ascending, ?_⟩
    intro recipient
    rw [shrinks.spent, miss]
    simp

/-- Fewer than `2^64` messages are ever stored for any one recipient. -/
def Few (calls : List (Call × HashOrder)) : Prop := HitsBelow (next limits) Event.storedFor (2 ^ 64) new calls

theorem run_ascending {calls : List (Call × HashOrder)} (few : Few limits calls) :
    (final (next limits) new calls).Ascending ∧
      ∀ recipient, spent (final (next limits) new calls) recipient < 2 ^ 64 := by
  have within : ∀ recipient, spent new recipient +
      (trace (next limits) new calls).countP (Event.storedFor recipient) ≤ u64Max := by
    intro recipient
    have bound := few recipient
    rw [spent_new, u64Max]
    omega
  obtain ⟨⟨_, last⟩, levels, _⟩ := budget_run (P := fun store => store.Consistent ∧ store.Ascending) (next limits)
    (fun store input both room => by
      obtain ⟨ascending, raised⟩ := step_ascending limits both.1 both.2 input room
      exact ⟨⟨step_consistent limits both.1 input, ascending⟩, raised⟩) ⟨new_consistent, new_ascending⟩ within
  refine ⟨last, fun recipient => ?_⟩
  rw [levels, spent_new, Nat.zero_add]
  exact few recipient

theorem run_plain {calls : List (Call × HashOrder)}
    (plain : PlainPushes calls) :
    Plain (final (next limits) new calls).messages := by
  have preserved : ∀ store input, (store.Consistent ∧ Plain store.messages) →
      (∀ msg, input.1 = .push msg → ':' ∉ msg.recipient.toList) →
      (next limits store input).2.Consistent ∧ Plain (next limits store input).2.messages := by
    rintro store input ⟨consistent, named⟩ guard
    refine ⟨step_consistent limits consistent input, ?_⟩
    intro key found present
    rcases step_effect limits consistent input with ⟨msg, arrivalSeq, stores⟩ | ⟨shrinks, _⟩
    · rw [stores.after, accept, OrderedMap.getElem?_insert] at present
      split at present
      · cases Option.some.inj present
        exact guard msg stores.call
      · exact named key found present
    · exact named key found (shrinks.messages key found present)
  have empty : Plain new.messages := by
    intro key msg present
    simp [new] at present
  refine (guarded_run (P := fun store => store.Consistent ∧ Plain store.messages) (next limits) preserved
    ⟨new_consistent, empty⟩ ?_).2
  intro event member
  obtain ⟨earlier, later, same, _⟩ := trace_member (next limits) member
  exact plain event.input (same ▸ List.mem_append_right _ List.mem_cons_self)

end SledStore

end EnigmaRelay
