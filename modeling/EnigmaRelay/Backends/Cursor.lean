import EnigmaRelay.Memory.Traversal
import EnigmaRelay.Sled.Run

open Std Machine

namespace EnigmaRelay

section Codec

variable [Base64]

theorem decodeCursor_plain {cursor recipient : String} {arrivalSeq : Nat}
    (decoded : decodeCursor cursor = .ok (recipient, arrivalSeq)) : ':' ∉ recipient.toList := by
  unfold decodeCursor at decoded
  split at decoded
  · cases decoded
  · split at decoded
    · cases decoded
    · rename_i text _
      split at decoded
      · cases decoded
      · split at decoded
        · cases decoded
        · have same := congrArg Prod.fst (Except.ok.inj decoded)
          dsimp only at same
          rw [← same, String.toList_ofList]
          intro member
          have passed := List.all_eq_true.mp List.all_takeWhile ':' member
          simp at passed

/-- The cursor is one that a pull of the recipient goes on from. -/
def Accepted (recipient cursor : String) : Prop := ∃ start, startSeq recipient (some cursor) = .ok start

theorem Accepted.plain {recipient cursor : String} (accepted : Accepted recipient cursor) : ':' ∉ recipient.toList := by
  obtain ⟨start, started⟩ := accepted
  rw [startSeq] at started
  split at started
  · cases started
  · rename_i owner seq decoded
    split at started
    · cases started
    · rename_i same
      rw [← Decidable.not_not.mp same]
      exact decodeCursor_plain decoded

theorem accepted_iff (recipient : String) {arrivalSeq : Nat} (bound : arrivalSeq < 2 ^ 64) :
    Accepted recipient (encodeCursor recipient arrivalSeq) ↔ ':' ∉ recipient.toList := by
  constructor
  · exact Accepted.plain
  · exact fun plain => ⟨_, startSeq_encodeCursor plain bound⟩

end Codec

namespace RecipientState

/-- What is queued for a recipient is its own, and numbered in range, also when numbers have run out. -/
structure Owned (recipient : String) (entry : RecipientState) : Prop where
  seq : entry.seq < 2 ^ 64
  queue : ∀ (seq : Nat) (msg : QueueMessage), entry.queue[seq]? = some msg →
    msg.recipient = recipient ∧ msg.arrivalSeq < 2 ^ 64

theorem Owned.empty (recipient : String) : Owned recipient {} := by
  constructor <;> simp

theorem Owned.thinned {recipient : String} {entry after : RecipientState} (owned : Owned recipient entry)
    (thinned : Thinned entry after) : Owned recipient after :=
  ⟨thinned.seq ▸ owned.seq, fun seq msg found => owned.queue seq msg (thinned.part seq msg found)⟩

theorem Owned.accept {msg : InboundMessage} {entry : RecipientState} (owned : Owned msg.recipient entry) :
    Owned msg.recipient (entry.accept msg) := by
  constructor
  · exact Nat.lt_of_le_of_lt (saturatingAdd_le _ _) (by decide)
  · intro seq found queued
    rcases accept_getElem? queued with ⟨_, rfl⟩ | earlier
    · exact ⟨rfl, owned.seq⟩
    · exact owned.queue seq found earlier

section Pull

variable [Base64]

theorem Owned.pull_cursor {recipient : String} {entry : RecipientState} (owned : Owned recipient entry)
    {cursor : Option String} {limit nowMs : Nat} {batch : PullBatch}
    (answered : (entry.pull recipient cursor limit nowMs).1 = .ok batch) {next : String}
    (given : batch.nextCursor = some next) : ∃ arrivalSeq < 2 ^ 64, next = encodeCursor recipient arrivalSeq := by
  unfold RecipientState.pull at answered
  split at answered
  · cases answered
  · rename_i start _
    cases answered
    dsimp only at given
    split at given
    · obtain ⟨last, ends, told⟩ := Option.map_eq_some_iff.mp given
      obtain ⟨collected, _, _⟩ := scan_spec (min limit u32Max) nowMs (entry.entriesAfter start) {} (by simp) rfl
      have listed := List.mem_of_getLast? ends
      rw [collected, List.nil_append] at listed
      obtain ⟨pending, member, same⟩ := List.mem_map.mp (List.mem_of_mem_filter (List.mem_of_mem_take listed))
      obtain ⟨owner, bound⟩ := owned.queue _ _ (entriesAfter_mem member)
      rw [same] at owner bound
      rw [owner] at told
      exact ⟨last.arrivalSeq, bound, told.symm⟩
    · cases given

end Pull

end RecipientState

namespace MemStore

def Owned (state : MemStore) : Prop := ∀ recipient, (state.entryOf recipient).Owned recipient

theorem new_owned : Owned new := by
  intro recipient
  rw [entryOf_new]
  exact .empty recipient

variable [Base64] (limits : RelayLimits)

theorem step_owned {state : MemStore} (owned : state.Owned) (input : Call × HashOrder) :
    (next limits state input).2.Owned := by
  intro recipient
  rcases step_accepts limits state input recipient with ⟨msg, _, rfl, accepted⟩ | thinned
  · rw [accepted]
    exact (owned msg.recipient).accept
  · exact (owned recipient).thinned thinned

theorem run_owned (calls : List (Call × HashOrder)) : (final (next limits) new calls).Owned :=
  invariant_run (P := Owned) (next limits) (fun _ input owned => step_owned limits owned input) calls new_owned

theorem Owned.pull_cursor {state : MemStore} (owned : state.Owned) {recipient : String} {cursor : Option String}
    {limit nowMs : Nat} {batch : PullBatch} (answered : (pull recipient cursor limit nowMs state).1 = .ok batch)
    {next : String} (given : batch.nextCursor = some next) :
    ∃ arrivalSeq < 2 ^ 64, next = encodeCursor recipient arrivalSeq := by
  unfold pull at answered
  split at answered
  · cases answered
    cases given
  · rename_i entry known
    have here : entry.Owned recipient := entryOf_of_some known ▸ owned recipient
    exact here.pull_cursor answered given

end MemStore

namespace SledStore

theorem pullScan_items {startSeq : Option Nat} {limit nowMs : Nat} {entries : List (Bytes × QueueMessage)}
    {items result : List QueueMessage} {more : Bool}
    (scanned : pullScan startSeq limit nowMs entries items = .ok (result, more)) :
    ∀ msg ∈ result, msg ∈ items ∨ ∃ key, (key, msg) ∈ entries := by
  induction entries generalizing items with
  | nil =>
    cases scanned
    exact fun msg member => .inl member
  | cons entry rest ih =>
    obtain ⟨key, found⟩ := entry
    have onward : ∀ {items : List QueueMessage}, (∀ msg ∈ result, msg ∈ items ∨ ∃ key, (key, msg) ∈ rest) →
        ∀ msg ∈ result, msg ∈ items ∨ ∃ other, (other, msg) ∈ (key, found) :: rest := by
      intro items met msg member
      rcases met msg member with earlier | ⟨other, later⟩
      · exact .inl earlier
      · exact .inr ⟨other, List.mem_cons_of_mem _ later⟩
    rw [pullScan] at scanned
    split at scanned
    · cases scanned
    · exact onward (ih scanned)
    · split at scanned
      · exact onward (ih scanned)
      · split at scanned
        · exact onward (ih scanned)
        · split at scanned
          · intro msg member
            rcases ih scanned msg member with earlier | ⟨other, later⟩
            · rcases List.mem_append.mp earlier with before | this
              · exact .inl before
              · cases List.mem_singleton.mp this
                exact .inr ⟨key, List.mem_cons_self⟩
            · exact .inr ⟨other, List.mem_cons_of_mem _ later⟩
          · cases scanned
            exact fun msg member => .inl member

theorem pull_cursor [Base64] [UuidText] {store : SledStore} (keyed : Keyed store.messages) {recipient : String}
    {cursor : Option String} {limit nowMs : Nat} {batch : PullBatch}
    (answered : (pull recipient cursor limit nowMs store).1 = .ok batch) {next : String}
    (given : batch.nextCursor = some next) : ∃ arrivalSeq < 2 ^ 64, next = encodeCursor recipient arrivalSeq := by
  unfold pull at answered
  split at answered
  · cases answered
  · split at answered
    · cases answered
    · rename_i items more scanned
      cases answered
      dsimp only at given
      split at given
      · obtain ⟨last, ends, told⟩ := Option.map_eq_some_iff.mp given
        rcases pullScan_items scanned last (List.mem_of_getLast? ends) with none | ⟨key, met⟩
        · cases none
        · have here := OrderedMap.mem_toList.mp (List.mem_of_mem_filter met)
          exact ⟨last.arrivalSeq, (keyed key last here).2, told.symm⟩
      · cases given

end SledStore

section RoundTrip

variable [Base64] [UuidText] (limits : RelayLimits)

/-- A cursor decodes to what it encodes, and the cursor that a pull returns is accepted by the next pull of the
    recipient, exactly for the recipients without a separator. -/
theorem cursor_round_trip (recipient : String) :
    (∀ arrivalSeq, arrivalSeq < 2 ^ 64 →
      (decodeCursor (encodeCursor recipient arrivalSeq) = .ok (recipient, arrivalSeq) ↔ ':' ∉ recipient.toList)) ∧
    (∀ calls cursor limit nowMs batch next,
      (MemStore.pull recipient cursor limit nowMs (final (MemStore.next limits) .new calls)).1 = .ok batch →
        batch.nextCursor = some next → (Accepted recipient next ↔ ':' ∉ recipient.toList)) ∧
    ∀ calls cursor limit nowMs batch next,
      (SledStore.pull recipient cursor limit nowMs (final (SledStore.next limits) .new calls)).1 = .ok batch →
        batch.nextCursor = some next → (Accepted recipient next ↔ ':' ∉ recipient.toList) := by
  refine ⟨?_, ?_, ?_⟩
  · intro arrivalSeq bound
    exact ⟨decodeCursor_plain, fun plain => decodeCursor_encodeCursor recipient arrivalSeq plain bound⟩
  · intro calls cursor limit nowMs batch next answered given
    obtain ⟨arrivalSeq, bound, rfl⟩ := (MemStore.run_owned limits calls).pull_cursor answered given
    exact accepted_iff recipient bound
  · intro calls cursor limit nowMs batch next answered given
    obtain ⟨arrivalSeq, bound, rfl⟩ := SledStore.pull_cursor (SledStore.run_consistent limits calls).keyed answered given
    exact accepted_iff recipient bound

end RoundTrip

def separated : List (Call × HashOrder) :=
  [(.push (sample "a:b" 1 0 60 3), .asListed), (.push (sample "a:b" 2 1 61 4), .asListed)]

theorem cursor_round_trip_sample : decodeCursor (encodeCursor "alice" 7) = .ok ("alice", 7) ↔ ':' ∉ "alice".toList :=
  (cursor_round_trip sampleLimits "alice").1 7 (by decide)

theorem cursor_rejected :
    decodeCursor (encodeCursor "a:b" 0) = .error invalidCursor ∧
      ∃ batch after,
        MemStore.pull "a:b" none 1 2 (final (MemStore.next sampleLimits) .new separated) = (.ok batch, after) ∧
        ∃ next, batch.nextCursor = some next ∧ (MemStore.pull "a:b" (some next) 1 2 after).1 = .error invalidCursor := by
  refine ⟨by decide +kernel, _, _, rfl, encodeCursor "a:b" 0, by decide +kernel, by decide +kernel⟩

end EnigmaRelay
