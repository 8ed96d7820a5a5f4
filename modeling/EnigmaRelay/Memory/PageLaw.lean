import EnigmaRelay.Memory.Traversal

open Std Machine

namespace EnigmaRelay

namespace RecipientState

theorem scan_expired {limit nowMs : Nat} {entries : List (Nat × QueueMessage)} {found : Scan}
    (ended : (scan limit nowMs entries found).more = false) {seq : Nat}
    (due : seq ∈ found.expired ∨ ∃ msg : QueueMessage, (seq, msg) ∈ entries ∧ msg.deadlineMs ≤ nowMs) :
    seq ∈ (scan limit nowMs entries found).expired := by
  induction entries generalizing found with
  | nil =>
    rcases due with earlier | ⟨msg, member, _⟩
    · exact earlier
    · cases member
  | cons pending rest ih =>
    obtain ⟨other, msg⟩ := pending
    rw [scan] at ended ⊢
    split
    · rename_i stale
      rw [if_pos stale] at ended
      apply ih ended
      rcases due with earlier | ⟨source, member, late⟩
      · exact .inl (List.mem_append_left _ earlier)
      · cases member with
        | head => exact .inl (List.mem_append_right _ (List.mem_singleton_self _))
        | tail _ later => exact .inr ⟨source, later, late⟩
    · rename_i fresh
      rw [if_neg fresh] at ended
      have onward : seq ∈ found.expired ∨ ∃ msg : QueueMessage, (seq, msg) ∈ rest ∧ msg.deadlineMs ≤ nowMs := by
        rcases due with earlier | ⟨source, member, late⟩
        · exact .inl earlier
        · cases member with
          | head => exact absurd late fresh
          | tail _ later => exact .inr ⟨source, later, late⟩
      split
      · rename_i space
        rw [if_pos space] at ended
        exact ih ended onward
      · rename_i full
        rw [if_neg full] at ended
        cases ended

section Pull

variable [Base64] {recipient : String} {entry : RecipientState}

/-- A pull from the front that returns all there is leaves nothing expired behind. -/
theorem Coherent.pull_whole (coherent : entry.Coherent recipient) {limit nowMs : Nat}
    (whole : (entry.pending none nowMs).length ≤ min limit u32Max) :
    (entry.pull recipient none limit nowMs).2.messages = entry.pending none nowMs := by
  obtain ⟨_, more, expired⟩ := coherent.filed.scan none (min limit u32Max) nowMs
  have ended : (RecipientState.scan (min limit u32Max) nowMs (entry.entriesAfter none) {}).more = false := by
    rw [← Bool.not_eq_true, more]
    exact Nat.not_lt.mpr whole
  have left : (entry.pull recipient none limit nowMs).2 =
      entry.dropAll (RecipientState.scan (min limit u32Max) nowMs (entry.entriesAfter none) {}).expired := rfl
  rw [left, coherent.filed.dropAll_messages, pending]
  apply List.filter_congr
  intro msg member
  have here := coherent.filed.mem.mp member
  by_cases late : msg.deadlineMs ≤ nowMs
  · have taken : msg.arrivalSeq ∈ (RecipientState.scan (min limit u32Max) nowMs (entry.entriesAfter none) {}).expired :=
      RecipientState.scan_expired ended (.inr ⟨msg, OrderedMap.mem_toList.mpr here, late⟩)
    simp [taken, live, late]
  · have kept : msg.arrivalSeq ∉ (RecipientState.scan (min limit u32Max) nowMs (entry.entriesAfter none) {}).expired := by
      intro taken
      obtain ⟨source, bound, stale⟩ := expired _ taken
      rw [here] at bound
      cases Option.some.inj bound
      exact late stale
    simp [kept, live, Nat.not_le.mp late]

end Pull

end RecipientState

namespace MemStore

def page (state : MemStore) (recipient : String) (start : Option Nat) (limit nowMs : Nat) :
    List QueueMessage × List QueueMessage :=
  ((state.entryOf recipient).pending start nowMs).splitAt (min limit u32Max)

section Law

variable [Base64]

/-- A pull returns a page, says where the next one starts, and drops expired messages with all that belongs to them. -/
structure PullsPage (state : MemStore) (recipient : String) (cursor : Option String) (start : Option Nat)
    (limit nowMs : Nat) (batch : PullBatch) (after : MemStore) : Prop where
  items : batch.items = (state.page recipient start limit nowMs).1
  ordered : ((state.entryOf recipient).pending start nowMs).Pairwise (fun a b => a.arrivalSeq < b.arrivalSeq)
  more : batch.nextCursor.isSome = true ↔ (state.page recipient start limit nowMs).2 ≠ []
  continued : ∀ next, batch.nextCursor = some next →
    ∃ last, batch.items.getLast? = some last ∧ next = encodeCursor recipient last.arrivalSeq
  removed : ∃ dropped : List QueueMessage, (∀ msg ∈ dropped, msg.deadlineMs ≤ nowMs) ∧
    after.queued recipient = (state.queued recipient).filter (fun msg => msg ∉ dropped)
  coherent : (after.entryOf recipient).Coherent recipient
  charged : (after.entryOf recipient).Charged
  seq : (after.entryOf recipient).seq = (state.entryOf recipient).seq
  elsewhere : ∀ other, other ≠ recipient → after[other]? = state[other]?
  estimate : (state.page recipient start limit nowMs).2.length ≤ batch.remainingEstimate
  finished : cursor = none → (batch.nextCursor = none ↔ batch.remainingEstimate = 0)

theorem Exact.pulls_page {limits : RelayLimits} {state : MemStore} (exact : state.Exact limits) {recipient : String}
    (known : state.contains recipient = true) {cursor : Option String} {start : Option Nat}
    (decoded : startSeq recipient cursor = .ok start) {limit : Nat} (positive : 1 ≤ limit) (nowMs : Nat) :
    ∃ batch after, pull recipient cursor limit nowMs state = (.ok batch, after) ∧
      PullsPage state recipient cursor start limit nowMs batch after := by
  obtain ⟨entry, found⟩ := Option.isSome_iff_exists.mp (ExtTreeMap.isSome_getElem?_eq_contains.trans known)
  have same := entryOf_of_some found
  have coherent : entry.Coherent recipient := same ▸ exact.coherent recipient
  have charged : entry.Charged := same ▸ exact.charged recipient
  have size : 1 ≤ min limit u32Max := Nat.le_min.mpr ⟨positive, by decide⟩
  rcases coherent.filed.pull cursor limit nowMs with ⟨err, refused, _⟩ | ⟨first, batch, dropped, accepted, pulled, spec⟩
  · rw [decoded] at refused
    cases refused
  rw [decoded] at accepted
  cases accepted
  have kept := coherent.filed.pending_dropAll spec.expired
  have counted : (entry.dropAll dropped).quotaCount = (entry.dropAll dropped).messages.length :=
    (charged.dropAll dropped).count
  have answered :
      pull recipient cursor limit nowMs state = (.ok batch, state.insert recipient (entry.dropAll dropped)) := by
    simp only [pull, found, pulled]
  have own : entryOf (state.insert recipient (entry.dropAll dropped)) recipient = entry.dropAll dropped := by
    rw [entryOf_insert, if_pos rfl]
  have taken : batch.items.length = min (min limit u32Max) (entry.pending start nowMs).length := by
    rw [spec.items, List.length_take]
  have covered : (entry.pending start nowMs).length ≤ (entry.dropAll dropped).quotaCount := by
    rw [counted, ← kept start]
    exact List.length_filter_le _ _
  have goesOn : batch.nextCursor.isSome = true ↔ min limit u32Max < (entry.pending start nowMs).length := by
    rw [spec.cursor]
    split
    · rename_i full
      have filled : batch.items ≠ [] := by
        rw [← List.length_pos_iff]
        omega
      simp [List.getLast?_eq_some_getLast filled, full]
    · rename_i all
      simp [all]
  refine ⟨batch, _, answered, ?_⟩
  constructor
  · rw [page, same, List.splitAt_eq]
    exact spec.items
  · rw [same]
    exact coherent.filed.sorted.filter _
  · rw [goesOn, page, same, List.splitAt_eq, ne_eq, List.drop_eq_nil_iff, Nat.not_le]
  · intro next continues
    rw [spec.cursor] at continues
    split at continues
    · obtain ⟨last, ends, told⟩ := Option.map_eq_some_iff.mp continues
      have listed : last ∈ entry.pending start nowMs := by
        apply List.mem_of_mem_take (i := min limit u32Max)
        rw [← spec.items]
        exact List.mem_of_getLast? ends
      rw [coherent.owner _ _ (coherent.filed.mem.mp (mem_pending.mp listed).1)] at told
      exact ⟨last, ends, told.symm⟩
    · cases continues
  · refine ⟨entry.messages.filter (fun msg => msg.arrivalSeq ∈ dropped), ?_, ?_⟩
    · intro msg member
      obtain ⟨queued, listed⟩ := List.mem_filter.mp member
      exact spec.expired _ (of_decide_eq_true listed) msg (coherent.filed.mem.mp queued)
    · rw [queued, queued, own, same, coherent.filed.dropAll_messages]
      apply List.filter_congr
      intro msg member
      simp [member]
  · rw [own]
    exact coherent.dropAll dropped
  · rw [own]
    exact charged.dropAll dropped
  · rw [own, same]
    exact RecipientState.dropAll_seq entry dropped
  · intro other different
    rw [OrderedMap.getElem?_insert, if_neg (Ne.symm different)]
  · rw [page, same, List.splitAt_eq, List.length_drop, spec.estimate, taken]
    omega
  · rintro rfl
    cases decoded
    have ends : batch.nextCursor = none ↔ (entry.pending none nowMs).length ≤ min limit u32Max := by
      rw [← Option.not_isSome_iff_eq_none, goesOn]
      exact Nat.not_lt
    rw [ends, spec.estimate, taken]
    constructor
    · intro whole
      have left := coherent.pull_whole whole
      rw [pulled] at left
      rw [counted, left]
      omega
    · intro nothing
      omega

/-- The page law, in every state that calls to the store can lead to. -/
theorem pull_page_law {limits : RelayLimits} (bytesCap : limits.maxQueueBytesPerUser < 2 ^ 64 - 1)
    {calls : List (Call × HashOrder)} (few : Few limits calls) {recipient : String}
    (known : (final (next limits) new calls).contains recipient = true) {cursor : Option String} {start : Option Nat}
    (decoded : startSeq recipient cursor = .ok start) {limit : Nat} (positive : 1 ≤ limit) (nowMs : Nat) :
    ∃ batch after, pull recipient cursor limit nowMs (final (next limits) new calls) = (.ok batch, after) ∧
      PullsPage (final (next limits) new calls) recipient cursor start limit nowMs batch after :=
  (run_exact limits bytesCap few).1.pulls_page known decoded positive nowMs

end Law

def sampleBacklog : List (Call × HashOrder) :=
  [(.push (sample "alice" 1 0 5 3), .asListed), (.push (sample "alice" 2 1 61 4), .asListed),
    (.push (sample "alice" 3 2 62 5), .asListed)]

theorem pull_page_law_sample :
    ∃ batch after, pull "alice" none 1 10 (final (next sampleLimits) new sampleBacklog) = (.ok batch, after) ∧
      PullsPage (final (next sampleLimits) new sampleBacklog) "alice" none none 1 10 batch after :=
  pull_page_law (by decide) (HitsBelow.of_length (by decide)) (by decide +kernel) rfl (by decide) 10

end MemStore

end EnigmaRelay
