import EnigmaRelay.Backends.Retry
import EnigmaRelay.Sled.PurgeExact

open Std Machine Shedding

namespace EnigmaRelay

/-- What a reader sees of a pull: its page and where it goes on, or the error. -/
def seen (result : Result PullBatch) : Result (List QueueMessage × Option String) :=
  result.map (fun batch => (batch.items, batch.nextCursor))

/-- The calls that discard what has expired: a purge, and a pull on its way through a queue. -/
def Call.collects (nowMs : Nat) : Call → Prop
  | .pull _ _ _ now => now = nowMs
  | .purgeExpired now _ => now = nowMs
  | _ => False

def Stale (nowMs : Nat) (msg : QueueMessage) : Prop := msg.deadlineMs ≤ nowMs

theorem live_not_stale {nowMs : Nat} {msg : QueueMessage} (alive : live nowMs msg = true) : ¬ Stale nowMs msg :=
  Nat.not_le.mpr (of_decide_eq_true alive)

namespace RecipientState

variable {before after : RecipientState} {nowMs : Nat}

theorem Sheds.entriesAfter (sheds : Sheds (Stale nowMs) before.queue after.queue) (start : Option Nat) :
    ((after.entriesAfter start).map Prod.snd).filter (live nowMs) =
      ((before.entriesAfter start).map Prod.snd).filter (live nowMs) := by
  rw [List.filter_map, List.filter_map]
  congr 1
  cases start with
  | none => exact sheds.toList_filter (fun _ alive => live_not_stale alive)
  | some seq =>
    rw [RecipientState.entriesAfter, RecipientState.entriesAfter, List.filter_filter, List.filter_filter]
    apply sheds.toList_filter
    intro pending both
    exact live_not_stale (Bool.and_eq_true_iff.mp both).1

theorem dropAll_sheds {entry : RecipientState} {seqs : List Nat}
    (stale : ∀ seq ∈ seqs, ∀ msg, entry.queue[seq]? = some msg → Stale nowMs msg) :
    Sheds (Stale nowMs) entry.queue (entry.dropAll seqs).queue := by
  constructor
  · intro seq msg found
    rw [dropAll_getElem?] at found
    split at found
    · cases found
    · exact found
  · intro seq msg found alive
    rw [dropAll_getElem?, if_neg (fun gone => alive (stale seq gone msg found)), found]

variable [Base64]

theorem Sheds.pull (sheds : Sheds (Stale nowMs) before.queue after.queue) (recipient : String) (cursor : Option String)
    (limit : Nat) :
    seen (after.pull recipient cursor limit nowMs).1 = seen (before.pull recipient cursor limit nowMs).1 := by
  unfold RecipientState.pull
  cases startSeq recipient cursor with
  | error err => rfl
  | ok start =>
    have same := Sheds.entriesAfter sheds start
    obtain ⟨page, more, _⟩ := scan_spec (min limit u32Max) nowMs (before.entriesAfter start) {} (by simp) rfl
    obtain ⟨otherPage, otherMore, _⟩ := scan_spec (min limit u32Max) nowMs (after.entriesAfter start) {} (by simp) rfl
    have collected : (scan (min limit u32Max) nowMs (after.entriesAfter start) {}).collected =
        (scan (min limit u32Max) nowMs (before.entriesAfter start) {}).collected := by
      rw [page, otherPage, same]
    have goesOn : (scan (min limit u32Max) nowMs (after.entriesAfter start) {}).more =
        (scan (min limit u32Max) nowMs (before.entriesAfter start) {}).more := by
      rw [Bool.eq_iff_iff, more, otherMore, same]
    simp only [seen, Except.map, collected, goesOn]

theorem pull_sheds (entry : RecipientState) (recipient : String) (cursor : Option String) (limit nowMs : Nat) :
    Sheds (Stale nowMs) entry.queue (entry.pull recipient cursor limit nowMs).2.queue := by
  unfold RecipientState.pull
  cases startSeq recipient cursor with
  | error err => exact .refl _
  | ok start =>
    apply dropAll_sheds
    intro seq member msg found
    obtain ⟨_, _, expired⟩ := scan_spec (min limit u32Max) nowMs (entry.entriesAfter start) {} (by simp) rfl
    rcases expired seq member with none | ⟨source, present, late⟩
    · cases none
    · have bound := entriesAfter_mem present
      rw [found] at bound
      cases Option.some.inj bound
      exact late

end RecipientState

namespace MemStore

/-- The same recipients are known, and their queues have lost expired messages at most. -/
structure Swept (nowMs : Nat) (before after : MemStore) : Prop where
  known : ∀ recipient : String, after[recipient]? = none ↔ before[recipient]? = none
  queue : ∀ recipient, Sheds (Stale nowMs) (before.entryOf recipient).queue (after.entryOf recipient).queue

theorem insert_known {state : MemStore} {recipient : String} {entry : RecipientState}
    (present : state[recipient]? = some entry) (replaced : RecipientState) (other : String) :
    (state.insert recipient replaced)[other]? = none ↔ state[other]? = none := by
  rw [OrderedMap.getElem?_insert]
  split
  · rename_i same
    rw [← same, present]
    simp
  · rfl

theorem purgeRecipients_known (nowMs target : Nat) (recipients : List String) (state : MemStore) (removed : Nat)
    (other : String) :
    (purgeRecipients nowMs target recipients (state, removed)).1[other]? = none ↔ state[other]? = none := by
  induction recipients generalizing state removed with
  | nil => rfl
  | cons recip rest ih =>
    rw [purgeRecipients]
    split
    · rfl
    · split
      · exact ih state removed
      · rename_i entry present
        exact (ih _ _).trans (insert_known present _ other)

theorem purge_sheds (order : HashOrder) (nowMs max : Nat) (state : MemStore) :
    Swept nowMs state (purgeExpired order nowMs max state).2 := by
  constructor
  · exact purgeRecipients_known nowMs _ state.keys state 0
  · intro recipient
    obtain ⟨dropped, left, allowed⟩ :=
      purgeRecipients_reduces nowMs max (min max gcBatchLimit) state.keys state 0 recipient
    change Sheds _ _ (entryOf (purgeRecipients nowMs _ state.keys (state, 0)).1 recipient).queue
    rw [left]
    exact RecipientState.dropAll_sheds allowed

variable [Base64]

theorem pull_sheds (recipient : String) (cursor : Option String) (limit nowMs : Nat) (state : MemStore) :
    Swept nowMs state (pull recipient cursor limit nowMs state).2 := by
  unfold pull
  split
  · exact ⟨fun _ => .rfl, fun _ => .refl _⟩
  · rename_i entry present
    constructor
    · exact insert_known present _
    · intro other
      dsimp only
      rw [entryOf_insert]
      split
      · rename_i same
        rw [← same, entryOf_of_some present]
        exact entry.pull_sheds recipient cursor limit nowMs
      · exact .refl _

theorem Swept.pull {earlier nowMs : Nat} {before after : MemStore} (swept : Swept earlier before after)
    (later : earlier ≤ nowMs) (recipient : String) (cursor : Option String) (limit : Nat) :
    seen (pull recipient cursor limit nowMs after).1 = seen (pull recipient cursor limit nowMs before).1 := by
  have known := swept.known recipient
  have queue := (swept.queue recipient).mono (fun _ stale => Nat.le_trans stale later)
  cases present : before[recipient]? with
  | none => simp only [MemStore.pull, present, known.mpr present]
  | some entry =>
    cases left : after[recipient]? with
    | none => cases (known.mp left).symm.trans present
    | some other =>
      rw [entryOf_of_some present, entryOf_of_some left] at queue
      simp only [MemStore.pull, present, left]
      exact RecipientState.Sheds.pull queue recipient cursor limit

end MemStore

namespace SledStore

theorem purge_sheds [UuidText] (order : HashOrder) (nowMs max : Nat) (store : SledStore) :
    Sheds (Stale nowMs) store.messages (purgeExpired order nowMs max store).2.messages := by
  obtain ⟨_, left⟩ := purgeScan_takes nowMs (min max gcBatchLimit) store.messages.toList { store := store }
  have looked := OrderedMap.getElem?_of_toList_filter left
  constructor
  · intro key msg found
    exact (Option.filter_eq_some_iff.mp ((looked key).symm.trans found)).1
  · intro key msg found alive
    refine (looked key).trans (Option.filter_eq_some_iff.mpr ⟨found, ?_⟩)
    rw [decide_eq_true_eq]
    intro gone
    obtain ⟨entry, taken, same⟩ := List.mem_map.mp gone
    obtain ⟨member, late⟩ := List.mem_filter.mp (List.mem_of_mem_take taken)
    have bound := OrderedMap.mem_toList.mp member
    rw [same, found] at bound
    cases Option.some.inj bound
    exact alive (show entry.2.deadlineMs ≤ nowMs from of_decide_eq_true late)

theorem waiting_sheds {earlier nowMs : Nat} {before after : SledStore}
    (sheds : Sheds (Stale earlier) before.messages after.messages) (later : earlier ≤ nowMs) (recipient : String)
    (start : Option Nat) : waiting recipient start nowMs after = waiting recipient start nowMs before := by
  have wider := sheds.mono (fun _ stale => Nat.le_trans stale later : ∀ msg, Stale earlier msg → Stale nowMs msg)
  rw [waiting, waiting, stored, stored, List.filter_filter, List.filter_filter, List.filter_map, List.filter_map]
  congr 1
  apply wider.toList_filter
  intro entry kept
  simp only [Function.comp_apply, Bool.and_eq_true] at kept
  exact live_not_stale kept.1.1

variable [Base64] [UuidText]

theorem step_sheds (limits : RelayLimits) {earlier : Nat} {call : Call} (collects : call.collects earlier)
    (order : HashOrder) (store : SledStore) :
    Sheds (Stale earlier) store.messages (next limits store (call, order)).2.messages := by
  cases call with
  | push msg => cases collects
  | ack recipient items => cases collects
  | pull recipient cursor limit nowMs =>
    have same : (next limits store (.pull recipient cursor limit nowMs, order)).2 = store :=
      pull_unchanged recipient cursor limit nowMs store
    rw [same]
    exact .refl _
  | purgeExpired nowMs max =>
    cases collects
    exact purge_sheds order earlier max store

theorem pull_sheds {earlier nowMs : Nat} {before after : SledStore}
    (sheds : Sheds (Stale earlier) before.messages after.messages) (later : earlier ≤ nowMs)
    (keyed : Keyed before.messages) (plain : Plain before.messages) {recipient : String} (own : ':' ∉ recipient.toList)
    (cursor : Option String) (limit : Nat) :
    seen (pull recipient cursor limit nowMs after).1 = seen (pull recipient cursor limit nowMs before).1 := by
  have afterKeyed : Keyed after.messages := fun key msg found => keyed key msg (sheds.part key msg found)
  have afterPlain : Plain after.messages := fun key msg found => plain key msg (sheds.part key msg found)
  cases started : startSeq recipient cursor with
  | error err => simp only [pull, started]
  | ok start =>
    rw [pull_plain keyed plain own started, pull_plain afterKeyed afterPlain own started,
      waiting_sheds sheds later recipient start]
    rfl

end SledStore

section Runs

variable [Base64]

theorem MemStore.step_swept (limits : RelayLimits) {earlier : Nat} {call : Call} (collects : call.collects earlier)
    (order : HashOrder) (state : MemStore) :
    MemStore.Swept earlier state (MemStore.next limits state (call, order)).2 := by
  cases call with
  | push msg => cases collects
  | ack recipient items => cases collects
  | pull recipient cursor limit nowMs =>
    cases collects
    exact MemStore.pull_sheds recipient cursor limit earlier state
  | purgeExpired nowMs max =>
    cases collects
    exact MemStore.purge_sheds order earlier max state

/-- After any calls, on either backend: a reader cannot tell whether what had expired was collected just before. -/
theorem collection_invisible [UuidText] (limits : RelayLimits) (calls : List (Call × HashOrder)) {earlier nowMs : Nat}
    (later : earlier ≤ nowMs) {call : Call} (collects : call.collects earlier) (order : HashOrder) (recipient : String)
    (cursor : Option String) (limit : Nat) :
    let mem := final (MemStore.next limits) MemStore.new calls
    let sled := final (SledStore.next limits) SledStore.new calls
    seen (MemStore.pull recipient cursor limit nowMs (MemStore.next limits mem (call, order)).2).1 =
        seen (MemStore.pull recipient cursor limit nowMs mem).1 ∧
      (PlainPushes calls → ':' ∉ recipient.toList →
        seen (SledStore.pull recipient cursor limit nowMs (SledStore.next limits sled (call, order)).2).1 =
          seen (SledStore.pull recipient cursor limit nowMs sled).1) := by
  intro mem sled
  constructor
  · exact (MemStore.step_swept limits collects order mem).pull later recipient cursor limit
  · intro plain own
    exact SledStore.pull_sheds (SledStore.step_sheds limits collects order sled) later
      (SledStore.run_consistent limits calls).keyed (SledStore.run_plain limits plain) own cursor limit

end Runs

def sampleArrivals : List (Call × HashOrder) :=
  [(.push (sample "alice" 1 0 5 1), .asListed), (.push (sample "alice" 2 0 9 1), .asListed)]

theorem collection_invisible_sample :
    let sled := final (SledStore.next sampleLimits) SledStore.new sampleArrivals
    seen (SledStore.pull "alice" none 1 7 (SledStore.next sampleLimits sled (.purgeExpired 6 10, .asListed)).2).1 =
      seen (SledStore.pull "alice" none 1 7 sled).1 := by
  have later : 6 ≤ 7 := by decide
  have collects : (Call.purgeExpired 6 10).collects 6 := rfl
  apply (collection_invisible sampleLimits sampleArrivals later collects .asListed "alice" none 1).2
  · intro input member msg pushed
    fin_cases member <;> cases pushed <;> decide
  · decide

end EnigmaRelay
