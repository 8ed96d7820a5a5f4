import EnigmaRelay.Memory.Run
import EnigmaRelay.Model.Standard

open Std Machine

namespace EnigmaRelay.MemStore

/-- How many sequence numbers a recipient has spent. -/
def spent (state : MemStore) (recipient : String) : Nat := (state.entryOf recipient).seq

@[simp] theorem spent_new (recipient : String) : spent new recipient = 0 := by
  rw [spent, entryOf_new]

theorem Reduces.seq {call : Call} {recipient : String} {before after : RecipientState}
    (reduced : Reduces call recipient before after) : after.seq = before.seq := by
  obtain ⟨dropped, rfl, _⟩ := reduced
  exact RecipientState.dropAll_seq before dropped

theorem Exact.reduces {limits : RelayLimits} {state : MemStore} (exact : state.Exact limits) {recipient : String}
    {call : Call} {after : RecipientState} (reduced : Reduces call recipient (state.entryOf recipient) after) :
    after.Charged := by
  obtain ⟨dropped, rfl, _⟩ := reduced
  exact (exact.charged recipient).dropAll dropped

/-- The sequence number that the index gives, after a push, to the message that push stored. -/
def assigned (recipient : String) (event : Event MemStore) : Option Nat :=
  match event.input.1 with
  | .push msg => if Event.storedFor recipient event then (entryOf event.after recipient).idx[msg.ackItem]? else none
  | _ => none

theorem assigned_of_miss {recipient : String} {event : Event MemStore}
    (miss : Event.storedFor recipient event = false) : assigned recipient event = none := by
  unfold assigned
  split <;> simp [miss]

section Subtractions

open RecipientState (dropAll ackItem scan toDrop)

/-- The charge of a leaving message is covered by both counters. -/
def Covers (entry : RecipientState) (removed : QueueMessage) : Prop :=
  1 ≤ entry.quotaCount ∧ removed.payloadBytes ≤ entry.quotaBytes

/-- Dropping `seqs` one by one, no subtraction saturates. -/
def DropsExactly (entry : RecipientState) (seqs : List Nat) : Prop :=
  ∀ past seq later, seqs = past ++ seq :: later → ∀ removed, (entry.dropAll past).queue[seq]? = some removed →
    Covers (entry.dropAll past) removed

theorem drops_exactly {entry : RecipientState} (charged : entry.Charged) (seqs : List Nat) :
    DropsExactly entry seqs :=
  fun past _ _ _ _ found => (charged.dropAll past).covers found

variable [Base64]

/-- At every saturating subtraction that the call executes, the difference is exact. -/
def SubtractsExactly (state : MemStore) : Call × HashOrder → Prop
  | (.push _, _) => True
  | (.pull recipient cursor limit nowMs, _) =>
    ∀ entry start, state[recipient]? = some entry → startSeq recipient cursor = .ok start →
      let found := scan (min limit u32Max) nowMs (entry.entriesAfter start) {}
      DropsExactly entry found.expired ∧ found.collected.length ≤ (entry.dropAll found.expired).quotaCount
  | (.ack recipient items, order) =>
    ∀ entry, state[recipient]? = some entry →
      ∀ past key later, order.items.arrange items.toList.dedup = past ++ key :: later →
        let current := (past.foldl ackItem (entry, {})).1
        ∀ (seq : Nat) (removed : QueueMessage), current.idx[key]? = some seq →
          current.queue[seq]? = some removed → Covers current removed
  | (.purgeExpired nowMs max, _) =>
    let target := min max gcBatchLimit
    ∀ past recip later, state.keys = past ++ recip :: later →
      let current := purgeRecipients nowMs target past (state, 0)
      ∀ entry, current.1[recip]? = some entry →
        DropsExactly entry (toDrop nowMs current.2 target entry.queue.toList [])

theorem Exact.subtractsExactly {limits : RelayLimits} {state : MemStore} (exact : state.Exact limits)
    (input : Call × HashOrder) : SubtractsExactly state input := by
  obtain ⟨call, order⟩ := input
  cases call with
  | push msg => exact True.intro
  | pull recipient cursor limit nowMs =>
    intro entry start known _
    have same := entryOf_of_some known
    have coherent : entry.Coherent recipient := same ▸ exact.coherent recipient
    have charged : entry.Charged := same ▸ exact.charged recipient
    obtain ⟨collected, _, expired⟩ := coherent.filed.scan start (min limit u32Max) nowMs
    have kept := coherent.filed.pending_dropAll (fun seq member msg found => by
      obtain ⟨source, bound, late⟩ := expired seq member
      rw [found] at bound
      cases Option.some.inj bound
      exact late) start
    refine ⟨drops_exactly charged _, ?_⟩
    rw [collected, (charged.dropAll _).count, List.length_take, ← kept]
    exact Nat.le_trans (Nat.min_le_right _ _) (List.length_filter_le _ _)
  | ack recipient items =>
    intro entry known past key later _ current seq removed _ found
    have same := entryOf_of_some known
    have coherent : entry.Coherent recipient := same ▸ exact.coherent recipient
    have charged : entry.Charged := same ▸ exact.charged recipient
    obtain ⟨dropped, result, _⟩ := coherent.ackAll {} past
    have counted : current.Charged := by
      change (past.foldl ackItem (entry, {})).1.Charged
      rw [result]
      exact charged.dropAll dropped
    exact counted.covers found
  | purgeExpired nowMs max =>
    intro past recip later _ current entry known
    apply drops_exactly
    rw [← entryOf_of_some known]
    exact exact.reduces (purgeRecipients_reduces nowMs max _ past state 0 recip)

end Subtractions

section Run

variable [Base64] (limits : RelayLimits)

theorem step_coherent {state : MemStore} (coherent : state.Coherent) (input : Call × HashOrder)
    (room : ∀ recipient, Event.storedFor recipient (event limits state input) = true →
      state.spent recipient < u64Max) :
    (next limits state input).2.Coherent ∧ ∀ recipient, (next limits state input).2.spent recipient =
      state.spent recipient + if Event.storedFor recipient (event limits state input) then 1 else 0 := by
  refine ⟨fun recipient => ?_, fun recipient => ?_⟩
  · rcases step_effect limits coherent input recipient with ⟨msg, stores, hit⟩ | ⟨⟨dropped, result, _⟩, _⟩
    · rw [stores.entry]
      exact (coherent recipient).accept (room recipient hit) stores.addressed stores.absent
    · rw [result]
      exact (coherent recipient).dropAll dropped
  · rcases step_effect limits coherent input recipient with ⟨msg, stores, hit⟩ | ⟨reduced, miss⟩
    · rw [if_pos hit, spent, stores.entry]
      exact saturatingAdd_of_le (room recipient hit)
    · rw [if_neg (by simp [miss]), spent, reduced.seq]
      rfl

theorem step_exact (bytesCap : limits.maxQueueBytesPerUser < u64Max) {state : MemStore}
    (exact : state.Exact limits) (input : Call × HashOrder)
    (room : ∀ recipient, Event.storedFor recipient (event limits state input) = true →
      state.spent recipient < u64Max) :
    (next limits state input).2.Exact limits ∧ ∀ recipient, (next limits state input).2.spent recipient =
      state.spent recipient + if Event.storedFor recipient (event limits state input) then 1 else 0 := by
  obtain ⟨coherent, raised⟩ := step_coherent limits exact.coherent input room
  have charges : ∀ recipient, ((next limits state input).2.entryOf recipient).Charged ∧
      ((next limits state input).2.entryOf recipient).Within limits := by
    intro recipient
    rcases step_effect limits exact.coherent input recipient with ⟨msg, stores, hit⟩ | ⟨⟨dropped, result, _⟩, _⟩
    · rw [stores.entry]
      have length := (exact.coherent recipient).length_le
      have below : (state.entryOf recipient).seq < u64Max := room recipient hit
      exact (exact.charged recipient).accept (exact.coherent recipient) stores.room bytesCap (by omega)
    · rw [result]
      exact ⟨(exact.charged recipient).dropAll dropped, (exact.within recipient).dropAll dropped⟩
  exact ⟨⟨coherent, fun r => (charges r).1, fun r => (charges r).2⟩, raised⟩

/-- The sequence numbers left at `state` are enough for the pushes that `calls` will store. -/
def Fits (state : MemStore) (calls : List (Call × HashOrder)) : Prop :=
  ∀ recipient, state.spent recipient + (trace (next limits) state calls).countP (Event.storedFor recipient) ≤ u64Max

theorem Fits.step {limits : RelayLimits} {state : MemStore} {input : Call × HashOrder} {rest : List (Call × HashOrder)}
    (fits : Fits limits state (input :: rest)) (coherent : state.Coherent) :
    (next limits state input).2.Coherent ∧
      (∀ recipient, (next limits state input).2.spent recipient =
        state.spent recipient + if Event.storedFor recipient (event limits state input) then 1 else 0) ∧
      Fits limits (next limits state input).2 rest := by
  have room : ∀ r, Event.storedFor r (event limits state input) = true → state.spent r < u64Max := by
    intro r hit
    have bound := fits r
    rw [trace, List.countP_cons_of_pos hit] at bound
    omega
  obtain ⟨after, raised⟩ := step_coherent limits coherent input room
  refine ⟨after, raised, fun r => ?_⟩
  have bound := fits r
  rw [trace, List.countP_cons] at bound
  change _ + (_ + if Event.storedFor r (event limits state input) = true then 1 else 0) ≤ _ at bound
  rw [raised r]
  omega

theorem Fits.spent_le {limits : RelayLimits} {state : MemStore} {calls : List (Call × HashOrder)}
    (fits : Fits limits state calls) (recipient : String) : state.spent recipient ≤ u64Max :=
  Nat.le_trans (Nat.le_add_right _ _) (fits recipient)

theorem Fits.left {limits : RelayLimits} {state : MemStore} {calls later : List (Call × HashOrder)}
    (fits : Fits limits state (calls ++ later)) : Fits limits state calls := by
  intro recipient
  have bound := fits recipient
  rw [trace_append, List.countP_append] at bound
  omega

theorem Fits.split {limits : RelayLimits} {state : MemStore} {calls later : List (Call × HashOrder)}
    (fits : Fits limits state (calls ++ later)) (coherent : state.Coherent) :
    (final (next limits) state calls).Coherent ∧ Fits limits (final (next limits) state calls) later := by
  induction calls generalizing state with
  | nil => exact ⟨coherent, fits⟩
  | cons input rest ih =>
    obtain ⟨after, _, tail⟩ := fits.step coherent
    exact ih tail after

theorem Fits.spent_final {limits : RelayLimits} {state : MemStore} {calls : List (Call × HashOrder)}
    (fits : Fits limits state calls) (coherent : state.Coherent) (recipient : String) :
    (final (next limits) state calls).spent recipient =
      state.spent recipient + (trace (next limits) state calls).countP (Event.storedFor recipient) := by
  induction calls generalizing state with
  | nil => rfl
  | cons input rest ih =>
    obtain ⟨after, raised, later⟩ := fits.step coherent
    rw [final_cons, ih later after, raised, trace, List.countP_cons]
    change _ = _ + (_ + if Event.storedFor recipient (event limits state input) = true then 1 else 0)
    omega

/-- Fewer than `2^64` messages are ever stored for any one recipient. -/
def Few (calls : List (Call × HashOrder)) : Prop := HitsBelow (next limits) Event.storedFor (2 ^ 64) new calls

theorem Few.fits {limits : RelayLimits} {calls : List (Call × HashOrder)} (few : Few limits calls) :
    Fits limits new calls := by
  intro recipient
  have bound := few recipient
  rw [spent_new, u64Max]
  omega

theorem run_coherent {calls : List (Call × HashOrder)} (few : Few limits calls) :
    (final (next limits) new calls).Coherent ∧
      (∀ recipient, spent (final (next limits) new calls) recipient =
        (trace (next limits) new calls).countP (Event.storedFor recipient)) ∧
      ∀ event ∈ trace (next limits) new calls, Coherent event.before ∧ Coherent event.after ∧
        ∀ recipient, Event.storedFor recipient event = true → spent event.before recipient < u64Max := by
  obtain ⟨last, levels, events⟩ := budget_run (next limits)
    (fun state input coherent room => step_coherent limits coherent input room) new_coherent few.fits
  exact ⟨last, fun r => by rw [levels r, spent_new, Nat.zero_add], events⟩

theorem run_exact (bytesCap : limits.maxQueueBytesPerUser < u64Max) {calls : List (Call × HashOrder)}
    (few : Few limits calls) :
    (final (next limits) new calls).Exact limits ∧
      ∀ event ∈ trace (next limits) new calls, Exact limits event.before ∧ Exact limits event.after ∧
        ∀ recipient, Event.storedFor recipient event = true → spent event.before recipient < u64Max := by
  obtain ⟨last, _, events⟩ := budget_run (next limits)
    (fun state input exact room => step_exact limits bytesCap exact input room) (new_exact limits) few.fits
  exact ⟨last, events⟩

section Assigned

theorem Stores.assigned {limits : RelayLimits} {state : MemStore} {input : Call × HashOrder} {recipient : String}
    {msg : InboundMessage} (stores : Stores limits state input recipient msg)
    (hit : Event.storedFor recipient (event limits state input) = true) :
    MemStore.assigned recipient (event limits state input) = some (state.spent recipient) := by
  have called : (event limits state input).input.1 = .push msg := stores.call
  have entry : entryOf (event limits state input).after recipient = (state.entryOf recipient).accept msg := stores.entry
  simp only [MemStore.assigned, called, hit, if_true, entry]
  rw [RecipientState.accept, OrderedMap.getElem?_insert, if_pos rfl]
  rfl

theorem assigned_run {state : MemStore} (coherent : state.Coherent) {calls : List (Call × HashOrder)}
    (recipient : String) (fits : Fits limits state calls) :
    (trace (next limits) state calls).filterMap (assigned recipient) =
      List.range' (state.spent recipient) ((trace (next limits) state calls).countP (Event.storedFor recipient)) := by
  induction calls generalizing state with
  | nil => rfl
  | cons input rest ih =>
    obtain ⟨after, raised, later⟩ := fits.step coherent
    have tail := ih after later
    rw [trace]
    rcases step_effect limits coherent input recipient with ⟨msg, stores, hit⟩ | ⟨_, miss⟩
    · rw [List.filterMap_cons_some (stores.assigned hit), List.countP_cons_of_pos hit, tail, raised, if_pos hit,
        List.range'_succ]
    · rw [List.filterMap_cons_none (assigned_of_miss miss), List.countP_cons_of_neg (by simp [miss]), tail, raised,
        if_neg (by simp [miss]), Nat.add_zero]

end Assigned

/-- The queue length and size that a push reports are those of the recipient's queue. -/
def ReportsTotals (event : Event MemStore) : Prop :=
  ∀ msg result, event.input.1 = .push msg → event.output = .push (.ok result) →
    result.queueLen = (queued event.after msg.recipient).length ∧
      result.queueBytes = ((queued event.after msg.recipient).map QueueMessage.payloadBytes).sum

theorem reports_totals {state : MemStore} {input : Call × HashOrder}
    (exact : (next limits state input).2.Exact limits) : ReportsTotals (event limits state input) := by
  intro msg result called answered
  obtain ⟨call, order⟩ := input
  change call = .push msg at called
  subst called
  have charged := exact.charged msg.recipient
  have output : ((state.entryOf msg.recipient).push limits msg).1 = .ok result := Outcome.push.inj answered
  have entry : (next limits state (.push msg, order)).2.entryOf msg.recipient =
      ((state.entryOf msg.recipient).push limits msg).2 := by
    change entryOf (state.insert msg.recipient ((state.entryOf msg.recipient).push limits msg).2) msg.recipient = _
    rw [entryOf_insert, if_pos rfl]
  have counters : result.queueLen = ((next limits state (.push msg, order)).2.entryOf msg.recipient).quotaCount ∧
      result.queueBytes = ((next limits state (.push msg, order)).2.entryOf msg.recipient).quotaBytes := by
    rw [entry]
    rcases RecipientState.push_cases limits msg (state.entryOf msg.recipient) with
      ⟨_, _, pushed⟩ | ⟨_, _, pushed⟩ | ⟨_, _, pushed⟩
    all_goals
      rw [pushed] at output ⊢
      cases output
    · exact ⟨rfl, rfl⟩
    · exact ⟨rfl, rfl⟩
  exact ⟨counters.1.trans charged.count, counters.2.trans charged.bytes⟩

theorem stored_event {state : MemStore} (coherent : state.Coherent) (input : Call × HashOrder) (recipient : String)
    (hit : Event.storedFor recipient (event limits state input) = true) :
    ∃ msg seq, input.1 = .push msg ∧ assigned recipient (event limits state input) = some seq ∧
      ((next limits state input).2.entryOf recipient).queue[seq]? = some (msg.queued seq) := by
  rcases step_effect limits coherent input recipient with ⟨msg, stores, _⟩ | ⟨_, miss⟩
  · refine ⟨msg, state.spent recipient, stores.call, stores.assigned hit, ?_⟩
    rw [stores.entry, RecipientState.accept, OrderedMap.getElem?_insert]
    exact if_pos rfl
  · rw [hit] at miss
    cases miss

/-- The representation invariant over whole runs: every reached entry is coherent, exactly charged
    and within its limits, sequence numbers only grow, reported totals are true, and no quota
    subtraction ever saturates. -/
theorem representation_invariant (bytesCap : limits.maxQueueBytesPerUser < 2 ^ 64 - 1)
    {calls : List (Call × HashOrder)} (few : Few limits calls) :
    (∀ event ∈ trace (next limits) new calls, ∀ (recipient : String) (entry : RecipientState),
      event.after[recipient]? = some entry → entry.Coherent recipient ∧ entry.Charged ∧ entry.Within limits ∧
        ∀ a ∈ entry.messages, ∀ b ∈ entry.messages, a.ackItem = b.ackItem → a = b) ∧
    (∀ recipient, ((trace (next limits) new calls).filterMap (assigned recipient)).Pairwise (· < ·)) ∧
    (∀ event ∈ trace (next limits) new calls, ∀ recipient, Event.storedFor recipient event = true →
      ∃ msg seq, event.input.1 = .push msg ∧ assigned recipient event = some seq ∧
        (entryOf event.after recipient).queue[seq]? = some (msg.queued seq)) ∧
    (∀ event ∈ trace (next limits) new calls, ReportsTotals event) ∧
    ∀ event ∈ trace (next limits) new calls, SubtractsExactly event.before event.input := by
  obtain ⟨_, events⟩ := run_exact limits bytesCap few
  refine ⟨?_, ?_, ?_, ?_, ?_⟩
  · intro event member recipient entry known
    obtain ⟨_, exact, _⟩ := events event member
    have same := entryOf_of_some known
    have coherent : entry.Coherent recipient := same ▸ exact.coherent recipient
    exact ⟨coherent, same ▸ exact.charged recipient, same ▸ exact.within recipient,
      fun a first b second pair => coherent.distinct first second pair⟩
  · intro recipient
    rw [assigned_run limits new_coherent recipient few.fits]
    exact List.pairwise_lt_range'
  · intro event member recipient hit
    obtain ⟨before, _, _⟩ := events event member
    obtain ⟨_, _, _, shape⟩ := trace_member (next limits) member
    rw [shape] at hit ⊢
    rw [shape] at before
    exact stored_event limits before.coherent _ recipient hit
  · intro event member
    obtain ⟨_, after, _⟩ := events event member
    obtain ⟨_, _, _, shape⟩ := trace_member (next limits) member
    rw [shape] at after ⊢
    exact reports_totals limits after
  · intro event member
    exact (events event member).1.subtractsExactly event.input

end Run

def sampleCalls : List (Call × HashOrder) :=
  [(.push (sample "alice" 1 0 60 3), .asListed), (.push (sample "alice" 1 1 61 4), .asListed),
    (.ack "alice" sampleAck, .asListed), (.push (sample "alice" 1 2 62 5), .asListed)]

theorem representation_invariant_sample :
    ((trace (next sampleLimits) new sampleCalls).filterMap (assigned "alice")).Pairwise (· < ·) ∧
      ∀ event ∈ trace (next sampleLimits) new sampleCalls, ReportsTotals event := by
  have few : Few sampleLimits sampleCalls := HitsBelow.of_length (by decide)
  obtain ⟨_, increasing, _, totals, _⟩ := representation_invariant sampleLimits (by decide) few
  exact ⟨increasing "alice", totals⟩

end EnigmaRelay.MemStore
