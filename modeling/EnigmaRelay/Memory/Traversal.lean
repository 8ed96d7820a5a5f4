import EnigmaRelay.Foundation.Paging
import EnigmaRelay.Memory.History
import EnigmaRelay.Model.Client

open Std Machine

namespace EnigmaRelay.MemStore

theorem mem_pending {entry : RecipientState} {start : Option Nat} {nowMs : Nat} {msg : QueueMessage} :
    msg ∈ entry.pending start nowMs ↔
      msg ∈ entry.messages ∧ nowMs < msg.deadlineMs ∧ start.all (· < msg.arrivalSeq) = true := by
  simp [RecipientState.pending, live]

def offered (recipient : String) (start : Option Nat) (leg : Leg) (page : Page MemStore) : List QueueMessage :=
  (page.pull.before.entryOf recipient).pending start leg.nowMs

theorem offered_sorted {recipient : String} {page : Page MemStore} (coherent : page.pull.before.Coherent)
    (start : Option Nat)
    (leg : Leg) : (offered recipient start leg page).Pairwise (fun a b => a.arrivalSeq < b.arrivalSeq) :=
  (coherent recipient).filed.sorted.filter _

section Traversal

variable [Base64] (limits : RelayLimits) (recipient : String)

theorem pull_accepted {state : MemStore} (filed : (state.entryOf recipient).Filed recipient)
    {cursor : Option String} {start : Option Nat} (decoded : startSeq recipient cursor = .ok start) (limit nowMs : Nat) :
    ∃ batch, (pull recipient cursor limit nowMs state).1 = .ok batch ∧
      batch.items = ((state.entryOf recipient).pending start nowMs).take (min limit u32Max) ∧
      batch.nextCursor = if min limit u32Max < ((state.entryOf recipient).pending start nowMs).length then
        batch.items.getLast?.map (fun item => encodeCursor item.recipient item.arrivalSeq) else none := by
  cases known : state[recipient]? with
  | none =>
    refine ⟨{ items := [], nextCursor := none, remainingEstimate := 0 }, by simp only [pull, known], ?_, ?_⟩
    · rw [pending_unknown known, List.take_nil]
    · rw [pending_unknown known]
      simp
  | some entry =>
    rw [entryOf_of_some known] at filed ⊢
    rcases filed.pull cursor limit nowMs with ⟨err, refused, _⟩ | ⟨first, batch, dropped, same, pulled, spec⟩
    · rw [decoded] at refused
      cases refused
    · rw [decoded] at same
      cases same
      exact ⟨batch, by simp only [pull, known, pulled], spec.items, spec.cursor⟩

/-- One leg of a traversal that continues after `start`. -/
structure Turn (start : Option Nat) (state : MemStore) (leg : Leg) (page : Page MemStore) : Prop where
  fits : Fits limits state page.inputs
  events : trace (next limits) state page.inputs = page.events
  before : page.pull.before = final (next limits) state (page.between.map Step.input)
  coherent : state.Coherent ∧ page.pull.before.Coherent
  after : page.pull.after = final (next limits) state page.inputs
  called : ∃ cursor, page.pull.input.1 = .pull recipient cursor leg.limit leg.nowMs
  answered : ∃ batch, page.pull.output = .pull (.ok batch)
  items : page.items = (offered recipient start leg page).take (min leg.limit u32Max)

/-- The course of a traversal: every page but the last leads to the next one. -/
inductive Course : Option Nat → MemStore → List Leg → List (Page MemStore) → Prop where
  | idle (start : Option Nat) (state : MemStore) : Course start state [] []
  | last {start : Option Nat} {state : MemStore} {leg : Leg} {rest : List Leg} {page : Page MemStore}
      (turn : Turn limits recipient start state leg page) (ends : page.nextCursor = none)
      (whole : (offered recipient start leg page).length ≤ min leg.limit u32Max) :
      Course start state (leg :: rest) [page]
  | more {start : Option Nat} {state : MemStore} {leg : Leg} {rest : List Leg} {page : Page MemStore}
      {pages : List (Page MemStore)}
      {final : QueueMessage} (turn : Turn limits recipient start state leg page)
      (ends : ((offered recipient start leg page).take (min leg.limit u32Max)).getLast? = some final)
      (full : min leg.limit u32Max < (offered recipient start leg page).length) (goesOn : page.nextCursor ≠ none)
      (later : Course (some final.arrivalSeq) page.pull.after rest pages) :
      Course start state (leg :: rest) (page :: pages)

section Course

variable {limits : RelayLimits} {recipient : String}

theorem traverse_course (plain : ':' ∉ recipient.toList) {cursor : Option String} {start : Option Nat} {state : MemStore}
    (coherent : state.Coherent) (decoded : startSeq recipient cursor = .ok start) {legs : List Leg}
    (positive : ∀ leg ∈ legs, 1 ≤ leg.limit)
    (fits : Fits limits state ((traverse relayStore limits recipient cursor state legs).flatMap Page.inputs)) :
    Course limits recipient start state legs (traverse relayStore limits recipient cursor state legs) := by
  induction legs generalizing cursor start state with
  | nil => exact .idle start state
  | cons leg rest ih =>
    let page := leg.page relayStore limits recipient cursor state
    have inputs : page.inputs = leg.between ++ [leg.pull recipient cursor] :=
      leg.page_inputs relayStore limits recipient cursor state
    rw [traverse, List.flatMap_cons] at fits
    obtain ⟨after, later⟩ := fits.split coherent
    have own : Fits limits state page.inputs := fits.left
    obtain ⟨found, room⟩ := (inputs ▸ own : Fits limits state (leg.between ++ [leg.pull recipient cursor])).split coherent
    obtain ⟨batch, answer, items, given⟩ := pull_accepted recipient (found recipient).filed decoded leg.limit leg.nowMs
    have output : page.pull.output = .pull (.ok batch) := congrArg Outcome.pull answer
    obtain ⟨handed, told⟩ := Page.of_answer output
    have turn : Turn limits recipient start state leg page := {
      fits := own
      events := by rw [inputs]; exact (leg.page_events relayStore limits recipient cursor state).symm
      before := by
        change final (next limits) state leg.between = _
        rw [show page.between.map Step.input = leg.between from trace_inputs _ _ _]
      coherent := ⟨coherent, found⟩
      after := by rw [inputs]; exact leg.page_after relayStore limits recipient cursor state
      called := ⟨cursor, rfl⟩
      answered := ⟨batch, output⟩
      items := handed.trans items }
    rw [traverse]
    by_cases full : min leg.limit u32Max < (offered recipient start leg page).length
    · have size : 0 < min leg.limit u32Max := Nat.lt_min.mpr ⟨positive leg List.mem_cons_self, by decide⟩
      obtain ⟨last, ends, listed⟩ := Paging.page_last size full
      have queued := (found recipient).filed.mem.mp (mem_pending.mp listed).1
      have bound : last.arrivalSeq < 2 ^ 64 := by
        have below : last.arrivalSeq < page.pull.before.spent recipient := (found recipient).below _ _ queued
        have spent : page.pull.before.spent recipient ≤ u64Max := room.spent_le recipient
        have limit : u64Max < 2 ^ 64 := by decide
        omega
      have continued : page.nextCursor = some (encodeCursor recipient last.arrivalSeq) := by
        rw [told, given, items]
        rw [show ((final (next limits) state leg.between).entryOf recipient).pending start leg.nowMs =
          offered recipient start leg page from rfl, if_pos full, ends, Option.map_some,
            (found recipient).owner _ _ queued]
      have goesOn : page.nextCursor ≠ none := by
        rw [continued]
        exact Option.some_ne_none _
      rw [show (leg.page relayStore limits recipient cursor state).nextCursor = _ from continued] at later ⊢
      refine .more turn ends full goesOn (ih ?_ (startSeq_encodeCursor plain bound) ?_ ?_)
      · exact (congrArg Coherent turn.after).mpr after
      · exact fun other member => positive other (List.mem_cons_of_mem _ member)
      · exact (congrArg (fun found => Fits limits found _) turn.after).mpr later
    · have ends : page.nextCursor = none := by
        rw [told, given]
        exact if_neg full
      rw [show (leg.page relayStore limits recipient cursor state).nextCursor = none from ends]
      exact .last turn ends (Nat.not_lt.mp full)

theorem Course.pulls {start : Option Nat} {state : MemStore} {legs : List Leg} {pages : List (Page MemStore)}
    (course : Course limits recipient start state legs pages) :
    ∀ page ∈ pages, (∃ batch, page.pull.output = .pull (.ok batch)) ∧
      Event.storedPush recipient page.pull = none := by
  have each : ∀ {start : Option Nat} {state : MemStore} {leg : Leg} {page : Page MemStore},
      Turn limits recipient start state leg page → (∃ batch, page.pull.output = .pull (.ok batch)) ∧
        Event.storedPush recipient page.pull = none := by
    intro start state leg page turn
    obtain ⟨cursor, called⟩ := turn.called
    exact ⟨turn.answered, by simp only [Event.storedPush, called]⟩
  induction course with
  | idle => simp
  | last turn => exact fun page member => List.mem_singleton.mp member ▸ each turn
  | more turn _ _ _ _ ih =>
    intro page member
    rcases List.mem_cons.mp member with rfl | later
    · exact each turn
    · exact ih page later

theorem Course.increasing {start : Option Nat} {state : MemStore} {legs : List Leg} {pages : List (Page MemStore)}
    (course : Course limits recipient start state legs pages) :
    (pages.flatMap Page.items).Pairwise (fun a b => a.arrivalSeq < b.arrivalSeq) ∧
      ∀ msg ∈ pages.flatMap Page.items, start.all (· < msg.arrivalSeq) = true := by
  have page : ∀ {start : Option Nat} {state : MemStore} {leg : Leg} {page : Page MemStore},
      Turn limits recipient start state leg page → page.items.Pairwise (fun a b => a.arrivalSeq < b.arrivalSeq) ∧
        ∀ msg ∈ page.items, start.all (· < msg.arrivalSeq) = true := by
    intro start state leg page turn
    rw [turn.items]
    refine ⟨(offered_sorted turn.coherent.2 start leg).sublist (List.take_sublist _ _), ?_⟩
    exact fun msg member => (mem_pending.mp (List.mem_of_mem_take member)).2.2
  induction course with
  | idle => simp
  | last turn => simpa using page turn
  | @more start state leg rest head pages last turn ends full goesOn later ih =>
    obtain ⟨sorted, beyond⟩ := page turn
    obtain ⟨tail, far⟩ := ih
    have lower : ∀ msg ∈ head.items, msg.arrivalSeq ≤ last.arrivalSeq := by
      rw [turn.items]
      exact Paging.le_last (offered_sorted turn.coherent.2 start leg) ends
    have higher : ∀ msg ∈ pages.flatMap Page.items, last.arrivalSeq < msg.arrivalSeq :=
      fun msg member => by simpa using far msg member
    rw [List.flatMap_cons]
    refine ⟨List.pairwise_append.mpr ⟨sorted, tail, ?_⟩, ?_⟩
    · exact fun a first b second => Nat.lt_of_le_of_lt (lower a first) (higher b second)
    · intro msg member
      rcases List.mem_append.mp member with here | there
      · exact beyond msg here
      · have listed : last ∈ head.items := turn.items ▸ List.mem_of_getLast? ends
        have floor := beyond last listed
        cases start with
        | none => rfl
        | some seq =>
          simp only [Option.all_some, decide_eq_true_eq] at floor ⊢
          exact Nat.lt_trans floor (higher msg there)

/-- A finished traversal returned every message beyond its start that nothing may have removed. -/
theorem Course.complete {start : Option Nat} {state : MemStore} {legs : List Leg} {pages : List (Page MemStore)}
    (course : Course limits recipient start state legs pages) (finished : Finished pages) {msg : QueueMessage}
    (member : msg ∈ state.queued recipient) (beyond : start.all (· < msg.arrivalSeq) = true)
    (undisturbed : ∀ page ∈ pages, ∀ event ∈ page.events, ¬ Removes recipient msg event.input.1) :
    msg ∈ pages.flatMap Page.items := by
  have reached : ∀ {start : Option Nat} {state : MemStore} {leg : Leg} {page : Page MemStore},
      Turn limits recipient start state leg page → msg ∈ state.queued recipient →
      start.all (· < msg.arrivalSeq) = true → (∀ event ∈ page.events, ¬ Removes recipient msg event.input.1) →
      msg ∈ offered recipient start leg page ∧ msg ∈ page.pull.after.queued recipient := by
    intro start state leg page turn member beyond spared
    have inputs : ∀ input ∈ page.inputs, ¬ Removes recipient msg input.1 := by
      intro input listed
      obtain ⟨event, present, rfl⟩ := List.mem_map.mp listed
      exact spared event present
    have split : page.inputs = page.between.map Step.input ++ [page.pull.input] := List.map_append
    have found : msg ∈ page.pull.before.queued recipient := by
      rw [turn.before]
      refine kept_run limits turn.coherent.1 (split ▸ turn.fits).left member ?_
      exact fun input listed => inputs input (split ▸ List.mem_append_left _ listed)
    have live : leg.nowMs < msg.deadlineMs := by
      obtain ⟨cursor, called⟩ := turn.called
      have kept := spared page.pull (List.mem_append_right _ (List.mem_singleton_self _))
      rw [called] at kept
      exact Nat.not_le.mp fun late => kept ⟨rfl, late⟩
    refine ⟨mem_pending.mpr ⟨found, live, beyond⟩, ?_⟩
    rw [turn.after]
    exact kept_run limits turn.coherent.1 turn.fits member inputs
  induction course with
  | idle =>
    obtain ⟨_, none, _⟩ := finished
    cases none
  | last turn _ whole =>
    obtain ⟨listed, _⟩ := reached turn member beyond (undisturbed _ (List.mem_singleton_self _))
    rw [List.flatMap_singleton, turn.items, List.take_of_length_le whole]
    exact listed
  | @more start state leg rest head pages last turn ends full goesOn later ih =>
    obtain ⟨listed, remains⟩ := reached turn member beyond (undisturbed _ List.mem_cons_self)
    rw [List.flatMap_cons, List.mem_append, turn.items]
    rcases Paging.mem_page_or_beyond (offered_sorted turn.coherent.2 start leg) ends listed with here | further
    · exact .inl here
    · right
      exact ih (finished.tail goesOn) remains (by simpa using further)
        (fun page listed => undisturbed page (List.mem_cons_of_mem _ listed))

def beyond (recipient : String) (start : Option Nat) (state : MemStore) : List QueueMessage :=
  (state.queued recipient).filter (fun msg => start.all (· < msg.arrivalSeq))

theorem Turn.between_trace {start : Option Nat} {state : MemStore} {leg : Leg} {page : Page MemStore}
    (turn : Turn limits recipient start state leg page) :
    trace (next limits) state (page.between.map Step.input) = page.between := by
  have whole := turn.events
  rw [Page.inputs, Page.events, List.map_append, trace_append] at whole
  exact List.append_inj_left' whole (by simp)

theorem Turn.shrinks {start : Option Nat} {state : MemStore} {leg : Leg} {page : Page MemStore}
    (turn : Turn limits recipient start state leg page) {last : QueueMessage}
    (ends : ((offered recipient start leg page).take (min leg.limit u32Max)).getLast? = some last)
    (full : min leg.limit u32Max < (offered recipient start leg page).length)
    (quiet : ∀ event ∈ page.events, Event.storedPush recipient event = none) :
    min leg.limit u32Max < (beyond recipient start state).length ∧
      (beyond recipient (some last.arrivalSeq) page.pull.after).length + min leg.limit u32Max ≤
        (beyond recipient start state).length := by
  have split : page.inputs = page.between.map Step.input ++ [page.pull.input] := List.map_append
  have found : List.Sublist (page.pull.before.queued recipient) (state.queued recipient) := by
    rw [turn.before]
    refine quiet_run limits turn.coherent.1 (split ▸ turn.fits).left ?_
    rw [turn.between_trace]
    exact fun event listed => quiet event (List.mem_append_left _ listed)
  have left : List.Sublist (page.pull.after.queued recipient) (state.queued recipient) := by
    rw [turn.after]
    exact quiet_run limits turn.coherent.1 turn.fits (turn.events ▸ quiet)
  have live : List.Sublist (offered recipient start leg page) (beyond recipient start state) := by
    have narrowed : offered recipient start leg page =
        (beyond recipient start page.pull.before).filter (live leg.nowMs) := by
      rw [beyond, List.filter_filter]
      rfl
    rw [narrowed]
    exact List.filter_sublist.trans (found.filter _)
  refine ⟨Nat.lt_of_lt_of_le full live.length_le, ?_⟩
  have listed := List.mem_of_mem_take (List.mem_of_getLast? ends)
  have floor := (mem_pending.mp listed).2.2
  -- what remains is beyond the page's last message, and the page is not
  have rest : List.Sublist (beyond recipient (some last.arrivalSeq) page.pull.after)
      ((beyond recipient start state).filter (fun msg => last.arrivalSeq < msg.arrivalSeq)) := by
    have same : (beyond recipient start state).filter (fun msg => last.arrivalSeq < msg.arrivalSeq) =
        (state.queued recipient).filter (fun msg => last.arrivalSeq < msg.arrivalSeq) := by
      rw [beyond, List.filter_filter]
      apply List.filter_congr
      intro msg _
      cases start with
      | none => simp
      | some seq =>
        simp only [Option.all_some, decide_eq_true_eq] at floor
        rw [Option.all_some, ← Bool.decide_and]
        exact decide_eq_decide.mpr ⟨fun both => both.1, fun above => ⟨above, Nat.lt_trans floor above⟩⟩
    rw [same]
    exact left.filter _
  have taken : List.Sublist ((offered recipient start leg page).take (min leg.limit u32Max))
      ((beyond recipient start state).filter (fun msg => !decide (last.arrivalSeq < msg.arrivalSeq))) := by
    have within : ((offered recipient start leg page).take (min leg.limit u32Max)).filter
        (fun msg => !decide (last.arrivalSeq < msg.arrivalSeq)) =
          (offered recipient start leg page).take (min leg.limit u32Max) := by
      rw [List.filter_eq_self]
      intro msg member
      simpa using Paging.le_last (offered_sorted turn.coherent.2 start leg) ends msg member
    rw [← within]
    exact ((List.take_sublist _ _).trans live).filter _
  have size : ((offered recipient start leg page).take (min leg.limit u32Max)).length = min leg.limit u32Max := by
    rw [List.length_take]
    exact Nat.min_eq_left full.le
  calc (beyond recipient (some last.arrivalSeq) page.pull.after).length + min leg.limit u32Max
      ≤ _ := Nat.add_le_add rest.length_le (size ▸ taken.length_le)
    _ = (beyond recipient start state).length := (List.length_eq_length_filter_add _).symm

theorem Course.bounded {start : Option Nat} {state : MemStore} {legs : List Leg} {pages : List (Page MemStore)}
    (course : Course limits recipient start state legs pages) {size : Nat} (positive : 0 < size)
    (uniform : ∀ leg ∈ legs, min leg.limit u32Max = size)
    (quiet : ∀ page ∈ pages, ∀ event ∈ page.events, Event.storedPush recipient event = none) :
    let most := max 1 (((beyond recipient start state).length + size - 1) / size)
    pages.length ≤ most ∧ (most ≤ legs.length → Finished pages) := by
  induction course with
  | idle =>
    refine ⟨Nat.zero_le _, ?_⟩
    intro enough
    have one := Nat.le_trans (Nat.le_max_left 1 _) enough
    simp at one
  | last turn ends => exact ⟨Nat.le_max_left 1 _, fun _ => ⟨_, rfl, ends⟩⟩
  | @more start state leg rest head pages last turn ends full goesOn later ih =>
    obtain ⟨more, fewer⟩ := turn.shrinks ends full (quiet _ List.mem_cons_self)
    obtain ⟨few, stops⟩ := ih (fun leg listed => uniform leg (List.mem_cons_of_mem _ listed))
      (fun page listed => quiet page (List.mem_cons_of_mem _ listed))
    rw [uniform leg List.mem_cons_self] at more fewer
    have step := Paging.pages_succ positive more fewer
    refine ⟨?_, fun enough => ?_⟩
    · rw [List.length_cons]
      omega
    · rw [List.length_cons] at enough
      exact (stops (by omega)).cons head

end Course

/-- A traversal interleaved with any calls of others: it never fails, never repeats a message,
    misses none that was there throughout, and without pushes ends within the pages expected. -/
theorem traversal_exactly_once {recipient : String} (plain : ':' ∉ recipient.toList) {calls : List (Call × HashOrder)}
    {legs : List Leg} (positive : ∀ leg ∈ legs, 1 ≤ leg.limit)
    (few : Few limits (calls ++
      (traverse relayStore limits recipient none (final (next limits) new calls) legs).flatMap Page.inputs)) :
    let state := final (next limits) new calls
    let pages := traverse relayStore limits recipient none state legs
    (∀ page ∈ pages, ∃ batch, page.pull.output = .pull (.ok batch)) ∧
    ((pages.flatMap Page.items).map QueueMessage.arrivalSeq).Pairwise (· < ·) ∧
    (Finished pages → ∀ msg ∈ state.queued recipient,
      (∀ page ∈ pages, ∀ event ∈ page.events, ¬ Removes recipient msg event.input.1) →
      (pages.flatMap Page.items).count msg = 1) ∧
    ((∀ page ∈ pages, ∀ event ∈ page.between, ∀ msg, event.input.1 = .push msg → msg.recipient ≠ recipient) →
      ∀ size, 0 < size → size < 2 ^ 32 → (∀ leg ∈ legs, leg.limit = size) →
      let most := max 1 (((state.queued recipient).length + size - 1) / size)
      pages.length ≤ most ∧ (most ≤ legs.length → Finished pages)) := by
  intro state pages
  obtain ⟨coherent, fits⟩ := few.fits.split new_coherent
  have course : Course limits recipient none state legs pages := traverse_course plain coherent rfl positive fits
  have sorted := course.increasing.1
  refine ⟨fun page member => (course.pulls page member).1, List.pairwise_map.mpr sorted, ?_, ?_⟩
  · intro finished msg member undisturbed
    have distinct : (pages.flatMap Page.items).Nodup := by
      refine sorted.imp ?_
      rintro a b below rfl
      exact Nat.lt_irrefl _ below
    exact List.count_eq_one_of_mem distinct (course.complete finished member rfl undisturbed)
  · intro silent size some short uniform
    have whole : beyond recipient none state = state.queued recipient := List.filter_eq_self.mpr fun _ _ => rfl
    rw [← whole]
    refine course.bounded some ?_ ?_
    · intro leg member
      rw [uniform leg member, u32Max]
      omega
    · intro page member event listed
      rcases List.mem_append.mp listed with before | this
      · apply storedPush_of_miss
        unfold Event.storedFor
        split
        · rename_i msg result called answered
          rw [decide_eq_false (silent page member event before msg called), Bool.false_and]
        · rfl
      · rw [List.mem_singleton.mp this]
        exact (course.pulls page member).2

end Traversal

def sampleLegs : List Leg :=
  [⟨[], 1, 10⟩, ⟨[(.push (sample "bob" 3 0 60 3), .asListed), (.ack "alice" sampleAck, .asListed)], 1, 10⟩]

def sampleQueue : List (Call × HashOrder) :=
  [(.push (sample "alice" 1 0 60 3), .asListed), (.push (sample "alice" 2 0 60 3), .asListed)]

def samplePages : List (Page MemStore) :=
  traverse relayStore sampleLimits "alice" none (final (next sampleLimits) new sampleQueue) sampleLegs

theorem traversal_exactly_once_sample :
    ((samplePages.flatMap Page.items).map QueueMessage.arrivalSeq).Pairwise (· < ·) ∧
      ∀ page ∈ samplePages, ∃ batch, page.pull.output = .pull (.ok batch) := by
  have few : Few sampleLimits (sampleQueue ++ samplePages.flatMap Page.inputs) :=
    HitsBelow.of_length (by decide +kernel)
  obtain ⟨answered, increasing, _⟩ := traversal_exactly_once sampleLimits (by decide) (by decide) few
  exact ⟨increasing, answered⟩

end EnigmaRelay.MemStore
