import Mathlib

namespace Machine

/-- One step of a run: what it started from, what it was asked, what it answered, what it left. -/
structure Step (σ ι ω : Type) where
  before : σ
  input : ι
  output : ω
  after : σ

variable {σ ι ω : Type} (step : σ → ι → ω × σ)

def taken (state : σ) (input : ι) : Step σ ι ω :=
  ⟨state, input, (step state input).1, (step state input).2⟩

def final (state : σ) (inputs : List ι) : σ :=
  inputs.foldl (fun current input => (step current input).2) state

def trace : σ → List ι → List (Step σ ι ω)
  | _, [] => []
  | state, input :: rest => taken step state input :: trace (step state input).2 rest

def outputs (state : σ) (inputs : List ι) : List ω := (trace step state inputs).map Step.output

@[simp] theorem final_nil (state : σ) : final step state [] = state := rfl

@[simp] theorem final_cons (state : σ) (input : ι) (rest : List ι) :
    final step state (input :: rest) = final step (step state input).2 rest := rfl

theorem final_append (state : σ) (first second : List ι) :
    final step state (first ++ second) = final step (final step state first) second := by
  simp [final]

theorem trace_append (state : σ) (first second : List ι) :
    trace step state (first ++ second) = trace step state first ++ trace step (final step state first) second := by
  induction first generalizing state with
  | nil => rfl
  | cons input rest ih => simp only [List.cons_append, trace, ih, final_cons]

@[simp] theorem trace_length (state : σ) (inputs : List ι) : (trace step state inputs).length = inputs.length := by
  induction inputs generalizing state with
  | nil => rfl
  | cons input rest ih => rw [trace, List.length_cons, List.length_cons, ih]

@[simp] theorem trace_inputs (state : σ) (inputs : List ι) :
    (trace step state inputs).map Step.input = inputs := by
  induction inputs generalizing state with
  | nil => rfl
  | cons input rest ih => rw [trace, List.map_cons, ih, taken]

theorem final_snoc (state : σ) (inputs : List ι) (input : ι) :
    final step state (inputs ++ [input]) = (step (final step state inputs) input).2 := by
  rw [final_append]
  rfl

theorem trace_snoc (state : σ) (inputs : List ι) (input : ι) :
    trace step state (inputs ++ [input]) =
      trace step state inputs ++ [taken step (final step state inputs) input] := by
  rw [trace_append]
  rfl

theorem trace_split {state : σ} {inputs : List ι} {past future : List (Step σ ι ω)} {now : Step σ ι ω}
    (split : trace step state inputs = past ++ now :: future) :
    ∃ earlier later, inputs = earlier ++ now.input :: later ∧ past = trace step state earlier ∧
      now = taken step (final step state earlier) now.input ∧ future = trace step now.after later := by
  induction past generalizing state inputs with
  | nil =>
    cases inputs with
    | nil => cases split
    | cons input rest =>
      obtain ⟨rfl, rfl⟩ := List.cons.inj split
      exact ⟨[], rest, rfl, rfl, rfl, rfl⟩
  | cons first past ih =>
    cases inputs with
    | nil => cases split
    | cons input rest =>
      obtain ⟨rfl, tail⟩ := List.cons.inj split
      obtain ⟨earlier, later, rfl, rfl, same, rfl⟩ := ih tail
      exact ⟨input :: earlier, later, rfl, rfl, same, rfl⟩

theorem trace_member {state : σ} {inputs : List ι} {event : Step σ ι ω}
    (member : event ∈ trace step state inputs) :
    ∃ earlier later, inputs = earlier ++ event.input :: later ∧
      event = taken step (final step state earlier) event.input := by
  obtain ⟨past, future, split⟩ := List.append_of_mem member
  obtain ⟨earlier, later, same, _, now, _⟩ := trace_split step split
  exact ⟨earlier, later, same, now⟩

theorem trace_event {state : σ} {inputs : List ι} {event : Step σ ι ω} (member : event ∈ trace step state inputs) :
    event.input ∈ inputs ∧ taken step event.before event.input = event := by
  obtain ⟨earlier, later, split, same⟩ := trace_member step member
  constructor
  · rw [split]
    exact List.mem_append_right _ List.mem_cons_self
  · have start : event.before = final step state earlier := congrArg Step.before same
    rw [start]
    exact same.symm

/-- What every step with its guard preserves, a run whose steps all meet their guard preserves. -/
theorem guarded_run {P : σ → Prop} {guard : σ → ι → Prop}
    (preserved : ∀ state input, P state → guard state input → P (step state input).2)
    {state : σ} {inputs : List ι} (start : P state)
    (guarded : ∀ event ∈ trace step state inputs, guard event.before event.input) :
    P (final step state inputs) := by
  induction inputs generalizing state with
  | nil => exact start
  | cons input rest ih =>
    have first := guarded (taken step state input) (by simp [trace])
    apply ih (preserved state input start first)
    intro event member
    exact guarded event (List.mem_cons_of_mem _ member)

theorem invariant_run {P : σ → Prop} (preserved : ∀ state input, P state → P (step state input).2)
    {state : σ} (inputs : List ι) (start : P state) : P (final step state inputs) :=
  @guarded_run σ ι ω step P (fun _ _ => True) (fun s i holds _ => preserved s i holds) state inputs start
    (fun _ _ => True.intro)

theorem trace_map {κ : Type} (name : κ → ι) (state : σ) (inputs : List κ) :
    (trace (fun current input => step current (name input)) state inputs).map
        (fun event => Step.mk event.before (name event.input) event.output event.after) =
      trace step state (inputs.map name) := by
  induction inputs generalizing state with
  | nil => rfl
  | cons input rest ih => simp only [trace, List.map_cons, ih, taken]

theorem final_map {κ : Type} (name : κ → ι) (state : σ) (inputs : List κ) :
    final (fun current input => step current (name input)) state inputs = final step state (inputs.map name) := by
  rw [final, final, List.foldl_map]

section Along

variable {α : Type}

def Along (guard : List α → α → Prop) (events : List α) : Prop :=
  ∀ place : Fin events.length, guard (events.take place) (events.get place)

instance (guard : List α → α → Prop) [∀ past event, Decidable (guard past event)] (events : List α) :
    Decidable (Along guard events) := inferInstanceAs (Decidable (∀ _ : Fin events.length, _))

theorem along_iff {guard : List α → α → Prop} {events : List α} :
    Along guard events ↔ ∀ past event future, events = past ++ event :: future → guard past event := by
  constructor
  · rintro along past event future rfl
    have here := along ⟨past.length, by simp⟩
    simpa using here
  · intro each place
    apply each _ _ (events.drop (place + 1))
    rw [List.get_eq_getElem, List.cons_getElem_drop_succ, List.take_append_drop]

end Along

section Budget

variable {κ : Type} {P : σ → Prop} {level : σ → κ → Nat} {hit : κ → Step σ ι ω → Bool} {cap : Nat}

/-- A counter that each hit raises by one, in runs with too few hits to exhaust it: the invariant
    needs only to be preserved by steps that find their counter below the cap. -/
theorem budget_run
    (preserved : ∀ state input, P state →
      (∀ key, hit key (taken step state input) = true → level state key < cap) →
      P (step state input).2 ∧ ∀ key, level (step state input).2 key =
        level state key + if hit key (taken step state input) then 1 else 0)
    {state : σ} {inputs : List ι} (start : P state)
    (within : ∀ key, level state key + (trace step state inputs).countP (hit key) ≤ cap) :
    P (final step state inputs) ∧
      (∀ key, level (final step state inputs) key =
        level state key + (trace step state inputs).countP (hit key)) ∧
      ∀ event ∈ trace step state inputs, P event.before ∧ P event.after ∧
        ∀ key, hit key event = true → level event.before key < cap := by
  induction inputs generalizing state with
  | nil => exact ⟨start, by simp [trace], by simp [trace]⟩
  | cons input rest ih =>
    have counted : ∀ key, (trace step state (input :: rest)).countP (hit key) =
        (trace step (step state input).2 rest).countP (hit key) +
          if hit key (taken step state input) then 1 else 0 := by
      intro key
      simp only [trace, List.countP_cons]
    have room : ∀ key, hit key (taken step state input) = true → level state key < cap := by
      intro key struck
      have bound := within key
      rw [counted key, if_pos struck] at bound
      omega
    obtain ⟨next, raised⟩ := preserved state input start room
    obtain ⟨last, levels, events⟩ := ih next (fun key => by
      have bound := within key
      rw [counted key] at bound
      rw [raised key]
      omega)
    refine ⟨last, ?_, ?_⟩
    · intro key
      rw [final_cons, levels key, raised key, counted key]
      omega
    · intro event member
      rcases List.mem_cons.mp member with rfl | later
      · exact ⟨start, next, room⟩
      · exact events event later

/-- Every counter is hit fewer than `cap` times in the run. -/
def HitsBelow (hit : κ → Step σ ι ω → Bool) (cap : Nat) (state : σ) (inputs : List ι) : Prop :=
  ∀ key, (trace step state inputs).countP (hit key) < cap

variable {step} {state : σ}

theorem HitsBelow.of_length {inputs : List ι} (short : inputs.length < cap) : HitsBelow step hit cap state inputs := by
  intro key
  have counted := List.countP_le_length (p := hit key) (l := trace step state inputs)
  rw [trace_length] at counted
  omega

theorem HitsBelow.left {earlier later : List ι} (below : HitsBelow step hit cap state (earlier ++ later)) :
    HitsBelow step hit cap state earlier := by
  intro key
  have bound := below key
  rw [trace_append, List.countP_append] at bound
  omega

end Budget

section Views

variable {K τ : Type} [DecidableEq K] {P : σ → Prop} {key : ι → K} {view : σ → K → τ} {own : τ → ι → ω × τ}

/-- What an event shows to one key. -/
def Step.seenBy (view : σ → K → τ) (observer : K) (event : Step σ ι ω) : Step τ ι ω :=
  ⟨view event.before observer, event.input, event.output, view event.after observer⟩

/-- The state falls into parts under keys, and a step works on the part of its key alone. -/
structure Separate (step : σ → ι → ω × σ) (P : σ → Prop) (key : ι → K) (view : σ → K → τ) (own : τ → ι → ω × τ) :
    Prop where
  kept : ∀ state input, P state → P (step state input).2
  mine : ∀ state input, P state → own (view state (key input)) input =
    ((step state input).1, view (step state input).2 (key input))
  others : ∀ state input observer, P state → observer ≠ key input →
    view (step state input).2 observer = view state observer

variable {step}

/-- A run seen by one key is a run of the part on the inputs of that key. -/
theorem Separate.trace_seenBy (separate : Separate step P key view own) {state : σ} (start : P state)
    (inputs : List ι) (observer : K) :
    ((trace step state inputs).filter (fun event => key event.input = observer)).map (Step.seenBy view observer) =
      trace own (view state observer) (inputs.filter (fun input => key input = observer)) := by
  induction inputs generalizing state with
  | nil => rfl
  | cons input rest ih =>
    rw [trace, List.filter_cons, List.filter_cons]
    by_cases mine : key input = observer
    · have first := separate.mine state input start
      rw [mine] at first
      simp only [taken, mine, decide_true, if_true, List.map_cons, trace]
      rw [ih (separate.kept state input start), first]
      rfl
    · simp only [taken, mine, decide_false, Bool.false_eq_true, if_false]
      rw [ih (separate.kept state input start), separate.others state input observer start (Ne.symm mine)]

end Views

end Machine

/-! Steps of others that nobody of ours can see: a run with them and the run without them answer us alike. -/

namespace Unwinding

open Machine

variable {σ ι ω : Type}

/-- `alike` relates a state to what it would be without the others: our own steps keep it and answer the same, steps of
    the others keep it on their own. Only inputs that are `fair` are considered. -/
structure Unwinds (step : σ → ι → ω × σ) (fair : ι → Prop) (mine : ι → Bool) (alike : σ → σ → Prop) : Prop where
  own : ∀ full part input, alike full part → fair input → mine input = true →
    (step full input).1 = (step part input).1 ∧ alike (step full input).2 (step part input).2
  other : ∀ full part input, alike full part → fair input → mine input = false → alike (step full input).2 part

variable {step : σ → ι → ω × σ} {fair : ι → Prop} {mine : ι → Bool} {alike : σ → σ → Prop}

theorem Unwinds.run (unwinds : Unwinds step fair mine alike) {full part : σ} (start : alike full part) {inputs : List ι}
    (all : ∀ input ∈ inputs, fair input) :
    alike (final step full inputs) (final step part (inputs.filter mine)) ∧
      ((trace step full inputs).filter (fun event => mine event.input)).map (fun event => (event.input, event.output)) =
        (trace step part (inputs.filter mine)).map (fun event => (event.input, event.output)) := by
  induction inputs generalizing full part with
  | nil => exact ⟨start, rfl⟩
  | cons input rest ih =>
    have here := all input List.mem_cons_self
    have later : ∀ other ∈ rest, fair other := fun other listed => all other (List.mem_cons_of_mem _ listed)
    rw [trace, List.filter_cons, List.filter_cons]
    cases own : mine input with
    | true =>
      obtain ⟨answer, next⟩ := unwinds.own full part input start here own
      obtain ⟨last, seen⟩ := ih next later
      simp only [taken, own, if_true, final_cons, trace, List.map_cons]
      exact ⟨last, by rw [answer, seen]⟩
    | false =>
      have next := unwinds.other full part input start here own
      simp only [taken, own, Bool.false_eq_true, if_false, final_cons]
      exact ih next later

end Unwinding
