import EnigmaRelay.Foundation.Machine

/-! A machine inside a larger one: each step of the larger makes at most one step of the inner one. -/

namespace Linearization

open Machine

variable {σ ι ω τ κ ο : Type}

/-- What a step reports in `made` is the one step that it makes of the inner machine, on its `part` of the state. -/
structure Embeds (step : σ → ι → ω × σ) (inner : τ → κ → ο × τ) (part : σ → τ) (made : ω → Option (κ × ο)) : Prop where
  idle : ∀ state input, made (step state input).1 = none → part (step state input).2 = part state
  step : ∀ state input call answer, made (step state input).1 = some (call, answer) →
    inner (part state) call = (answer, part (step state input).2)

variable {step : σ → ι → ω × σ} {inner : τ → κ → ο × τ} {part : σ → τ} {made : ω → Option (κ × ο)}

def report (made : ω → Option (κ × ο)) (events : List (Step σ ι ω)) : List (κ × ο) :=
  events.filterMap (fun event => made event.output)

theorem report_cons_none {event : Step σ ι ω} (silent : made event.output = none) (rest : List (Step σ ι ω)) :
    report made (event :: rest) = report made rest := List.filterMap_cons_none silent

theorem report_cons_some {event : Step σ ι ω} {pair : κ × ο} (told : made event.output = some pair)
    (rest : List (Step σ ι ω)) : report made (event :: rest) = pair :: report made rest := List.filterMap_cons_some told

theorem report_append (first second : List (Step σ ι ω)) :
    report made (first ++ second) = report made first ++ report made second := List.filterMap_append

theorem sum_report (amount : ο → Nat) (events : List (Step σ ι ω)) :
    (events.map (fun event => (made event.output).elim 0 (fun pair => amount pair.2))).sum =
      ((report made events).map (fun pair => amount pair.2)).sum := by
  induction events with
  | nil => rfl
  | cons event rest ih =>
    rw [List.map_cons, List.sum_cons, ih]
    cases told : made event.output with
    | none => rw [report_cons_none told, Option.elim_none, Nat.zero_add]
    | some pair => rw [report_cons_some told, Option.elim_some, List.map_cons, List.sum_cons]

def inside (part : σ → τ) (made : ω → Option (κ × ο)) (event : Step σ ι ω) : Option (Step τ κ ο) :=
  (made event.output).map (fun pair => ⟨part event.before, pair.1, pair.2, part event.after⟩)

theorem Embeds.trace_inside (embeds : Embeds step inner part made) (state : σ) (inputs : List ι) :
    final inner (part state) ((report made (trace step state inputs)).map Prod.fst) = part (final step state inputs) ∧
      trace inner (part state) ((report made (trace step state inputs)).map Prod.fst) =
        (trace step state inputs).filterMap (inside part made) := by
  induction inputs generalizing state with
  | nil => exact ⟨rfl, rfl⟩
  | cons input rest ih =>
    obtain ⟨last, seen⟩ := ih (step state input).2
    cases called : made (step state input).1 with
    | none =>
      have same := embeds.idle state input called
      have skipped : report made (trace step state (input :: rest)) =
          report made (trace step (step state input).2 rest) := report_cons_none called _
      have silent : inside part made (taken step state input) = none := congrArg (Option.map _) called
      rw [skipped, ← same, final_cons, trace, List.filterMap_cons_none silent]
      exact ⟨last, seen⟩
    | some pair =>
      obtain ⟨call, answer⟩ := pair
      have moved := embeds.step state input call answer called
      have noted : report made (trace step state (input :: rest)) =
          (call, answer) :: report made (trace step (step state input).2 rest) := report_cons_some called _
      have loud : inside part made (taken step state input) =
          some ⟨part state, call, answer, part (step state input).2⟩ := congrArg (Option.map _) called
      rw [noted, List.map_cons, final_cons, final_cons, trace, trace, List.filterMap_cons_some loud, taken, moved, last,
        seen]
      exact ⟨rfl, rfl⟩

/-- The inner machine ends in its part of the last state, and answers what the run reports. -/
theorem Embeds.run (embeds : Embeds step inner part made) (state : σ) (inputs : List ι) :
    final inner (part state) ((report made (trace step state inputs)).map Prod.fst) = part (final step state inputs) ∧
      (trace inner (part state) ((report made (trace step state inputs)).map Prod.fst)).map
        (fun event => (event.input, event.output)) = report made (trace step state inputs) := by
  obtain ⟨last, seen⟩ := embeds.trace_inside state inputs
  refine ⟨last, ?_⟩
  rw [seen, List.map_filterMap, report]
  apply List.filterMap_congr
  intro event _
  cases called : made event.output <;> simp [inside, called]

theorem Embeds.countP (embeds : Embeds step inner part made) (state : σ) (inputs : List ι) (what : κ × ο → Bool) :
    (trace inner (part state) ((report made (trace step state inputs)).map Prod.fst)).countP
        (fun event => what (event.input, event.output)) =
      (trace step state inputs).countP (fun event => (made event.output).any what) := by
  rw [(embeds.trace_inside state inputs).2, List.countP_filterMap]
  apply List.countP_congr
  intro event _
  cases called : made event.output <;> simp [inside, called]

end Linearization
