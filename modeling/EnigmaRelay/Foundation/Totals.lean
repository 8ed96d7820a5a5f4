import EnigmaRelay.Foundation.Machine
import EnigmaRelay.Foundation.OrderedMap

open Std

/-! Sums over the values of a map, and sums over the steps of a run. -/

namespace Totals

variable {M : Type} [AddCommMonoid M]

section Map

variable {K V : Type} {cmp : K → K → Ordering} [TransCmp cmp] [LawfulEqCmp cmp] [DecidableEq K]

def total (weight : V → M) (map : ExtTreeMap K V cmp) : M := (map.toList.map (fun entry => weight entry.2)).sum

omit [LawfulEqCmp cmp] [DecidableEq K] in
@[simp] theorem total_empty (weight : V → M) : total weight (∅ : ExtTreeMap K V cmp) = 0 := by
  simp [total]

variable (weight : V → M) {map : ExtTreeMap K V cmp} {key : K}

theorem total_insert_new (value : V) (absent : map[key]? = none) :
    total weight (map.insert key value) = weight value + total weight map := by
  have permuted := OrderedMap.toList_insert_perm map key value absent
  rw [total, (permuted.map _).sum_eq, List.map_cons, List.sum_cons]
  rfl

theorem total_erase {old : V} (bound : map[key]? = some old) :
    total weight map = weight old + total weight (map.erase key) := by
  have permuted := OrderedMap.toList_erase_perm map key old bound
  rw [total, (permuted.map _).sum_eq, List.map_cons, List.sum_cons]
  rfl

theorem total_insert {old : V} (value : V) (bound : map[key]? = some old) :
    total weight (map.insert key value) + weight old = total weight map + weight value := by
  have absent : (map.erase key)[key]? = none := by simp
  have replaced : (map.erase key).insert key value = map.insert key value := by
    apply ExtTreeMap.ext_getElem?
    intro other
    rw [OrderedMap.getElem?_insert, OrderedMap.getElem?_insert, OrderedMap.getElem?_erase]
    split <;> rfl
  have added := total_insert_new weight value absent
  rw [replaced] at added
  rw [added, total_erase weight bound, add_comm (weight value), add_assoc, add_comm (weight value), ← add_assoc,
    add_comm (total weight _)]

end Map

section Run

open Machine

variable {σ ι ω : Type} {step : σ → ι → ω × σ} {held : σ → M} {gain loss : Step σ ι ω → M}

/-- When every step accounts for what it takes in and lets go, so does the run. -/
theorem ledger_run {state : σ} {inputs : List ι}
    (balanced : ∀ event ∈ trace step state inputs, held event.after + loss event = held event.before + gain event) :
    held (final step state inputs) + ((trace step state inputs).map loss).sum =
      held state + ((trace step state inputs).map gain).sum := by
  induction inputs generalizing state with
  | nil => rfl
  | cons input rest ih =>
    have first := balanced (taken step state input) List.mem_cons_self
    have later := ih (fun event listed => balanced event (List.mem_cons_of_mem _ listed))
    change held (step state input).2 + _ = held state + _ at first
    rw [final_cons, trace, List.map_cons, List.map_cons, List.sum_cons, List.sum_cons]
    calc held (final step (step state input).2 rest) + (loss _ + _)
        = loss _ + (held (final step (step state input).2 rest) + _) := add_left_comm _ _ _
      _ = loss _ + (held (step state input).2 + _) := by rw [later]
      _ = held (step state input).2 + loss _ + _ := by rw [← add_assoc, add_comm (loss _)]
      _ = held state + (gain _ + _) := by rw [first, add_assoc]

/-- When every step spends no more than it earns or takes from what is held, so does the run. -/
theorem spending_run {held : σ → Nat} {spends earns : Step σ ι ω → Bool} {state : σ} {inputs : List ι}
    (covered : ∀ event ∈ trace step state inputs,
      (spends event).toNat + held event.after ≤ held event.before + (earns event).toNat) :
    (trace step state inputs).countP spends + held (final step state inputs) ≤
      held state + (trace step state inputs).countP earns := by
  induction inputs generalizing state with
  | nil => exact Nat.le_of_eq (Nat.zero_add _)
  | cons input rest ih =>
    have first := covered (taken step state input) List.mem_cons_self
    have later := ih (fun event listed => covered event (List.mem_cons_of_mem _ listed))
    have counted : ∀ what : Step σ ι ω → Bool, (trace step state (input :: rest)).countP what =
        (trace step (step state input).2 rest).countP what + (what (taken step state input)).toNat := by
      intro what
      rw [trace, List.countP_cons]
      cases what (taken step state input) <;> rfl
    change _ + held (step state input).2 ≤ held state + _ at first
    rw [final_cons, counted, counted]
    omega

end Run

end Totals
