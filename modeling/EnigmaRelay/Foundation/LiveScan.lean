import EnigmaRelay.Foundation.OrderedMap

open Std

/-! A scan that always goes to the least key beyond the one before, over entries that may change meanwhile. -/

namespace LiveScan

variable {K V : Type} (cmp : K → K → Ordering)

def beyond (last : Option K) (key : K) : Bool := last.all (fun before => cmp before key = .lt)

def next (entries : List (K × V)) (last : Option K) : Option (K × V) :=
  entries.find? (fun entry => beyond cmp last entry.1)

variable {cmp} {entries : List (K × V)} {last : Option K}

theorem next_none (ended : next cmp entries last = none) {entry : K × V} (member : entry ∈ entries) :
    beyond cmp last entry.1 = false := by
  have passed := List.find?_eq_none.mp ended entry member
  simpa using passed

theorem next_some {entry : K × V} (found : next cmp entries last = some entry) :
    entry ∈ entries ∧ beyond cmp last entry.1 = true :=
  ⟨List.mem_of_find?_eq_some found, List.find?_some (p := fun entry : K × V => beyond cmp last entry.1) found⟩

theorem next_least (sorted : entries.Pairwise (fun a b => cmp a.1 b.1 = .lt)) {entry other : K × V}
    (found : next cmp entries last = some entry) (member : other ∈ entries) (ahead : beyond cmp last other.1 = true) :
    other = entry ∨ cmp entry.1 other.1 = .lt := by
  obtain ⟨earlier, later, rfl, passed⟩ : ∃ earlier later, entries = earlier ++ entry :: later ∧
      ∀ skipped ∈ earlier, beyond cmp last skipped.1 = false := by
    obtain ⟨_, earlier, later, split, passed⟩ := List.find?_eq_some_iff_append.mp found
    exact ⟨earlier, later, split, fun skipped before => by simpa using passed skipped before⟩
  rcases List.mem_append.mp member with before | after
  · rw [passed other before] at ahead
    cases ahead
  · rcases List.mem_cons.mp after with same | behind
    · exact .inl same
    · exact .inr ((List.pairwise_cons.mp (List.pairwise_append.mp sorted).2.1).1 other behind)

theorem ahead_tail [TransCmp cmp] (sorted : entries.Pairwise (fun a b => cmp a.1 b.1 = .lt)) {entry : K × V}
    {rest : List (K × V)}
    (split : entries.filter (fun entry => beyond cmp last entry.1) = entry :: rest) :
    entries.filter (fun other => beyond cmp (some entry.1) other.1) = rest := by
  have ordered := sorted.filter (fun entry => beyond cmp last entry.1)
  rw [split, List.pairwise_cons] at ordered
  have here : beyond cmp last entry.1 = true := by
    have member : entry ∈ entries.filter (fun entry => beyond cmp last entry.1) := split ▸ List.mem_cons_self
    exact (List.mem_filter.mp member).2
  calc entries.filter (fun other => beyond cmp (some entry.1) other.1)
      = (entries.filter (fun entry => beyond cmp last entry.1)).filter
          (fun other => beyond cmp (some entry.1) other.1) := by
        rw [List.filter_filter]
        apply List.filter_congr
        intro other _
        cases last with
        | none => simp [beyond]
        | some before =>
          simp only [beyond, Option.all_some, decide_eq_true_eq] at here ⊢
          rw [← Bool.decide_and]
          exact decide_eq_decide.mpr ⟨fun later => ⟨later, TransCmp.lt_trans here later⟩, fun both => both.1⟩
    _ = rest := by
        have self : beyond cmp (some entry.1) entry.1 = false := by simp [beyond, ReflCmp.compare_self]
        rw [split, List.filter_cons_of_neg (by simp [self]), List.filter_eq_self]
        exact fun other member => decide_eq_true (ordered.1 other member)

end LiveScan
