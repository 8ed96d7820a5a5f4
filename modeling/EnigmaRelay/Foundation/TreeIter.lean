import EnigmaRelay.Foundation.Machine
import EnigmaRelay.Foundation.OrderedMap

open Std Machine

/-! Iterators over a tree that others change between the reads. -/

/-- An iterator as a store provides it: a read may look at the tree as it is then, or at what earlier reads have kept. -/
class TreeIter (K V : Type) (cmp : K → K → Ordering) where
  Cursor : Type
  iter : Cursor
  next : Cursor → ExtTreeMap K V cmp → Option (K × V) × Cursor

namespace TreeIter

variable {K V : Type} {cmp : K → K → Ordering}

section Scan

variable [TreeIter K V cmp] (seen : List (ExtTreeMap K V cmp)) (tree : ExtTreeMap K V cmp)

def reached : Cursor V cmp := final next iter seen

def following : Option (K × V) := (next (reached seen) tree).1

/-- The scan has come to the key, or beyond it. -/
def passed (key : K) : Bool := (outputs next iter seen).any (·.any (fun entry => cmp entry.1 key ≠ .lt))

variable [TransCmp cmp]

/-- Whatever the scan has met is behind it, or satisfies `P`. -/
def Covers (P : K × V → Prop) : Prop :=
  ∀ met ∈ seen, ∀ (key : K) (value : V), met[key]? = some value → passed seen key = true ∨ P (key, value)

def ahead : List (K × V) := tree.toList.filter (fun entry => !passed seen entry.1)

end Scan

/-- The keys of a scan ascend, what it yields was in the tree at one of its reads, and it skips nothing that was there at
    each of them. -/
structure Lawful (K V : Type) (cmp : K → K → Ordering) [TransCmp cmp] [TreeIter K V cmp] : Prop where
  ascending : ∀ (seen : List (ExtTreeMap K V cmp)) (tree : ExtTreeMap K V cmp) (entry : K × V),
    following seen tree = some entry → passed seen entry.1 = false
  present : ∀ (seen : List (ExtTreeMap K V cmp)) (tree : ExtTreeMap K V cmp) (entry : K × V),
    following seen tree = some entry → ∃ met ∈ seen ++ [tree], met[entry.1]? = some entry.2
  complete : ∀ (seen : List (ExtTreeMap K V cmp)) (tree : ExtTreeMap K V cmp) (key : K) (value : V),
    (∀ met ∈ seen ++ [tree], met[key]? = some value) → passed seen key = false →
      ∃ entry, following seen tree = some entry ∧ cmp key entry.1 ≠ .lt

section Reads

variable [TreeIter K V cmp] {seen : List (ExtTreeMap K V cmp)} {tree : ExtTreeMap K V cmp} {P Q : K × V → Prop}

theorem reached_snoc : reached (seen ++ [tree]) = (next (reached seen) tree).2 := final_snoc _ _ _ _

theorem passed_snoc (key : K) : passed (seen ++ [tree]) key =
    (passed seen key || (following seen tree).any (fun entry => cmp entry.1 key ≠ .lt)) := by
  rw [passed, outputs, trace_snoc, List.map_append, List.any_append]
  exact congrArg (passed seen key || ·) (Bool.or_false _)

theorem passed_mono {key : K} (behind : passed seen key = true) : passed (seen ++ [tree]) key = true := by
  rw [passed_snoc, behind, Bool.true_or]

variable [TransCmp cmp]

theorem passed_self {entry : K × V} (found : following seen tree = some entry) :
    passed (seen ++ [tree]) entry.1 = true := by
  simp [passed_snoc, found, ReflCmp.compare_self]

theorem Covers.nil : Covers ([] : List (ExtTreeMap K V cmp)) P := by
  intro met member
  cases member

theorem Covers.mono (covers : Covers seen P) (weaker : ∀ entry, P entry → Q entry) : Covers seen Q := by
  intro met member key value bound
  exact (covers met member key value bound).imp_right (weaker (key, value))

theorem Covers.read (covers : Covers seen P)
    (here : ∀ (key : K) (value : V), tree[key]? = some value → passed seen key = true ∨ P (key, value))
    (left : ∀ entry, P entry → Q entry ∨ following seen tree = some entry) : Covers (seen ++ [tree]) Q := by
  have onward : ∀ (key : K) (value : V), passed seen key = true ∨ P (key, value) →
      passed (seen ++ [tree]) key = true ∨ Q (key, value) := by
    rintro key value (behind | holds)
    · exact .inl (passed_mono behind)
    · rcases left (key, value) holds with stays | found
      · exact .inr stays
      · exact .inl (passed_self found)
  intro met member key value bound
  rcases List.mem_append.mp member with earlier | last
  · exact onward key value (covers met earlier key value bound)
  · rw [List.mem_singleton.mp last] at bound
    exact onward key value (here key value bound)

theorem Covers.take [DecidableEq K] [DecidableEq V] {pool : Finset (K × V)} (covers : Covers seen (· ∈ pool))
    (here : ∀ (key : K) (value : V), tree[key]? = some value → passed seen key = true ∨ (key, value) ∈ pool)
    {entry : K × V} (found : following seen tree = some entry) : Covers (seen ++ [tree]) (· ∈ pool.erase entry) := by
  apply covers.read here
  intro other listed
  by_cases same : other = entry
  · exact .inr (same ▸ found)
  · exact .inl (Finset.mem_erase.mpr ⟨same, listed⟩)

theorem Lawful.covered (lawful : Lawful K V cmp) (covers : Covers seen P)
    (here : ∀ (key : K) (value : V), tree[key]? = some value → passed seen key = true ∨ P (key, value)) {entry : K × V}
    (found : following seen tree = some entry) : P entry := by
  have fresh := lawful.ascending seen tree entry found
  obtain ⟨met, member, bound⟩ := lawful.present seen tree entry found
  have held : passed seen entry.1 = true ∨ P entry := by
    rcases List.mem_append.mp member with earlier | last
    · exact covers met earlier entry.1 entry.2 bound
    · rw [List.mem_singleton.mp last] at bound
      exact here entry.1 entry.2 bound
  rcases held with behind | holds
  · rw [fresh] at behind
    cases behind
  · exact holds

end Reads

section Alone

variable [TransCmp cmp] [TreeIter K V cmp] {seen : List (ExtTreeMap K V cmp)} {tree : ExtTreeMap K V cmp}

def Alone (seen : List (ExtTreeMap K V cmp)) (tree : ExtTreeMap K V cmp) : Prop :=
  ∀ met ∈ seen, ∀ key : K, passed seen key = false → met[key]? = tree[key]?

theorem Alone.nil : Alone [] tree := by
  intro met member
  cases member

theorem Alone.read (alone : Alone seen tree) {after : ExtTreeMap K V cmp}
    (same : ∀ key : K, passed (seen ++ [tree]) key = false → after[key]? = tree[key]?) : Alone (seen ++ [tree]) after := by
  intro met member key fresh
  rw [same key fresh]
  rcases List.mem_append.mp member with earlier | last
  · apply alone met earlier key
    by_contra behind
    rw [passed_mono (Bool.not_eq_false _ ▸ behind)] at fresh
    cases fresh
  · rw [List.mem_singleton.mp last]

variable [LawfulEqCmp cmp]

theorem mem_ahead {key : K} {value : V} :
    (key, value) ∈ ahead seen tree ↔ tree[key]? = some value ∧ passed seen key = false := by
  rw [ahead, List.mem_filter, OrderedMap.mem_toList, Bool.not_eq_true']

/-- An undisturbed scan goes through the tree in key order. -/
theorem Lawful.following_alone (lawful : Lawful K V cmp) (alone : Alone seen tree) :
    following seen tree = (ahead seen tree).head? := by
  have everywhere : ∀ (key : K) (value : V), (key, value) ∈ ahead seen tree →
      ∃ entry, following seen tree = some entry ∧ cmp key entry.1 ≠ .lt := by
    intro key value member
    obtain ⟨bound, fresh⟩ := mem_ahead.mp member
    refine lawful.complete seen tree key value ?_ fresh
    intro met listed
    rcases List.mem_append.mp listed with earlier | last
    · rw [alone met earlier key fresh, bound]
    · rw [List.mem_singleton.mp last, bound]
  cases split : ahead seen tree with
  | nil =>
    cases found : following seen tree with
    | none => rfl
    | some entry =>
      have fresh := lawful.ascending seen tree entry found
      obtain ⟨met, member, bound⟩ := lawful.present seen tree entry found
      have here : tree[entry.1]? = some entry.2 := by
        rcases List.mem_append.mp member with earlier | last
        · rw [← alone met earlier entry.1 fresh, bound]
        · rw [← List.mem_singleton.mp last, bound]
      have listed : entry ∈ ahead seen tree := mem_ahead.mpr ⟨here, fresh⟩
      rw [split] at listed
      cases listed
  | cons first rest =>
    obtain ⟨entry, found, least⟩ := everywhere first.1 first.2 (by rw [split]; exact List.mem_cons_self)
    have fresh := lawful.ascending seen tree entry found
    obtain ⟨met, member, bound⟩ := lawful.present seen tree entry found
    have here : tree[entry.1]? = some entry.2 := by
      rcases List.mem_append.mp member with earlier | last
      · rw [← alone met earlier entry.1 fresh, bound]
      · rw [← List.mem_singleton.mp last, bound]
    have listed : entry ∈ first :: rest := by
      rw [← split]
      exact mem_ahead.mpr ⟨here, fresh⟩
    rw [found, List.head?_cons]
    rcases List.mem_cons.mp listed with same | later
    · rw [same]
    · have ordered := (OrderedMap.toList_sorted tree).filter (fun entry => !passed seen entry.1)
      rw [← ahead, split, List.pairwise_cons] at ordered
      exact absurd (ordered.1 entry later) least

theorem ahead_snoc {entry : K × V} {rest : List (K × V)} (split : ahead seen tree = entry :: rest)
    (found : following seen tree = some entry) : ahead (seen ++ [tree]) tree = rest := by
  have ordered := (OrderedMap.toList_sorted tree).filter (fun entry => !passed seen entry.1)
  rw [← ahead, split, List.pairwise_cons] at ordered
  have onward : ahead (seen ++ [tree]) tree = (ahead seen tree).filter (fun other => cmp entry.1 other.1 = .lt) := by
    rw [ahead, ahead, List.filter_filter]
    apply List.filter_congr
    intro other _
    rw [passed_snoc, found]
    simp [Bool.and_comm]
  rw [onward, split, List.filter_cons_of_neg (by simp [ReflCmp.compare_self]), List.filter_eq_self]
  exact fun other member => decide_eq_true (ordered.1 other member)

theorem Lawful.onward (lawful : Lawful K V cmp) {key : K} {value : V}
    (everywhere : ∀ met ∈ seen ++ [tree], met[key]? = some value) (fresh : passed seen key = false) :
    following seen tree = some (key, value) ∨
      ∃ entry, following seen tree = some entry ∧ passed (seen ++ [tree]) key = false := by
  obtain ⟨entry, found, least⟩ := lawful.complete seen tree key value everywhere fresh
  cases order : cmp key entry.1 with
  | lt => exact absurd order least
  | eq =>
    left
    have same : key = entry.1 := LawfulEqCmp.eq_of_compare order
    obtain ⟨met, member, bound⟩ := lawful.present seen tree entry found
    rw [← same, everywhere met member] at bound
    rw [found, same, Option.some.inj bound]
  | gt =>
    right
    refine ⟨entry, found, ?_⟩
    have before : cmp entry.1 key = .lt := OrientedCmp.lt_of_gt order
    simp [passed_snoc, fresh, found, before]

variable [DecidableEq K]

theorem ahead_erase {key : K} (behind : passed seen key = true) : ahead seen (tree.erase key) = ahead seen tree := by
  rw [ahead, ahead, OrderedMap.toList_erase, List.filter_filter]
  apply List.filter_congr
  intro entry _
  by_cases same : entry.1 = key
  · simp [same, behind]
  · simp [same]

end Alone

section Leaf

variable [TransCmp cmp]

def leafNext (cached : Option (List (K × V))) (tree : ExtTreeMap K V cmp) : Option (K × V) × Option (List (K × V)) :=
  let left := cached.getD tree.toList
  (left.head?, some left.tail)

variable (K V cmp) in
/-- A tree that fits one leaf: the first read caches it, and the others go on through what is cached. -/
@[reducible] def oneLeaf : TreeIter K V cmp where
  Cursor := Option (List (K × V))
  iter := none
  next := leafNext

theorem leaf_reached (first : ExtTreeMap K V cmp) (rest : List (ExtTreeMap K V cmp)) :
    final leafNext none (first :: rest) = some (first.toList.drop (rest.length + 1)) := by
  induction rest using List.reverseRecOn with
  | nil => simp [leafNext]
  | append_singleton rest last ih =>
    rw [← List.cons_append, final_snoc, ih]
    simp [leafNext]

theorem leaf_following (seen : List (ExtTreeMap K V cmp)) (tree : ExtTreeMap K V cmp) :
    ∃ met ∈ seen ++ [tree], ∀ place ≤ seen.length,
      (outputs leafNext none (seen ++ [tree]))[place]? = some met.toList[place]? := by
  have each : ∀ (first : ExtTreeMap K V cmp) (rest : List (ExtTreeMap K V cmp)), ∀ place ≤ rest.length,
      (outputs leafNext none (first :: rest))[place]? = some first.toList[place]? := by
    intro first rest
    induction rest using List.reverseRecOn with
    | nil =>
      intro place within
      rw [Nat.le_zero.mp within]
      simp [outputs, trace, taken, leafNext, List.head?_eq_getElem?]
    | append_singleton rest last ih =>
      intro place within
      have size : (outputs leafNext none (first :: rest)).length = rest.length + 1 := by simp [outputs]
      have snoc : outputs leafNext none (first :: (rest ++ [last])) =
          outputs leafNext none (first :: rest) ++ [first.toList[rest.length + 1]?] := by
        rw [outputs, ← List.cons_append, trace_snoc, List.map_append, ← outputs, leaf_reached]
        simp [taken, leafNext, List.head?_drop]
      rw [snoc]
      by_cases earlier : place ≤ rest.length
      · rw [List.getElem?_append_left (by omega)]
        exact ih place earlier
      · have here : place = rest.length + 1 := by
          rw [List.length_append, List.length_singleton] at within
          omega
        rw [here, List.getElem?_append_right (by omega), size]
        simp
  cases seen with
  | nil => exact ⟨tree, by simp, each tree []⟩
  | cons first rest =>
    refine ⟨first, by simp, ?_⟩
    intro place within
    rw [List.cons_append]
    apply each first (rest ++ [tree]) place
    rw [List.length_append, List.length_singleton]
    exact within

theorem leaf_scan (seen : List (ExtTreeMap K V cmp)) (tree : ExtTreeMap K V cmp) : ∃ met ∈ seen ++ [tree],
    (leafNext (final leafNext none seen) tree).1 = met.toList[seen.length]? ∧
      ∀ key, ((outputs leafNext none seen).any (·.any (fun entry => cmp entry.1 key ≠ .lt)) = false ↔
        ∀ place < seen.length, ∀ entry, met.toList[place]? = some entry → cmp entry.1 key = .lt) := by
  obtain ⟨met, member, each⟩ := leaf_following seen tree
  have size : (outputs leafNext none seen).length = seen.length := by simp [outputs]
  have snoc : outputs leafNext none (seen ++ [tree]) =
      outputs leafNext none seen ++ [(leafNext (final leafNext none seen) tree).1] := by
    rw [outputs, trace_snoc, List.map_append]
    rfl
  have earlier : ∀ place < seen.length, (outputs leafNext none seen)[place]? = some met.toList[place]? := by
    intro place within
    have here := each place within.le
    rwa [snoc, List.getElem?_append_left (by omega)] at here
  refine ⟨met, member, ?_, ?_⟩
  · have last := each seen.length le_rfl
    rw [snoc, List.getElem?_append_right (by omega), size, Nat.sub_self] at last
    exact Option.some.inj last
  · intro key
    rw [List.any_eq_false]
    constructor
    · intro fresh place within entry found
      have before := fresh _ (List.mem_of_getElem? (earlier place within))
      rw [found] at before
      simpa using before
    · intro before yielded listed
      obtain ⟨place, bound, same⟩ := List.getElem_of_mem listed
      have within : place < seen.length := size ▸ bound
      have here := earlier place within
      rw [List.getElem?_eq_getElem bound, same] at here
      rw [Option.some.inj here]
      cases held : met.toList[place]? with
      | none => simp
      | some entry => simp [before place within entry held]

theorem oneLeaf_lawful [LawfulEqCmp cmp] : @Lawful K V cmp _ (oneLeaf K V cmp) := by
  refine @Lawful.mk K V cmp _ (oneLeaf K V cmp) ?_ ?_ ?_
  · intro seen tree entry found
    obtain ⟨met, _, here, behind⟩ := leaf_scan seen tree
    have read : met.toList[seen.length]? = some entry := here.symm.trans found
    apply (behind entry.1).mpr
    intro place within other listed
    obtain ⟨low, rfl⟩ := List.getElem?_eq_some_iff.mp listed
    obtain ⟨high, rfl⟩ := List.getElem?_eq_some_iff.mp read
    exact List.pairwise_iff_getElem.mp (OrderedMap.toList_sorted met) place seen.length low high within
  · intro seen tree entry found
    obtain ⟨met, member, here, _⟩ := leaf_scan seen tree
    have read : met.toList[seen.length]? = some entry := here.symm.trans found
    exact ⟨met, member, OrderedMap.mem_toList.mp (List.mem_of_getElem? read)⟩
  · intro seen tree key value everywhere fresh
    obtain ⟨met, member, here, behind⟩ := leaf_scan seen tree
    have listed : (key, value) ∈ met.toList := OrderedMap.mem_toList.mpr (everywhere met member)
    obtain ⟨place, bound, same⟩ := List.getElem_of_mem listed
    have later : seen.length ≤ place := by
      by_contra early
      have before := (behind key).mp fresh place (Nat.not_le.mp early) (key, value)
        (List.getElem?_eq_some_iff.mpr ⟨bound, same⟩)
      have same : cmp key key = .lt := before
      rw [@ReflCmp.compare_self _ cmp] at same
      cases same
    have inside : seen.length < met.toList.length := Nat.lt_of_le_of_lt later bound
    refine ⟨met.toList[seen.length], here.trans (List.getElem?_eq_getElem inside), ?_⟩
    intro smaller
    rcases Nat.lt_or_eq_of_le later with beyond | now
    · have ordered := List.pairwise_iff_getElem.mp (OrderedMap.toList_sorted met) seen.length place inside bound beyond
      rw [same] at ordered
      exact OrderedMap.not_lt_both smaller ordered
    · subst now
      rw [same, @ReflCmp.compare_self _ cmp] at smaller
      cases smaller

end Leaf

end TreeIter
