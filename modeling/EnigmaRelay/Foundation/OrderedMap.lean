import Mathlib

open Std

namespace OrderedMap

variable {K V : Type} {cmp : K → K → Ordering} [TransCmp cmp] [LawfulEqCmp cmp] [DecidableEq K]

theorem getElem?_insert (map : ExtTreeMap K V cmp) (key at_ : K) (value : V) :
    (map.insert key value)[at_]? = if key = at_ then some value else map[at_]? := by
  simp only [ExtTreeMap.getElem?_insert, LawfulEqCmp.compare_eq_iff_eq]

theorem getElem?_erase (map : ExtTreeMap K V cmp) (key at_ : K) :
    (map.erase key)[at_]? = if key = at_ then none else map[at_]? := by
  simp only [ExtTreeMap.getElem?_erase, LawfulEqCmp.compare_eq_iff_eq]

omit [LawfulEqCmp cmp] [DecidableEq K] in
@[simp] theorem toList_empty : (∅ : ExtTreeMap K V cmp).toList = [] :=
  ExtTreeMap.toList_eq_nil_iff.mpr rfl

omit [DecidableEq K] in
theorem mem_toList {map : ExtTreeMap K V cmp} {entry : K × V} :
    entry ∈ map.toList ↔ map[entry.1]? = some entry.2 :=
  ExtTreeMap.mem_toList_iff_getElem?_eq_some (k := entry.1) (v := entry.2)

omit [LawfulEqCmp cmp] [DecidableEq K] in
theorem toList_sorted (map : ExtTreeMap K V cmp) :
    map.toList.Pairwise (fun a b => cmp a.1 b.1 = .lt) :=
  ExtTreeMap.ordered_keys_toList

omit [LawfulEqCmp cmp] [DecidableEq K] in
theorem not_lt_both {a b : K} (forward : cmp a b = .lt) (backward : cmp b a = .lt) : False := by
  have turned : cmp b a = (cmp a b).swap := OrientedCmp.eq_swap
  rw [forward, backward] at turned
  cases turned

omit [LawfulEqCmp cmp] [DecidableEq K] in
theorem keys_distinct (map : ExtTreeMap K V cmp) : map.toList.Pairwise (fun a b => a.1 ≠ b.1) := by
  apply (toList_sorted map).imp
  intro a b below same
  rw [same] at below
  exact not_lt_both below below

omit [LawfulEqCmp cmp] [DecidableEq K] in
theorem toList_nodup (map : ExtTreeMap K V cmp) : map.toList.Nodup :=
  (keys_distinct map).imp (fun apart same => apart (congrArg Prod.fst same))

omit [LawfulEqCmp cmp] [DecidableEq K] in
theorem sorted_unique {α : Type} {key : α → K} {left right : List α}
    (leftSorted : left.Pairwise (fun a b => cmp (key a) (key b) = .lt))
    (rightSorted : right.Pairwise (fun a b => cmp (key a) (key b) = .lt))
    (same : ∀ item, item ∈ left ↔ item ∈ right) : left = right := by
  have distinct : ∀ {items : List α}, items.Pairwise (fun a b => cmp (key a) (key b) = .lt) → items.Nodup := by
    intro items sorted
    refine sorted.imp ?_
    rintro a b below rfl
    exact not_lt_both below below
  have permuted : left.Perm right := (List.perm_ext_iff_of_nodup (distinct leftSorted) (distinct rightSorted)).mpr same
  refine permuted.eq_of_pairwise ?_ leftSorted rightSorted
  intro a b _ _ forward backward
  exact (not_lt_both forward backward).elim

omit [DecidableEq K] in
theorem toList_unique (map : ExtTreeMap K V cmp) (entries : List (K × V))
    (sorted : entries.Pairwise (fun a b => cmp a.1 b.1 = .lt))
    (binds : ∀ entry, entry ∈ entries ↔ map[entry.1]? = some entry.2) : map.toList = entries :=
  sorted_unique (toList_sorted map) sorted (fun entry => mem_toList.trans (binds entry).symm)

omit [DecidableEq K] in
theorem eq_of_toList {first second : ExtTreeMap K V cmp} (same : first.toList = second.toList) : first = second := by
  apply ExtTreeMap.ext_getElem?
  intro key
  apply Option.ext
  intro value
  have left : (key, value) ∈ first.toList ↔ first[key]? = some value := mem_toList
  have right : (key, value) ∈ second.toList ↔ second[key]? = some value := mem_toList
  rw [← left, ← right, same]

omit [DecidableEq K] in
theorem getElem?_of_toList_filter {before after : ExtTreeMap K V cmp} {keep : K × V → Bool}
    (left : after.toList = before.toList.filter keep) (key : K) :
    after[key]? = (before[key]?).filter (fun value => keep (key, value)) := by
  apply Option.ext
  intro value
  have listed : (key, value) ∈ after.toList ↔ after[key]? = some value := mem_toList
  have bound : (key, value) ∈ before.toList ↔ before[key]? = some value := mem_toList
  rw [← listed, left, List.mem_filter, bound, Option.filter_eq_some_iff]

theorem toList_erase (map : ExtTreeMap K V cmp) (key : K) :
    (map.erase key).toList = map.toList.filter (fun entry => entry.1 ≠ key) := by
  apply toList_unique
  · exact (toList_sorted map).filter _
  · intro entry
    rw [List.mem_filter, mem_toList, getElem?_erase]
    by_cases same : key = entry.1
    · simp [same]
    · simp [same, Ne.symm same]

theorem toList_insert_last (map : ExtTreeMap K V cmp) (key : K) (value : V)
    (above : ∀ entry ∈ map.toList, cmp entry.1 key = .lt) :
    (map.insert key value).toList = map.toList ++ [(key, value)] := by
  apply toList_unique
  · rw [List.pairwise_append]
    refine ⟨toList_sorted map, List.pairwise_singleton _ _, ?_⟩
    intro a member b last
    rw [List.mem_singleton] at last
    subst last
    exact above a member
  · intro entry
    rw [List.mem_append, mem_toList, getElem?_insert, List.mem_singleton]
    by_cases same : key = entry.1
    · have absent : map[entry.1]? ≠ some entry.2 := by
        intro bound
        have below := above entry (mem_toList.mpr bound)
        rw [← same] at below
        exact not_lt_both below below
      rw [if_pos same]
      constructor
      · rintro (bound | rfl)
        · exact absurd bound absent
        · rfl
      · intro bound
        right
        exact Prod.ext same.symm (Option.some.inj bound).symm
    · simp only [same, if_false, or_iff_left_iff_imp]
      rintro rfl
      exact absurd rfl same

theorem toList_insert_perm (map : ExtTreeMap K V cmp) (key : K) (value : V) (absent : map[key]? = none) :
    (map.insert key value).toList.Perm ((key, value) :: map.toList) := by
  have missing : (key, value) ∉ map.toList := by simp [mem_toList, absent]
  rw [List.perm_ext_iff_of_nodup (toList_nodup _) (List.nodup_cons.mpr ⟨missing, toList_nodup map⟩)]
  intro entry
  rw [mem_toList, getElem?_insert, List.mem_cons, mem_toList]
  by_cases same : key = entry.1
  · subst same
    simp [absent, Prod.ext_iff, eq_comm]
  · simp only [same, if_false]
    constructor
    · exact .inr
    · rintro (rfl | bound)
      · exact absurd rfl same
      · exact bound

theorem toList_erase_perm (map : ExtTreeMap K V cmp) (key : K) (value : V) (bound : map[key]? = some value) :
    map.toList.Perm ((key, value) :: (map.erase key).toList) := by
  have restored : (map.erase key).insert key value = map := by
    apply ExtTreeMap.ext_getElem?
    intro other
    rw [getElem?_insert, getElem?_erase]
    split
    · rename_i same
      rw [← same, bound]
    · rfl
  have absent : (map.erase key)[key]? = none := by simp
  have permuted := toList_insert_perm (map.erase key) key value absent
  rwa [restored] at permuted

theorem erase_comm (map : ExtTreeMap K V cmp) (a b : K) :
    (map.erase a).erase b = (map.erase b).erase a := by
  apply ExtTreeMap.ext_getElem?
  intro key
  simp only [getElem?_erase]
  split <;> split <;> rfl

theorem erase_of_none (map : ExtTreeMap K V cmp) (key : K) (absent : map[key]? = none) :
    map.erase key = map := by
  apply ExtTreeMap.ext_getElem?
  intro other
  rw [getElem?_erase]
  split
  · rename_i same
    rw [← same, absent]
  · rfl

theorem insert_of_some (map : ExtTreeMap K V cmp) (key : K) (value : V) (bound : map[key]? = some value) :
    map.insert key value = map := by
  apply ExtTreeMap.ext_getElem?
  intro other
  rw [getElem?_insert]
  split
  · rename_i same
    rw [← same, bound]
  · rfl

end OrderedMap

/-! Maps that lose dead bindings and nothing else: whoever looks at the living ones sees no difference. -/

namespace Shedding

variable {K V : Type} {cmp : K → K → Ordering} [TransCmp cmp]

structure Sheds (dead : V → Prop) (before after : ExtTreeMap K V cmp) : Prop where
  part : ∀ (key : K) (value : V), after[key]? = some value → before[key]? = some value
  rest : ∀ (key : K) (value : V), before[key]? = some value → ¬ dead value → after[key]? = some value

variable {dead : V → Prop} {before after : ExtTreeMap K V cmp}

theorem Sheds.refl (map : ExtTreeMap K V cmp) : Sheds dead map map :=
  ⟨fun _ _ bound => bound, fun _ _ bound _ => bound⟩

theorem Sheds.mono {stale : V → Prop} (sheds : Sheds dead before after) (wider : ∀ value, dead value → stale value) :
    Sheds stale before after :=
  ⟨sheds.part, fun key value bound alive => sheds.rest key value bound (fun gone => alive (wider value gone))⟩

variable [LawfulEqCmp cmp]

/-- What holds of living bindings alone selects the same ones before and after. -/
theorem Sheds.toList_filter (sheds : Sheds dead before after) {keep : K × V → Bool}
    (living : ∀ entry, keep entry = true → ¬ dead entry.2) : after.toList.filter keep = before.toList.filter keep := by
  apply OrderedMap.sorted_unique ((OrderedMap.toList_sorted after).filter _) ((OrderedMap.toList_sorted before).filter _)
  intro entry
  rw [List.mem_filter, List.mem_filter, OrderedMap.mem_toList, OrderedMap.mem_toList]
  constructor
  · rintro ⟨bound, kept⟩
    exact ⟨sheds.part _ _ bound, kept⟩
  · rintro ⟨bound, kept⟩
    exact ⟨sheds.rest _ _ bound (living entry kept), kept⟩

end Shedding

/-- The order in which a hash table yields its elements: any rearrangement of them. -/
structure IterationOrder (α : Type) where
  arrange : List α → List α
  arranged : ∀ items, (arrange items).Perm items

namespace IterationOrder

variable {α β : Type}

def asListed : IterationOrder α := ⟨id, List.Perm.refl⟩

theorem mem_arrange (order : IterationOrder α) {items : List α} {item : α} :
    item ∈ order.arrange items ↔ item ∈ items := (order.arranged items).mem_iff

theorem nodup_arrange (order : IterationOrder α) {items : List α} (distinct : items.Nodup) :
    (order.arrange items).Nodup := (order.arranged items).nodup_iff.mpr distinct

/-- A fold whose steps commute does not see the iteration order. -/
theorem foldl_arrange (order order' : IterationOrder α) (update : β → α → β)
    (commute : ∀ state a b, update (update state a) b = update (update state b) a) (items : List α) (start : β) :
    (order.arrange items).foldl update start = (order'.arrange items).foldl update start := by
  have permuted := (order.arranged items).trans (order'.arranged items).symm
  exact permuted.foldl_eq' (fun a _ b _ state => commute state a b) start

end IterationOrder
