import Mathlib

/-! Pages of a list that is strictly sorted by a key, each page continuing after the last key of the one before. -/

namespace Paging

variable {α : Type} {key : α → Nat} {items : List α}

theorem le_last (sorted : items.Pairwise (fun a b => key a < key b)) {size : Nat} {last : α}
    (ends : (items.take size).getLast? = some last) : ∀ item ∈ items.take size, key item ≤ key last := by
  obtain ⟨front, page⟩ := List.getLast?_eq_some_iff.mp ends
  have ordered := sorted.sublist (List.take_sublist size items)
  rw [page, List.pairwise_append] at ordered
  intro item member
  rw [page, List.mem_append, List.mem_singleton] at member
  rcases member with before | rfl
  · exact (ordered.2.2 item before last (List.mem_singleton_self last)).le
  · exact Nat.le_refl _

theorem beyond_last (sorted : items.Pairwise (fun a b => key a < key b)) {size : Nat} {last : α}
    (ends : (items.take size).getLast? = some last) :
    items.filter (fun item => key last < key item) = items.drop size := by
  have ordered := sorted
  rw [← List.take_append_drop size items, List.pairwise_append] at ordered
  have none : (items.take size).filter (fun item => key last < key item) = [] := by
    rw [List.filter_eq_nil_iff]
    intro item member
    simpa using le_last sorted ends item member
  have all : (items.drop size).filter (fun item => key last < key item) = items.drop size := by
    rw [List.filter_eq_self]
    intro item member
    exact decide_eq_true (ordered.2.2 last (List.mem_of_getLast? ends) item member)
  calc items.filter (fun item => key last < key item)
      = (items.take size ++ items.drop size).filter (fun item => key last < key item) := by
        rw [List.take_append_drop]
    _ = items.drop size := by rw [List.filter_append, none, all, List.nil_append]

theorem page_last {size : Nat} (positive : 0 < size) (full : size < items.length) :
    ∃ last, (items.take size).getLast? = some last ∧ last ∈ items := by
  have filled : items.take size ≠ [] := by
    rw [← List.length_pos_iff, List.length_take]
    omega
  have ends := List.getLast?_eq_some_getLast filled
  exact ⟨_, ends, List.mem_of_mem_take (List.mem_of_getLast? ends)⟩

theorem mem_page_or_beyond (sorted : items.Pairwise (fun a b => key a < key b)) {size : Nat} {last item : α}
    (ends : (items.take size).getLast? = some last) (member : item ∈ items) :
    item ∈ items.take size ∨ key last < key item := by
  rw [← List.take_append_drop size items] at member
  rcases List.mem_append.mp member with here | later
  · exact .inl here
  · right
    rw [← beyond_last sorted ends] at later
    simpa using (List.mem_filter.mp later).2

theorem pages_succ {size total rest : Nat} (positive : 0 < size) (more : size < total)
    (fewer : rest + size ≤ total) :
    max 1 ((rest + size - 1) / size) + 1 ≤ max 1 ((total + size - 1) / size) := by
  have one : 1 ≤ (total - 1) / size := (Nat.le_div_iff_mul_le positive).mpr (by omega)
  have lifted : (total + size - 1) / size = (total - 1) / size + 1 := by
    rw [show total + size - 1 = total - 1 + size by omega, Nat.add_div_right _ positive]
  have shrunk : (rest + size - 1) / size ≤ (total - 1) / size := Nat.div_le_div_right (by omega)
  omega

theorem take_filter_iff {keep : α → Bool} {size : Nat} :
    items.take size = (items.filter keep).take size ↔ ∀ item ∈ items.take size, keep item = true := by
  constructor
  · intro same item member
    rw [same] at member
    exact (List.mem_filter.mp (List.mem_of_mem_take member)).2
  · intro kept
    have page : (items.take size).filter keep = items.take size := List.filter_eq_self.mpr kept
    have whole : items.filter keep = items.take size ++ (items.drop size).filter keep := by
      rw [← page, ← List.filter_append, List.take_append_drop]
    rw [whole]
    rcases Nat.le_total size items.length with long | short
    · rw [List.take_append_of_le_length (by simp [long]), List.take_take, Nat.min_self]
    · rw [List.drop_eq_nil_of_le short, List.filter_nil, List.append_nil, List.take_take, Nat.min_self]

end Paging
