import Mathlib

/-! Queues from which due items are taken at the front only. -/

namespace Fronts

variable {α : Type} (due : α → Bool) (items : List α)

/-- The due items that no other item keeps from being taken. -/
def front : List α := items.takeWhile due

/-- The due items that stand behind one that is not due. -/
def behind : List α := (items.dropWhile due).filter due

theorem length_due : (items.filter due).length = (front due items).length + (behind due items).length := by
  have split : items.filter due = front due items ++ behind due items := by
    have all : (items.takeWhile due).filter due = items.takeWhile due :=
      List.filter_eq_self.mpr (List.all_eq_true.mp List.all_takeWhile)
    calc items.filter due = (items.takeWhile due ++ items.dropWhile due).filter due := by
          rw [List.takeWhile_append_dropWhile]
      _ = front due items ++ behind due items := by rw [List.filter_append, all, front, behind]
  rw [split, List.length_append]

variable {due items} {count : Nat}

theorem drop_split (within : count ≤ (front due items).length) :
    (items.drop count).takeWhile due = (front due items).drop count ∧
      (items.drop count).dropWhile due = items.dropWhile due := by
  induction count generalizing items with
  | zero => exact ⟨rfl, rfl⟩
  | succ count ih =>
    cases items with
    | nil => exact absurd within (by simp [front])
    | cons item rest =>
      by_cases first : due item = true
      · have later : count ≤ (front due rest).length := by
          rw [front, List.takeWhile_cons_of_pos first, List.length_cons] at within
          exact Nat.le_of_succ_le_succ within
        obtain ⟨taken, left⟩ := ih later
        rw [List.drop_succ_cons, front, List.takeWhile_cons_of_pos first, List.drop_succ_cons,
          List.dropWhile_cons_of_pos first]
        exact ⟨taken, left⟩
      · rw [front, List.takeWhile_cons_of_neg first] at within
        exact absurd within (by simp)

theorem length_front_drop (within : count ≤ (front due items).length) :
    (front due (items.drop count)).length + count = (front due items).length := by
  rw [front, (drop_split within).1, List.length_drop]
  omega

theorem behind_drop (within : count ≤ (front due items).length) : behind due (items.drop count) = behind due items := by
  rw [behind, behind, (drop_split within).2]

theorem front_le_length : (front due items).length ≤ items.length := (List.takeWhile_sublist due).length_le

theorem front_take (size : Nat) : (front due items).take size = items.take (min size (front due items).length) := by
  obtain ⟨rest, whole⟩ := List.takeWhile_prefix (l := items) due
  have whole : front due items ++ rest = items := whole
  calc (front due items).take size
      = (front due items).take (min size (front due items).length) := by
        rw [List.take_eq_take_iff]
        omega
    _ = (front due items ++ rest).take (min size (front due items).length) :=
        (List.take_append_of_le_length (Nat.min_le_right _ _)).symm
    _ = items.take (min size (front due items).length) := by rw [whole]

end Fronts
