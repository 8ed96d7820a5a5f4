import Mathlib

open Std

namespace FixedWidth

def digits (base : Nat) : Nat → Nat → List Nat
  | 0, _ => []
  | width + 1, n => digits base width (n / base) ++ [n % base]

@[simp] theorem digits_length (base width n : Nat) : (digits base width n).length = width := by
  induction width generalizing n with
  | zero => rfl
  | succ width ih => simp [digits, ih]

theorem digits_below {base width n digit : Nat} (positive : 0 < base) (member : digit ∈ digits base width n) :
    digit < base := by
  induction width generalizing n with
  | zero => simp [digits] at member
  | succ width ih =>
    rcases List.mem_append.mp member with earlier | last
    · exact ih earlier
    · rw [List.mem_singleton.mp last]
      exact Nat.mod_lt n positive

theorem quotient_bound {base width n : Nat} (bound : n < base ^ (width + 1)) : n / base < base ^ width := by
  rw [Nat.pow_succ, Nat.mul_comm] at bound
  exact Nat.div_lt_of_lt_mul bound

section Order

variable {α : Type} [Ord α] [TransOrd α] [LawfulEqOrd α]

omit [TransOrd α] [LawfulEqOrd α] in
theorem compare_cons (a b : α) (x y : List α) :
    compare (a :: x) (b :: y) = (compare a b).then (compare x y) := by
  simp only [List.compare_eq_compareLex, List.compareLex_cons_cons]

omit [LawfulEqOrd α] in
theorem compare_append_left (start x y : List α) : compare (start ++ x) (start ++ y) = compare x y := by
  induction start with
  | nil => rfl
  | cons head tail ih =>
    have self : compare head head = .eq := ReflCmp.compare_self
    rw [List.cons_append, List.cons_append, compare_cons, self, ih]
    rfl

omit [TransOrd α] [LawfulEqOrd α] in
theorem compare_append_of_lt {start other : List α} (lengths : start.length = other.length)
    (below : compare start other = .lt) (x y : List α) : compare (start ++ x) (other ++ y) = .lt := by
  induction start generalizing other with
  | nil =>
    rw [List.eq_nil_of_length_eq_zero lengths.symm] at below
    cases below
  | cons head tail ih =>
    cases other with
    | nil => cases lengths
    | cons otherHead otherTail =>
      rw [compare_cons, Ordering.then_eq_lt] at below
      rw [List.cons_append, List.cons_append, compare_cons, Ordering.then_eq_lt]
      apply below.imp_right
      intro later
      exact ⟨later.1, ih (Nat.succ.inj lengths) later.2⟩

omit [LawfulEqOrd α] in
theorem compare_digits (symbol : Nat → α) {base width n m : Nat} (positive : 0 < base)
    (monotone : ∀ a b, a < b → b < base → compare (symbol a) (symbol b) = .lt)
    (below : n < m) (bound : m < base ^ width) (x y : List α) :
    compare ((digits base width n).map symbol ++ x) ((digits base width m).map symbol ++ y) = .lt := by
  induction width generalizing n m x y with
  | zero => simp at bound; omega
  | succ width ih =>
    simp only [digits, List.map_append, List.append_assoc]
    by_cases high : n / base < m / base
    · exact ih high (quotient_bound bound) _ _
    · have quotients : n / base = m / base := by
        have := Nat.div_le_div_right (c := base) below.le
        omega
      have remainders : n % base < m % base := by
        have left := Nat.div_add_mod n base
        have right := Nat.div_add_mod m base
        rw [quotients] at left
        omega
      rw [quotients, compare_append_left]
      simp only [List.map_cons, List.map_nil, List.singleton_append, compare_cons,
        monotone _ _ remainders (Nat.mod_lt m positive), Ordering.lt_then]

end Order

end FixedWidth
