import Mathlib

/-! Token buckets in exact arithmetic: tokens flow in at a rate, up to the burst, and an admission costs one. -/

namespace TokenBucket

variable {K : Type} [Field K] [LinearOrder K]

structure Level (K : Type) where
  tokens : K
  counted : K

def refill (rate burst : K) (level : Level K) (now : K) : K :=
  min (level.tokens + max 0 (now - level.counted) * rate) burst

def charge (rate burst : K) (level : Level K) (now : K) : Level K := ⟨refill rate burst level now - 1, now⟩

/-- Between any two of the times, no more of them than the burst and the inflow allow. -/
def Conforming (rate burst : K) (times : List K) : Prop :=
  ∀ (i j : Nat) (_ : i ≤ j) (inside : j < times.length),
    ((j + 1 - i : Nat) : K) ≤ burst + rate * (times[j] - times[i])

/-- The level after an admission at each of the times: the least of what is left when the bucket is
    taken to be full at one of them. -/
structure Spent (rate burst : K) (times : List K) (level : Level K) : Prop where
  last : times.getLast? = some level.counted
  least : ∀ x, x ≤ level.tokens ↔ ∀ (i : Nat) (inside : i < times.length),
    x + ((times.length - i : Nat) : K) ≤ burst + rate * (level.counted - times[i])

variable {rate burst : K}

theorem conforming_nil : Conforming rate burst [] := by
  intro i j _ inside
  cases inside

theorem conforming_snoc {times : List K} {now : K} :
    Conforming rate burst (times ++ [now]) ↔ Conforming rate burst times ∧
      ∀ (i : Nat) (inside : i < (times ++ [now]).length),
        ((times.length + 1 - i : Nat) : K) ≤ burst + rate * (now - (times ++ [now])[i]) := by
  constructor
  · intro conforming
    constructor
    · intro i j ordered inside
      have both := conforming i j ordered (by simp; omega)
      rwa [List.getElem_append_left inside, List.getElem_append_left (by omega)] at both
    · intro i inside
      have ordered : i ≤ times.length := by
        rw [List.length_append, List.length_singleton] at inside
        omega
      simpa using conforming i times.length ordered (by simp)
  · rintro ⟨before, latest⟩ i j ordered inside
    by_cases earlier : j < times.length
    · rw [List.getElem_append_left earlier, List.getElem_append_left (by omega)]
      exact before i j ordered earlier
    · have newest : j = times.length := by
        rw [List.length_append, List.length_singleton] at inside
        omega
      subst newest
      simpa using latest i (by omega)

theorem conforming_singleton {now : K} : Conforming rate burst [now] ↔ 1 ≤ burst := by
  constructor
  · intro conforming
    simpa using conforming 0 0 le_rfl (by simp)
  · intro full i j ordered inside
    have zero : j = 0 := by simpa using inside
    subst zero
    have zero : i = 0 := by omega
    subst zero
    simpa using full

variable [IsStrictOrderedRing K]

theorem spent_first (now : K) : Spent rate burst [now] ⟨burst - 1, now⟩ := by
  refine ⟨rfl, ?_⟩
  intro x
  constructor
  · intro below i inside
    have zero : i = 0 := by simpa using inside
    subst zero
    simpa using le_sub_iff_add_le.mp below
  · intro bounds
    have bound := bounds 0 (by simp)
    simpa [le_sub_iff_add_le] using bound

theorem Spent.le_refill {times : List K} {level : Level K} {now : K} (spent : Spent rate burst times level)
    (later : level.counted ≤ now) (x : K) :
    x ≤ refill rate burst level now ↔ ∀ (i : Nat) (inside : i < (times ++ [now]).length),
      x + ((times.length - i : Nat) : K) ≤ burst + rate * (now - (times ++ [now])[i]) := by
  have flow : max 0 (now - level.counted) = now - level.counted := max_eq_right (sub_nonneg.mpr later)
  rw [refill, flow, le_min_iff, ← sub_le_iff_le_add, spent.least]
  constructor
  · rintro ⟨starts, full⟩ i inside
    by_cases earlier : i < times.length
    · have start := starts i earlier
      rw [List.getElem_append_left earlier]
      linarith
    · have newest : i = times.length := by
        rw [List.length_append, List.length_singleton] at inside
        omega
      subst newest
      simpa using full
  · intro starts
    constructor
    · intro i inside
      have start := starts i (by rw [List.length_append]; omega)
      rw [List.getElem_append_left inside] at start
      linarith
    · simpa using starts times.length (by simp)

theorem Spent.charge {times : List K} {level : Level K} {now : K} (spent : Spent rate burst times level)
    (later : level.counted ≤ now) : Spent rate burst (times ++ [now]) (charge rate burst level now) := by
  refine ⟨by simp [TokenBucket.charge], ?_⟩
  intro x
  rw [TokenBucket.charge, le_sub_iff_add_le, spent.le_refill later]
  apply forall₂_congr
  intro i inside
  rw [List.length_append, List.length_singleton] at inside
  rw [List.length_append, List.length_singleton, show times.length + 1 - i = (times.length - i) + 1 by omega]
  push_cast
  rw [add_right_comm, add_assoc]

/-- An admission at a further time keeps the traffic conforming exactly when a token is there. -/
theorem Spent.conforming_iff {times : List K} {level : Level K} {now : K} (spent : Spent rate burst times level)
    (later : level.counted ≤ now) (conforming : Conforming rate burst times) :
    Conforming rate burst (times ++ [now]) ↔ 1 ≤ refill rate burst level now := by
  rw [conforming_snoc, spent.le_refill later, and_iff_right conforming]
  apply forall₂_congr
  intro i inside
  rw [List.length_append, List.length_singleton] at inside
  rw [show times.length + 1 - i = (times.length - i) + 1 by omega]
  push_cast
  rw [add_comm]

section Accounts

variable {level : Level K} {now : K}

theorem refill_le (later : level.counted ≤ now) :
    refill rate burst level now ≤ level.tokens + rate * (now - level.counted) := by
  apply (min_le_left _ _).trans
  rw [max_eq_right (sub_nonneg.mpr later), mul_comm]

theorem refill_nonneg (positive : 0 ≤ rate) (full : 0 ≤ burst) (tokens : 0 ≤ level.tokens) :
    0 ≤ refill rate burst level now :=
  le_min (add_nonneg tokens (mul_nonneg (le_max_left _ _) positive)) full

theorem one_le_refill (fast : 1 ≤ rate) (full : 1 ≤ burst) (tokens : 0 ≤ level.tokens)
    (waited : level.counted + 1 ≤ now) :
    1 ≤ refill rate burst level now := by
  apply le_min _ full
  have elapsed : 1 ≤ max 0 (now - level.counted) := le_max_of_le_right (le_sub_iff_add_le'.mpr waited)
  have inflow := one_le_mul_of_one_le_of_one_le elapsed fast
  linarith

end Accounts

end TokenBucket
