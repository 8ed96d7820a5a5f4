import EnigmaRelay.Foundation.Text

/-! The hyphenated lower-case text of a 128-bit identifier. -/

open FixedWidth

namespace Rfc4122

def hexByte (digit : Nat) : UInt8 := Text.octet (Nat.digitChar digit)

def hyphens : List Nat := [8, 13, 18, 23]

def hyphenated (id : BitVec 128) : Bytes :=
  hyphens.foldl (fun text place => text.insertIdx place (Text.octet '-')) ((digits 16 32 id.toNat).map hexByte)

theorem compare_insertIdx (x y : Bytes) (place : Nat) (separator : UInt8) (same : x.length = y.length)
    (inside : place ≤ x.length) : compare (x.insertIdx place separator) (y.insertIdx place separator) = compare x y := by
  induction place generalizing x y with
  | zero => exact compare_append_left [separator] x y
  | succ place ih =>
    cases x with
    | nil => simp at inside
    | cons a x =>
      cases y with
      | nil => simp at same
      | cons b y =>
        have inner := ih x y (by simpa using same) (by simpa using inside)
        rw [List.insertIdx_succ_cons, List.insertIdx_succ_cons, compare_cons, compare_cons, inner]

theorem compare_hyphens (places : List Nat) (x y : Bytes) (same : x.length = y.length)
    (inside : ∀ place ∈ places, place ≤ x.length) :
    compare (places.foldl (fun text place => text.insertIdx place (Text.octet '-')) x)
      (places.foldl (fun text place => text.insertIdx place (Text.octet '-')) y) = compare x y := by
  induction places generalizing x y with
  | nil => rfl
  | cons place rest ih =>
    have here := inside place (by simp)
    have there : place ≤ y.length := same ▸ here
    rw [List.foldl_cons, List.foldl_cons, ih, compare_insertIdx x y place _ same here]
    · simp [List.length_insertIdx, there, same]
    · intro later member
      have bound := inside later (List.mem_cons_of_mem _ member)
      rw [List.length_insertIdx, if_pos here]
      omega

theorem hexByte_ordered (a b : Nat) (below : a < b) (bound : b < 16) : compare (hexByte a) (hexByte b) = .lt := by
  interval_cases b <;> interval_cases a <;> decide

theorem hyphenated_ordered (a b : BitVec 128) (below : a.toNat < b.toNat) :
    compare (hyphenated a) (hyphenated b) = .lt := by
  have places : ∀ place ∈ hyphens, place ≤ ((digits 16 32 a.toNat).map hexByte).length := by
    simp [hyphens]
  rw [hyphenated, hyphenated, compare_hyphens _ _ _ (by simp) places]
  have ordered := compare_digits hexByte (by decide) hexByte_ordered below (show b.toNat < 16 ^ 32 from b.isLt) [] []
  simpa only [List.append_nil] using ordered

theorem hyphenated_length (id : BitVec 128) : (hyphenated id).length = 36 := by
  simp [hyphenated, hyphens, List.length_insertIdx]

theorem hyphenated_plain (id : BitVec 128) : Text.octet ':' ∉ hyphenated id := by
  have digit : ∀ d : Fin 16, hexByte d ≠ Text.octet ':' := by decide
  have dash : Text.octet ':' ≠ Text.octet '-' := by decide
  have start : Text.octet ':' ∉ (digits 16 32 id.toNat).map hexByte := by
    rw [List.mem_map]
    rintro ⟨d, member, same⟩
    exact digit ⟨d, digits_below (by decide) member⟩ same
  have keep : ∀ (text : Bytes) (place : Nat), Text.octet ':' ∉ text →
      Text.octet ':' ∉ text.insertIdx place (Text.octet '-') := by
    intro text place absent member
    by_cases inside : place ≤ text.length
    · rcases (List.mem_insertIdx inside).mp member with same | member
      · exact dash same
      · exact absent member
    · rw [List.insertIdx_of_length_lt (by omega)] at member
      exact absent member
  simp only [hyphenated, hyphens, List.foldl_cons, List.foldl_nil]
  exact keep _ _ (keep _ _ (keep _ _ (keep _ _ start)))

end Rfc4122
