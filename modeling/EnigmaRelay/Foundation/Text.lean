import EnigmaRelay.Foundation.FixedWidth

open FixedWidth

abbrev Bytes := List UInt8

namespace Text

def asBytes (text : String) : Bytes := text.toByteArray.data.toList

def fromUtf8 (bytes : Bytes) : Option String := String.fromUTF8? ⟨bytes.toArray⟩

@[simp] theorem fromUtf8_asBytes (text : String) : fromUtf8 (asBytes text) = some text := by
  have whole : (⟨(asBytes text).toArray⟩ : ByteArray) = text.toByteArray := by
    simp [asBytes]
  rw [fromUtf8, whole, String.fromUTF8?, dif_pos text.isValidUTF8]
  rfl

theorem asBytes_injective {left right : String} (same : asBytes left = asBytes right) : left = right := by
  have decoded := congrArg fromUtf8 same
  rw [fromUtf8_asBytes, fromUtf8_asBytes] at decoded
  exact Option.some.inj decoded

@[simp] theorem asBytes_append (left right : String) :
    asBytes (left ++ right) = asBytes left ++ asBytes right := by
  simp [asBytes, String.toByteArray_append]

theorem asBytes_eq (text : String) : asBytes text = text.toList.flatMap String.utf8EncodeChar := by
  rw [asBytes, ← String.utf8Encode_toList, List.utf8Encode, List.toList_data_toByteArray]

theorem length_le_asBytes (text : String) : text.toList.length ≤ (asBytes text).length := by
  rw [asBytes_eq]
  induction text.toList with
  | nil => exact Nat.le_refl 0
  | cons c chars ih =>
    have occupied := c.utf8Size_pos
    rw [List.flatMap_cons, List.length_append, String.length_utf8EncodeChar, List.length_cons]
    omega

def octet (c : Char) : UInt8 := UInt8.ofNat c.toNat

theorem utf8EncodeChar_ascii (c : Char) (ascii : c.toNat < 128) : String.utf8EncodeChar c = [octet c] := by
  have small : c.val.toNat ≤ 127 := Nat.le_of_lt_succ ascii
  rw [String.utf8EncodeChar, if_pos small]
  rfl

theorem asBytes_ascii (chars : List Char) (ascii : ∀ c ∈ chars, c.toNat < 128) :
    asBytes (String.ofList chars) = chars.map octet := by
  rw [asBytes_eq, String.toList_ofList]
  induction chars with
  | nil => rfl
  | cons head tail ih =>
    rw [List.flatMap_cons, utf8EncodeChar_ascii head (ascii head (by simp)),
      ih (fun c member => ascii c (List.mem_cons_of_mem _ member))]
    rfl

theorem octet_of_small_byte (c : Char) (byte : UInt8) (small : byte.toNat < 128)
    (member : byte ∈ String.utf8EncodeChar c) : byte.toNat = c.toNat := by
  rw [String.utf8EncodeChar] at member
  change byte ∈ (if c.toNat ≤ 127 then _ else _) at member
  split at member
  · rename_i ascii
    rw [List.mem_singleton.mp member, UInt8.toNat_ofNat']
    exact Nat.mod_eq_of_lt (Nat.lt_of_le_of_lt ascii (by decide))
  · -- every byte of a longer encoding has its top bit set
    exfalso
    split at member
    · simp only [List.mem_cons, List.not_mem_nil, or_false] at member
      rcases member with rfl | rfl <;> simp only [UInt8.toNat_ofNat'] at small <;> omega
    · split at member
      · simp only [List.mem_cons, List.not_mem_nil, or_false] at member
        rcases member with rfl | rfl | rfl <;> simp only [UInt8.toNat_ofNat'] at small <;> omega
      · simp only [List.mem_cons, List.not_mem_nil, or_false] at member
        rcases member with rfl | rfl | rfl | rfl <;> simp only [UInt8.toNat_ofNat'] at small <;> omega

theorem octet_mem_asBytes (text : String) (c : Char) (ascii : c.toNat < 128) :
    octet c ∈ asBytes text ↔ c ∈ text.toList := by
  have value : (octet c).toNat = c.toNat := by
    simp only [octet, UInt8.toNat_ofNat']
    exact Nat.mod_eq_of_lt (by omega)
  rw [asBytes_eq, List.mem_flatMap]
  constructor
  · rintro ⟨source, present, encoded⟩
    have codes := octet_of_small_byte source (octet c) (by omega) encoded
    have same : source = c := by
      apply Char.toNat_inj.mp
      omega
    exact same ▸ present
  · intro present
    refine ⟨c, present, ?_⟩
    rw [utf8EncodeChar_ascii c ascii]
    exact List.mem_singleton_self _

/-- `{:0width}`: decimal digits, padded with zeros to at least `width` of them. -/
def zeroPadded (width n : Nat) : String :=
  String.ofList (List.replicate (width - (Nat.toDigits 10 n).length) '0' ++ Nat.toDigits 10 n)

theorem zeroPadded_digits (width n : Nat) (bound : n < 10 ^ (width + 1)) :
    List.replicate (width + 1 - (Nat.toDigits 10 n).length) '0' ++ Nat.toDigits 10 n =
      (digits 10 (width + 1) n).map Nat.digitChar := by
  induction width generalizing n with
  | zero =>
    have single : n < 10 := by omega
    rw [Nat.toDigits_of_lt_base single]
    simp [digits, Nat.mod_eq_of_lt single]
  | succ width ih =>
    have shorter := ih (n / 10) (quotient_bound bound)
    rw [digits, List.map_append, ← shorter]
    by_cases single : n < 10
    · have quotient : n / 10 = 0 := by omega
      rw [quotient, Nat.toDigits_of_lt_base single, Nat.toDigits_of_lt_base (by decide : 0 < 10)]
      simp [Nat.mod_eq_of_lt single, List.replicate_succ']
    · rw [Nat.toDigits_of_base_le (by decide) (by omega)]
      simp

def digitByte (digit : Nat) : UInt8 := UInt8.ofNat (48 + digit)

theorem digitByte_toNat (digit : Nat) (bound : digit < 10) : (digitByte digit).toNat = 48 + digit := by
  simp only [digitByte, UInt8.toNat_ofNat']
  exact Nat.mod_eq_of_lt (by omega)

theorem digitChar_octet (digit : Nat) (bound : digit < 10) :
    (Nat.digitChar digit).toNat < 128 ∧ octet (Nat.digitChar digit) = digitByte digit := by
  interval_cases digit <;> decide

theorem asBytes_zeroPadded (width n : Nat) (bound : n < 10 ^ (width + 1)) :
    asBytes (zeroPadded (width + 1) n) = (digits 10 (width + 1) n).map digitByte := by
  rw [zeroPadded, zeroPadded_digits width n bound, asBytes_ascii, List.map_map]
  · apply List.map_congr_left
    intro digit member
    exact (digitChar_octet digit (digits_below (by decide) member)).2
  · intro c member
    obtain ⟨digit, present, rfl⟩ := List.mem_map.mp member
    exact (digitChar_octet digit (digits_below (by decide) present)).1

/-- `str::parse::<u64>`: an optional `+`, then at least one digit, refusing overflow. -/
def parseU64 (text : Bytes) : Option Nat :=
  let numeral := if text.head? = some (octet '+') then text.tail else text
  if numeral = [] then none
  else numeral.foldlM (fun value byte =>
    if 48 ≤ byte.toNat ∧ byte.toNat ≤ 57 ∧ value * 10 + (byte.toNat - 48) < 2 ^ 64
    then some (value * 10 + (byte.toNat - 48)) else none) 0

theorem fold_digits (width n : Nat) (bound : n < 2 ^ 64) (fits : n < 10 ^ width) :
    ((digits 10 width n).map digitByte).foldlM (fun value byte =>
      if 48 ≤ byte.toNat ∧ byte.toNat ≤ 57 ∧ value * 10 + (byte.toNat - 48) < 2 ^ 64
      then some (value * 10 + (byte.toNat - 48)) else none) 0 = some n := by
  induction width generalizing n with
  | zero =>
    have zero : n = 0 := by simpa using fits
    subst zero
    rfl
  | succ width ih =>
    have value : (digitByte (n % 10)).toNat = 48 + n % 10 := digitByte_toNat _ (Nat.mod_lt _ (by decide))
    have rebuilt : n / 10 * 10 + (48 + n % 10 - 48) = n := by omega
    rw [digits, List.map_append, List.foldlM_append, ih (n / 10) (by omega) (quotient_bound fits)]
    simp only [List.map_cons, List.map_nil, List.foldlM_cons, List.foldlM_nil, Option.bind_eq_bind,
      Option.bind_some, value, rebuilt]
    rw [if_pos ⟨by omega, by omega, bound⟩]
    rfl

theorem parseU64_digits (width n : Nat) (bound : n < 2 ^ 64) (fits : n < 10 ^ (width + 1)) :
    parseU64 ((digits 10 (width + 1) n).map digitByte) = some n := by
  have filled : (digits 10 (width + 1) n).map digitByte ≠ [] := by simp [digits]
  have unsigned : ((digits 10 (width + 1) n).map digitByte).head? ≠ some (octet '+') := by
    intro sign
    obtain ⟨digit, present, same⟩ := List.mem_map.mp (List.mem_of_head? sign)
    have small := digits_below (by decide) present
    have codes := congrArg UInt8.toNat same
    rw [digitByte_toNat _ small] at codes
    have plus : (octet '+').toNat = 43 := by decide
    omega
  simp only [parseU64, unsigned, if_false, filled]
  exact fold_digits (width + 1) n bound fits

end Text
