import EnigmaRelay.Foundation.Text

/-! Base64 with the standard alphabet and mandatory canonical padding. -/

namespace Rfc4648

def alphabet : List Char := "ABCDEFGHIJKLMNOPQRSTUVWXYZabcdefghijklmnopqrstuvwxyz0123456789+/".toList

def symbol (value : Nat) : Char := alphabet.getD value '='

def value (c : Char) : Option Nat := alphabet.findIdx? (· = c)

theorem value_symbol (n : Nat) (bound : n < 64) : value (symbol n) = some n ∧ symbol n ≠ '=' := by
  have all : ∀ n : Fin 64, value (symbol n) = some n.val ∧ symbol n ≠ '=' := by decide +kernel
  exact all ⟨n, bound⟩

def encodeChars : Bytes → List Char
  | [] => []
  | [a] => [symbol (a.toNat / 4), symbol (a.toNat % 4 * 16), '=', '=']
  | [a, b] =>
    [symbol (a.toNat / 4), symbol (a.toNat % 4 * 16 + b.toNat / 16), symbol (b.toNat % 16 * 4), '=']
  | a :: b :: c :: rest =>
    symbol (a.toNat / 4) :: symbol (a.toNat % 4 * 16 + b.toNat / 16) ::
      symbol (b.toNat % 16 * 4 + c.toNat / 64) :: symbol (c.toNat % 64) :: encodeChars rest

theorem encodeChars_length (bytes : Bytes) : (encodeChars bytes).length = 4 * ((bytes.length + 2) / 3) := by
  induction bytes using encodeChars.induct with
  | case1 => rfl
  | case2 a => simp [encodeChars]
  | case3 a b => simp [encodeChars]
  | case4 a b c rest ih =>
    simp only [encodeChars, List.length_cons, ih]
    omega

def decodeQuad (a b c d : Nat) : Bytes :=
  [UInt8.ofNat (a * 4 + b / 16), UInt8.ofNat (b % 16 * 16 + c / 4), UInt8.ofNat (c % 4 * 64 + d)]

def decodeChars : List Char → Option Bytes
  | [] => some []
  | a :: b :: c :: d :: rest =>
    match value a, value b with
    | some a, some b =>
      if rest = [] ∧ c = '=' ∧ d = '=' then
        if b % 16 = 0 then some [UInt8.ofNat (a * 4 + b / 16)] else none
      else
        match value c with
        | none => none
        | some c =>
          if rest = [] ∧ d = '=' then
            if c % 4 = 0 then some [UInt8.ofNat (a * 4 + b / 16), UInt8.ofNat (b % 16 * 16 + c / 4)] else none
          else
            match value d, decodeChars rest with
            | some d, some tail => some (decodeQuad a b c d ++ tail)
            | _, _ => none
    | _, _ => none
  | _ => none

theorem byte_rebuilt (a : UInt8) (n : Nat) (same : n = a.toNat) : UInt8.ofNat n = a := by
  rw [same, UInt8.ofNat_toNat]

theorem decodeChars_encodeChars (bytes : Bytes) : decodeChars (encodeChars bytes) = some bytes := by
  induction bytes using encodeChars.induct with
  | case1 => rfl
  | case2 a =>
    have bound := a.toNat_lt
    have first := value_symbol (a.toNat / 4) (by omega)
    have second := value_symbol (a.toNat % 4 * 16) (by omega)
    have low : a.toNat % 4 * 16 % 16 = 0 := by omega
    have byte := byte_rebuilt a (a.toNat / 4 * 4 + a.toNat % 4 * 16 / 16) (by omega)
    simp only [encodeChars, decodeChars, first.1, second.1, and_self, if_true, low, byte]
  | case3 a b =>
    have aBound := a.toNat_lt
    have bBound := b.toNat_lt
    have first := value_symbol (a.toNat / 4) (by omega)
    have second := value_symbol (a.toNat % 4 * 16 + b.toNat / 16) (by omega)
    have third := value_symbol (b.toNat % 16 * 4) (by omega)
    have low : b.toNat % 16 * 4 % 4 = 0 := by omega
    have byteA := byte_rebuilt a (a.toNat / 4 * 4 + (a.toNat % 4 * 16 + b.toNat / 16) / 16) (by omega)
    have byteB := byte_rebuilt b ((a.toNat % 4 * 16 + b.toNat / 16) % 16 * 16 + b.toNat % 16 * 4 / 4) (by omega)
    simp only [encodeChars, decodeChars, first.1, second.1, third.1, third.2, false_and, and_false, if_false,
      and_self, if_true, low, byteA, byteB]
  | case4 a b c rest ih =>
    have aBound := a.toNat_lt
    have bBound := b.toNat_lt
    have cBound := c.toNat_lt
    have first := value_symbol (a.toNat / 4) (by omega)
    have second := value_symbol (a.toNat % 4 * 16 + b.toNat / 16) (by omega)
    have third := value_symbol (b.toNat % 16 * 4 + c.toNat / 64) (by omega)
    have fourth := value_symbol (c.toNat % 64) (by omega)
    have byteA := byte_rebuilt a (a.toNat / 4 * 4 + (a.toNat % 4 * 16 + b.toNat / 16) / 16) (by omega)
    have byteB := byte_rebuilt b
      ((a.toNat % 4 * 16 + b.toNat / 16) % 16 * 16 + (b.toNat % 16 * 4 + c.toNat / 64) / 4) (by omega)
    have byteC := byte_rebuilt c ((b.toNat % 16 * 4 + c.toNat / 64) % 4 * 64 + c.toNat % 64) (by omega)
    simp only [encodeChars, decodeChars, first.1, second.1, third.1, fourth.1, third.2, fourth.2, and_false, if_false,
      ih, decodeQuad, byteA, byteB, byteC, List.cons_append, List.nil_append]

end Rfc4648
