/-!
# Numerals

The written numbers of native patterns: decimal numerals in back-references, upper-case hexadecimal ones in
character escapes.

- `ofDecimal_decimal`: a decimal numeral reads back as its number.
-/

namespace XmlPattern.Numeral

/-- The decimal numeral of a number, without leading zeros. -/
def decimal (n : Nat) : List Char := Nat.toDigits 10 n

/-- The upper-case hexadecimal numeral of a number, without leading zeros. -/
def hex (n : Nat) : List Char := (Nat.toDigits 16 n).map Char.toUpper

/-- A hexadecimal numeral of at least four digits. -/
def hex4 (n : Nat) : List Char := (hex n).leftpad 4 '0'

/-- The number a row of decimal digits stands for, whatever its length; leading zeros count for nothing. -/
def ofDecimal (digits : List Char) : Nat := Nat.ofDigitChars 10 digits 0

/-- The value of a hexadecimal digit of either case. -/
def hexValue? (c : Char) : Option Nat :=
  if '0' ≤ c ∧ c ≤ '9' then some (c.toNat - '0'.toNat)
  else if 'a' ≤ c ∧ c ≤ 'f' then some (c.toNat - 'a'.toNat + 10)
  else if 'A' ≤ c ∧ c ≤ 'F' then some (c.toNat - 'A'.toNat + 10)
  else none

/-- The number a row of hexadecimal digits stands for. -/
def ofHex? (digits : List Char) : Option Nat :=
  digits.foldlM (fun n c => (hexValue? c).map (16 * n + ·)) 0

theorem ofDecimal_decimal (n : Nat) : ofDecimal (decimal n) = n := by
  simp [ofDecimal, decimal]

theorem decimal_ne_nil (n : Nat) : decimal n ≠ [] := by
  rw [decimal, Nat.toDigits_eq_if (by decide)]
  split <;> simp

theorem hex_ne_nil (n : Nat) : hex n ≠ [] := by
  rw [hex, Nat.toDigits_eq_if (by decide)]
  split <;> simp

end XmlPattern.Numeral
