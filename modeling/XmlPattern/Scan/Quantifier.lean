import XmlPattern.Scan

/-!
# Quantifiers

A quantifier is `*`, `+`, `?` or bounds in braces. Bounds are decimal numerals of any length. They keep their own
digits, leading zeros included, unless the number is larger than native engines take.

- `ofDecimal_boundText`: a written bound is the bound itself or the largest bound, whichever is smaller.
- `isReversed_iff`: bounds are out of order when the upper one is less than the lower one, however large they are.
-/

namespace XmlPattern

/-- The largest bound that native engines take. -/
def maxBound : Nat := 0x7FFFFFFF

/-- The number of a bound, unless it is larger than native engines take. -/
def nativeBound? (digits : List Char) : Option Nat :=
  if Numeral.ofDecimal digits ≤ maxBound then some (Numeral.ofDecimal digits) else none

/-- Whether bounds are out of order. Only numbers that are both too large for native engines are compared in full. -/
def isReversed (lower upper : List Char) : Bool :=
  match nativeBound? lower, nativeBound? upper with
  | some l, some u => u < l
  | none, some _ => true
  | some _, none => false
  | none, none => Numeral.ofDecimal upper < Numeral.ofDecimal lower

/-- A bound as it is written. -/
def boundText (digits : List Char) : List Char :=
  if Numeral.ofDecimal digits ≤ maxBound then digits else Numeral.decimal maxBound

theorem ofDecimal_boundText (digits : List Char) :
    Numeral.ofDecimal (boundText digits) = min (Numeral.ofDecimal digits) maxBound := by
  unfold boundText
  split
  · next h => exact (Nat.min_eq_left h).symm
  · next h => rw [Numeral.ofDecimal_decimal, Nat.min_eq_right (Nat.le_of_lt (Nat.lt_of_not_le h))]

/-- The four ways to compare bounds make one order on the numbers. -/
theorem isReversed_iff {lower upper : List Char} :
    isReversed lower upper = true ↔ Numeral.ofDecimal upper < Numeral.ofDecimal lower := by
  unfold isReversed nativeBound?
  by_cases hl : Numeral.ofDecimal lower ≤ maxBound
  · by_cases hu : Numeral.ofDecimal upper ≤ maxBound
    · simp [hl, hu]
    · have hle : Numeral.ofDecimal lower ≤ Numeral.ofDecimal upper := by omega
      simp [hl, hu, hle]
  · by_cases hu : Numeral.ofDecimal upper ≤ maxBound
    · have hlt : Numeral.ofDecimal upper < Numeral.ofDecimal lower := by omega
      simp [hl, hu, hlt]
    · simp [hl, hu]

namespace Scan

/-- The digits of a bound, up to the comma or brace that ends it. -/
def digits : Nat → Scan (List Char)
  | 0 => fail .expectedDigit
  | n + 1 => do
    match ← ascii with
    | some c =>
      unless c.isDigit do fail .expectedDigit
      advance
      if (← isAt ',') || (← isAt '}') then return [c]
      return c :: (← digits n)
    | none => fail .expectedDigit

/-- The bounds between the braces. -/
def bounds (fuel : Nat) : Scan Unit := do
  let lower ← digits fuel
  write (.verbatim (boundText lower))
  unless ← isAt ',' do return
  copy
  if ← isAt '}' then return
  let upper ← digits fuel
  write (.verbatim (boundText upper))
  if isReversed lower upper then fail .invalidQuantity

/-- A quantifier, if one stands here; a variant that has lazy ones takes the `?` behind it too. -/
def quantifier (v : Variant) (fuel : Nat) : Scan Unit := do
  match ← ascii with
  | some '*' | some '?' | some '+' => copy
  | some '{' =>
    copy
    bounds fuel
    expect '}'
    copy
  | _ => return
  if v.allowsLazy && (← isAt '?') then copy

end Scan

end XmlPattern
