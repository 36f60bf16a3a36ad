import Mathlib.Algebra.Group.Nat.Defs
import XmlPattern.Text.Numeral

/-!
# Numerals

- `head?_decimal`: the decimal numeral of a number other than zero has no zero in front.
- `ofHex?_hex`: a hexadecimal numeral reads back as its number.
- `mem_hex`: a hexadecimal numeral has upper-case digits alone.
- `hex4_eq`: the number of a unit has four digits, which read back as it.
-/

namespace XmlPattern.Numeral

/-! ## Decimal -/

theorem head?_decimal {n : Nat} (h : 0 < n) : (decimal n).head? ≠ some '0' := by
  have hdigit : ∀ k < 10, 0 < k → k.digitChar ≠ '0' := by decide
  induction n using Nat.strongRecOn with
  | ind n ih =>
    rw [decimal]
    by_cases hn : n < 10
    · rw [Nat.toDigits_of_lt_base hn]
      exact fun he => hdigit n hn h (Option.some.inj he)
    · have hfront := ih (n / 10) (by omega) (by omega)
      obtain ⟨c, cs, hc⟩ := List.exists_cons_of_ne_nil (decimal_ne_nil (n / 10))
      rw [hc] at hfront
      rw [decimal] at hc
      rw [Nat.toDigits_of_base_le (by decide) (by omega), hc]
      exact hfront

/-! ## Hexadecimal -/

theorem hexValue?_digit : ∀ k < 16, hexValue? k.digitChar.toUpper = some k := by
  decide

theorem hex_of_lt {n : Nat} (h : n < 16) : hex n = [n.digitChar.toUpper] := by
  rw [hex, Nat.toDigits_of_lt_base h]
  rfl

theorem hex_of_le {n : Nat} (h : 16 ≤ n) : hex n = hex (n / 16) ++ [(n % 16).digitChar.toUpper] := by
  rw [hex, Nat.toDigits_of_base_le (by decide) h, List.map_append]
  rfl

theorem mem_hex {n : Nat} {c : Char} (h : c ∈ hex n) : ∃ k < 16, c = k.digitChar.toUpper := by
  induction n using Nat.strongRecOn with
  | ind n ih =>
    by_cases hn : n < 16
    · rw [hex_of_lt hn] at h
      exact ⟨n, hn, List.mem_singleton.mp h⟩
    · rw [hex_of_le (by omega)] at h
      rcases List.mem_append.mp h with h | h
      · exact ih (n / 16) (by omega) h
      · exact ⟨n % 16, Nat.mod_lt _ (by decide), List.mem_singleton.mp h⟩

theorem ofHex?_concat (ds : List Char) (c : Char) :
    ofHex? (ds ++ [c]) = (ofHex? ds).bind fun n => (hexValue? c).map (16 * n + ·) := by
  simp [ofHex?, List.foldlM_append]

theorem ofHex?_hex (n : Nat) : ofHex? (hex n) = some n := by
  induction n using Nat.strongRecOn with
  | ind n ih =>
    by_cases hn : n < 16
    · rw [hex_of_lt hn, ← List.nil_append [_], ofHex?_concat, hexValue?_digit n hn]
      simp [ofHex?]
    · rw [hex_of_le (by omega), ofHex?_concat, ih (n / 16) (by omega), hexValue?_digit _ (Nat.mod_lt _ (by decide))]
      simp only [Option.bind_some, Option.map_some, Option.some.injEq]
      omega

theorem length_hex_le {n k : Nat} (h : n < 16 ^ (k + 1)) : (hex n).length ≤ k + 1 := by
  induction k generalizing n with
  | zero =>
    rw [hex_of_lt h]
    exact Nat.le_refl _
  | succ k ih =>
    by_cases hn : n < 16
    · rw [hex_of_lt hn]
      exact Nat.succ_le_succ (Nat.zero_le _)
    · have hdiv : n / 16 < 16 ^ (k + 1) := by
        rw [Nat.pow_succ] at h
        exact Nat.div_lt_of_lt_mul (by omega)
      have := ih hdiv
      rw [hex_of_le (by omega), List.length_append, List.length_singleton]
      omega

theorem ofHex?_zero (ds : List Char) : ofHex? ('0' :: ds) = ofHex? ds := rfl

theorem ofHex?_zeros (k : Nat) (ds : List Char) : ofHex? (List.replicate k '0' ++ ds) = ofHex? ds := by
  induction k with
  | zero => rfl
  | succ k ih => rw [List.replicate_succ, List.cons_append, ofHex?_zero, ih]

/-- The number of a unit has four digits, which read back as it. -/
theorem hex4_eq {n : Nat} (h : n < 0x10000) : ∃ a b c d, hex4 n = [a, b, c, d] ∧ ofHex? [a, b, c, d] = some n := by
  have hle := length_hex_le (n := n) (k := 3) h
  have hlen : (hex4 n).length = 4 := by
    rw [hex4, List.leftpad, List.length_append, List.length_replicate]
    omega
  have hvalue : ofHex? (hex4 n) = some n := by
    rw [hex4, List.leftpad, ofHex?_zeros, ofHex?_hex]
  match hhex : hex4 n, hlen with
  | [a, b, c, d], _ => exact ⟨a, b, c, d, rfl, by rw [← hhex, hvalue]⟩

end XmlPattern.Numeral
