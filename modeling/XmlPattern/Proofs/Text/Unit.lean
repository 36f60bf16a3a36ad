import XmlPattern.Text.CodeUnit

/-!
# Characters and their units

- `toNat_ofNat`: the code point of the character of a number.
- `CodeUnit.toAscii?_eq_some`: which units stand for an ASCII character.
- `CodeUnit.ofBasic_inj`, `CodeUnit.ofChar_inj`, `CodeUnit.encode_injective`: different characters have different units,
  and so have different texts.
-/

namespace XmlPattern

theorem toNat_ofNat {n : Nat} (h : n.isValidChar) : (Char.ofNat n).toNat = n := by
  rw [Char.ofNat, dif_pos h]
  rfl

namespace CodeUnit

theorem toBasic_ofBasic {c : Char} (h : c.toNat < 0x10000) : (ofBasic c).toBasic = c := by
  rw [toBasic, toNat_ofBasic h, Char.ofNat_toNat]

theorem toNat_toBasic {u : CodeUnit} (h : u.isSurrogate = false) : u.toBasic.toNat = u.toNat := by
  simp only [isSurrogate, UInt16.le_iff_toNat_le, UInt16.reduceToNat, Bool.and_eq_false_iff,
    decide_eq_false_iff_not] at h
  have hu := u.toNat_lt
  exact toNat_ofNat (by unfold Nat.isValidChar; omega)

theorem ofBasic_toBasic {u : CodeUnit} (h : u.isSurrogate = false) : ofBasic u.toBasic = u := by
  rw [ofBasic, toNat_toBasic h, UInt16.ofNat_toNat]

theorem ofBasic_inj {c d : Char} (hc : c.toNat < 0x10000) (hd : d.toNat < 0x10000) :
    ofBasic c = ofBasic d ↔ c = d := by
  refine ⟨fun h => ?_, fun h => h ▸ rfl⟩
  rw [← toBasic_ofBasic hc, h, toBasic_ofBasic hd]

theorem toAscii?_eq_some {u : CodeUnit} {c : Char} : u.toAscii? = some c ↔ c.toNat < 0x80 ∧ u = ofBasic c := by
  unfold toAscii?
  constructor
  · intro h
    split at h
    · next hu =>
      obtain rfl := Option.some.inj h
      have hu : u.toNat < 0x80 := UInt16.lt_iff_toNat_lt.mp hu
      have hv : (Char.ofNat u.toNat).toNat = u.toNat := toNat_ofNat (Or.inl (by omega))
      exact ⟨by omega, by rw [ofBasic, hv, UInt16.ofNat_toNat]⟩
    · cases h
  · rintro ⟨hc, rfl⟩
    have hn : (ofBasic c).toNat = c.toNat := toNat_ofBasic (by omega)
    rw [if_pos (UInt16.lt_iff_toNat_lt.mpr (by rw [hn]; exact hc)), hn, Char.ofNat_toNat]

theorem toAscii?_of_isSurrogate {u : CodeUnit} (h : u.isSurrogate = true) : u.toAscii? = none := by
  cases hu : u.toAscii? with
  | none => rfl
  | some c =>
    obtain ⟨hc, rfl⟩ := toAscii?_eq_some.mp hu
    rw [isSurrogate_ofBasic (by omega)] at h
    cases h

theorem ofChar_toBasic {u : CodeUnit} (h : u.isSurrogate = false) : ofChar u.toBasic = [u] := by
  have hu := u.toNat_lt
  rw [ofChar, toNat_toBasic h, if_pos (by omega), ofBasic_toBasic h]

theorem isHighSurrogate_iff {u : CodeUnit} : u.isHighSurrogate = true ↔ 0xD800 ≤ u.toNat ∧ u.toNat ≤ 0xDBFF := by
  simp [isHighSurrogate, UInt16.le_iff_toNat_le]

theorem isLowSurrogate_iff {u : CodeUnit} : u.isLowSurrogate = true ↔ 0xDC00 ≤ u.toNat ∧ u.toNat ≤ 0xDFFF := by
  simp [isLowSurrogate, UInt16.le_iff_toNat_le]

/-- No unit is both halves of a pair. -/
theorem not_high_of_low {u : CodeUnit} (h : u.isLowSurrogate = true) : u.isHighSurrogate = false := by
  refine Bool.eq_false_iff.mpr fun hhigh => ?_
  rw [isHighSurrogate_iff] at hhigh
  rw [isLowSurrogate_iff] at h
  omega

/-- A pair of surrogates is what the character that it stands for is encoded as. -/
theorem ofChar_combine {u v : CodeUnit} (hu : u.isHighSurrogate = true) (hv : v.isLowSurrogate = true) :
    ofChar (Char.ofNat (combine u v)) = [u, v] := by
  rw [isHighSurrogate_iff] at hu
  rw [isLowSurrogate_iff] at hv
  have hc : combine u v = 0x10000 + (u.toNat - 0xD800) * 0x400 + (v.toNat - 0xDC00) := rfl
  have hn : (Char.ofNat (combine u v)).toNat = combine u v := toNat_ofNat (.inr (by omega))
  rw [ofChar, hn, if_neg (by omega), List.cons.injEq, List.cons.injEq]
  refine ⟨UInt16.toNat_inj.mp ?_, UInt16.toNat_inj.mp ?_, rfl⟩
  · rw [toNat_highOf (by omega)]
    omega
  · rw [toNat_lowOf]
    omega

/-- A character takes one unit that is no surrogate, or a pair. -/
theorem ofChar_cases (c : Char) :
    (∃ u, ofChar c = [u] ∧ u.isSurrogate = false ∧ u.toBasic = c) ∨
      ∃ u v, ofChar c = [u, v] ∧ u.isHighSurrogate = true ∧ v.isLowSurrogate = true ∧ Char.ofNat (combine u v) = c := by
  unfold ofChar
  have hc := toNat_gap c
  split
  · next h => exact .inl ⟨_, rfl, isSurrogate_ofBasic h, toBasic_ofBasic h⟩
  · next h =>
    refine .inr ⟨_, _, rfl, isHighSurrogate_highOf (by omega), isLowSurrogate_lowOf _, ?_⟩
    rw [combine_highOf_lowOf (by omega) (by omega), Char.ofNat_toNat]

/-- A character whose first unit is that of an ASCII character is that character. -/
theorem head?_ofChar {c d : Char} (hd : d.toNat < 0x80) (h : (ofChar c).head? = some (ofBasic d)) : c = d := by
  rcases ofChar_cases c with ⟨u, hu, _, rfl⟩ | ⟨u, v, hu, hhigh, _⟩
  · rw [hu] at h
    obtain rfl := Option.some.inj h
    exact toBasic_ofBasic (by omega)
  · rw [hu] at h
    obtain rfl := Option.some.inj h
    have hs := isSurrogate_ofBasic (c := d) (by omega)
    rw [isSurrogate_eq, hhigh] at hs
    cases hs

/-- No character is encoded as half of a pair. -/
theorem singleton_ne_ofChar {u : CodeUnit} (h : u.isSurrogate = true) (c : Char) : [u] ≠ ofChar c := by
  intro he
  rcases ofChar_cases c with ⟨v, hv, hno, _⟩ | ⟨v, w, hv, _⟩
  · rw [hv] at he
    rw [List.head_eq_of_cons_eq he, hno] at h
    cases h
  · rw [hv] at he
    cases he

theorem encode_injective : Function.Injective encode := by
  intro text text' he
  have hdecode := decode_encode 0 text
  rw [he, decode_encode, Except.ok.injEq] at hdecode
  exact hdecode.symm

theorem ofChar_inj {c d : Char} (h : ofChar c = ofChar d) : c = d := by
  have hencode : encode [c] = encode [d] := by
    rw [encode, encode, List.flatMap_singleton, List.flatMap_singleton, h]
  exact List.head_eq_of_cons_eq (encode_injective hencode)

end CodeUnit

end XmlPattern
