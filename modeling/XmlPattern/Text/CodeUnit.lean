import XmlPattern.Text.Rank

/-!
# UTF-16 code units

An expression is scanned as a list of 16-bit code units, which need not be well-formed. This module holds
the two kinds of surrogate and the arithmetic of a pair, and the passage between units and characters:
`encode`, the strict `decode`, which says where a pair breaks, and `decodeLossy`, which never fails.

- `isSurrogate_eq`: a surrogate is a high or a low one.
- `decode_encode`: what is encoded decodes to the same characters.
-/

namespace XmlPattern

/-- One 16-bit unit of UTF-16. -/
abbrev CodeUnit := UInt16

namespace CodeUnit

/-- The first half of a surrogate pair. -/
def isHighSurrogate (u : CodeUnit) : Bool := 0xD800 ≤ u && u ≤ 0xDBFF

/-- The second half of a surrogate pair. -/
def isLowSurrogate (u : CodeUnit) : Bool := 0xDC00 ≤ u && u ≤ 0xDFFF

/-- Either half of a surrogate pair. -/
def isSurrogate (u : CodeUnit) : Bool := 0xD800 ≤ u && u ≤ 0xDFFF

/-- The blanks of XML: space, tab, line feed and carriage return. -/
def isBlank (u : CodeUnit) : Bool := u == 0x20 || u == 0x09 || u == 0x0A || u == 0x0D

/-- The ASCII character a unit stands for. -/
def toAscii? (u : CodeUnit) : Option Char := if u < 0x80 then some (Char.ofNat u.toNat) else none

/-- The unit of a character below U+10000. -/
def ofBasic (c : Char) : CodeUnit := UInt16.ofNat c.toNat

/-- The character of a unit that is no surrogate. -/
def toBasic (u : CodeUnit) : Char := Char.ofNat u.toNat

/-- The code point a surrogate pair stands for. -/
def combine (high low : CodeUnit) : Nat :=
  0x10000 + (high.toNat - 0xD800) * 0x400 + (low.toNat - 0xDC00)

/-- The first unit of a supplementary code point. -/
def highOf (v : Nat) : CodeUnit := UInt16.ofNat (0xD800 + (v - 0x10000) / 0x400)

/-- The second unit of a supplementary code point. -/
def lowOf (v : Nat) : CodeUnit := UInt16.ofNat (0xDC00 + (v - 0x10000) % 0x400)

theorem isSurrogate_eq (u : CodeUnit) : u.isSurrogate = (u.isHighSurrogate || u.isLowSurrogate) := by
  simp only [isSurrogate, isHighSurrogate, isLowSurrogate, UInt16.le_iff_toNat_le]
  rw [Bool.eq_iff_iff]
  simp only [Bool.and_eq_true, Bool.or_eq_true, decide_eq_true_eq, UInt16.reduceToNat]
  omega

/-! ## Encoding -/

/-- The units of one character. -/
def ofChar (c : Char) : List CodeUnit :=
  if c.toNat < 0x10000 then [ofBasic c] else [highOf c.toNat, lowOf c.toNat]

/-- The UTF-16 form of a text. -/
def encode (text : List Char) : List CodeUnit := text.flatMap ofChar

/-! ## Decoding -/

/--
Reads well-formed units, counting from the given offset. A failure is the offset where a pair breaks: the
unit itself when it is a low surrogate, the place of the missing low surrogate when it is a high one.
-/
def decode : Nat → List CodeUnit → Except Nat (List Char)
  | _, [] => .ok []
  | offset, [u] =>
    if u.isHighSurrogate then .error (offset + 1)
    else if u.isLowSurrogate then .error offset
    else .ok [toBasic u]
  | offset, u :: v :: rest =>
    if u.isHighSurrogate then
      if v.isLowSurrogate then (Char.ofNat (combine u v) :: ·) <$> decode (offset + 2) rest
      else .error (offset + 1)
    else if u.isLowSurrogate then .error offset
    else (toBasic u :: ·) <$> decode (offset + 1) (v :: rest)

/-- Reads any units, with U+FFFD for each unpaired surrogate. -/
def decodeLossy : List CodeUnit → List Char
  | [] => []
  | [u] => if u.isSurrogate then ['\uFFFD'] else [toBasic u]
  | u :: v :: rest =>
    if u.isHighSurrogate && v.isLowSurrogate then Char.ofNat (combine u v) :: decodeLossy rest
    else if u.isSurrogate then '\uFFFD' :: decodeLossy (v :: rest)
    else toBasic u :: decodeLossy (v :: rest)

theorem decode_basic {u : CodeUnit} (h : u.isSurrogate = false) (offset : Nat) (rest : List CodeUnit) :
    decode offset (u :: rest) = (toBasic u :: ·) <$> decode (offset + 1) rest := by
  rw [isSurrogate_eq, Bool.or_eq_false_iff] at h
  cases rest <;> simp [decode, h.1, h.2, Functor.map, Except.map]

theorem toNat_ofBasic {c : Char} (h : c.toNat < 0x10000) : (ofBasic c).toNat = c.toNat := by
  simp only [ofBasic, UInt16.toNat_ofNat']
  omega

theorem isSurrogate_ofBasic {c : Char} (h : c.toNat < 0x10000) : (ofBasic c).isSurrogate = false := by
  have hc := toNat_gap c
  simp only [isSurrogate, UInt16.le_iff_toNat_le, toNat_ofBasic h, UInt16.reduceToNat,
    Bool.and_eq_false_iff, decide_eq_false_iff_not]
  omega

theorem toNat_highOf {v : Nat} (h : v < 0x110000) :
    (highOf v).toNat = 0xD800 + (v - 0x10000) / 0x400 := by
  simp only [highOf, UInt16.toNat_ofNat']
  omega

theorem toNat_lowOf (v : Nat) : (lowOf v).toNat = 0xDC00 + (v - 0x10000) % 0x400 := by
  simp only [lowOf, UInt16.toNat_ofNat']
  omega

theorem isHighSurrogate_highOf {v : Nat} (h : v < 0x110000) : (highOf v).isHighSurrogate = true := by
  simp only [isHighSurrogate, UInt16.le_iff_toNat_le, toNat_highOf h, UInt16.reduceToNat,
    Bool.and_eq_true, decide_eq_true_eq]
  omega

theorem isLowSurrogate_lowOf (v : Nat) : (lowOf v).isLowSurrogate = true := by
  simp only [isLowSurrogate, UInt16.le_iff_toNat_le, toNat_lowOf, UInt16.reduceToNat,
    Bool.and_eq_true, decide_eq_true_eq]
  omega

theorem combine_highOf_lowOf {v : Nat} (h₁ : 0x10000 ≤ v) (h₂ : v < 0x110000) :
    combine (highOf v) (lowOf v) = v := by
  have hh := toNat_highOf h₂
  have hl := toNat_lowOf v
  generalize highOf v = high at hh ⊢
  generalize lowOf v = low at hl ⊢
  have hc : combine high low = 0x10000 + (high.toNat - 0xD800) * 0x400 + (low.toNat - 0xDC00) := rfl
  omega

theorem decode_encode (offset : Nat) (text : List Char) : decode offset (encode text) = .ok text := by
  induction text generalizing offset with
  | nil => rfl
  | cons c rest ih =>
    rw [show encode (c :: rest) = ofChar c ++ encode rest from rfl, ofChar]
    split
    · next h =>
      rw [List.singleton_append, decode_basic (isSurrogate_ofBasic h), ih]
      simp only [toBasic, toNat_ofBasic h, Char.ofNat_toNat]
      rfl
    · next h =>
      have hc := toNat_gap c
      have hv := combine_highOf_lowOf (v := c.toNat) (by omega) (by omega)
      have hh := isHighSurrogate_highOf (v := c.toNat) (by omega)
      simp only [List.cons_append, List.nil_append, decode, hh, isLowSurrogate_lowOf, ih, hv,
        Char.ofNat_toNat, if_true]
      rfl

end CodeUnit

end XmlPattern
