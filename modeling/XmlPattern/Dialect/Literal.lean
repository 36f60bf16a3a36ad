import XmlPattern.Text.CodeUnit
import XmlPattern.Text.Numeral
import XmlPattern.Text.Utf8

/-!
# Native dialects and their literals

Patterns are written for two kinds of engine. In the `scalar` dialect a pattern matches characters; in the `utf16`
dialect it matches 16-bit units, so that a supplementary character is a pair. This module writes a single character
so that it stands for itself.

- `literal_ne_nil`: every character is written as something.
- `escape_eq_self_iff`: a text is written as itself exactly when each of its characters is found to be.
-/

namespace XmlPattern

/-- What the units of a native pattern's text are. -/
inductive Dialect where
  /-- Classes and literals range over characters. -/
  | scalar
  /-- Classes and literals range over 16-bit units. -/
  | utf16
  deriving DecidableEq, Repr

/-- A code point by its number, as the scalar dialect writes it. -/
def scalarHex (value : Nat) : List Char := ['\\', 'x', '{'] ++ Numeral.hex value ++ ['}']

/-- A unit by its number, as the UTF-16 dialect writes it. -/
def unitHex (unit : Nat) : List Char := ['\\', 'u'] ++ Numeral.hex4 unit

/-- The characters with a meaning of their own in the scalar dialect. -/
def isScalarMeta (c : Char) : Bool :=
  c ∈ ['\\', '.', '+', '*', '?', '(', ')', '|', '[', ']', '{', '}', '^', '$', '#', '&', '-', '~']

/-- The characters with a meaning of their own in the UTF-16 dialect. -/
def isUtf16Meta (c : Char) : Bool :=
  c ∈ ['\\', '.', '*', '+', '?', '(', ')', '[', ']', '{', '}', '|', '^', '$', '/']

/-- The control codes. -/
def isControl (c : Char) : Bool := c.toNat < 0x20 || 0x7F ≤ c.toNat && c.toNat ≤ 0x9F

/-- The printable characters of ASCII, space included. -/
def isPlainAscii (c : Char) : Bool := 0x20 ≤ c.toNat && c.toNat < 0x7F

/-- The characters that take two units. -/
def isSupplementary (c : Char) : Bool := 0x10000 ≤ c.toNat

/-- A character that stands for itself in the scalar dialect. -/
def scalarLiteral (c : Char) : List Char :=
  if isScalarMeta c then ['\\', c] else if isControl c then scalarHex c.toNat else [c]

/-- A character that stands for itself in the UTF-16 dialect; a pair is grouped, so that it is one atom. -/
def utf16Literal (c : Char) : List Char :=
  if isSupplementary c then
    ['(', '?', ':'] ++ unitHex (CodeUnit.highOf c.toNat).toNat ++ unitHex (CodeUnit.lowOf c.toNat).toNat ++ [')']
  else if isUtf16Meta c then ['\\', c]
  else if isPlainAscii c then [c]
  else unitHex c.toNat

namespace Dialect

/-- A character written so that it stands for itself, as one atom. -/
def literal : Dialect → Char → List Char
  | scalar => scalarLiteral
  | utf16 => utf16Literal

/-- A text written so that it stands for itself. -/
def escape (d : Dialect) (text : List Char) : List Char := text.flatMap d.literal

/-- Whether what is written for a character starts with it and is no longer in UTF-8. -/
def keeps (d : Dialect) (c : Char) : Bool :=
  utf8Length (d.literal c) == c.utf8Size && (d.literal c).head? == some c

/-- Whether nothing but the character is written for any character of the text. -/
def isUnchanged (d : Dialect) (text : List Char) : Bool := text.all d.keeps

theorem scalarLiteral_ne_nil (c : Char) : scalarLiteral c ≠ [] := by
  unfold scalarLiteral scalarHex
  split
  · exact List.cons_ne_nil _ _
  · split <;> exact List.cons_ne_nil _ _

theorem utf16Literal_ne_nil (c : Char) : utf16Literal c ≠ [] := by
  unfold utf16Literal unitHex
  split
  · exact List.cons_ne_nil _ _
  · split
    · exact List.cons_ne_nil _ _
    · split <;> exact List.cons_ne_nil _ _

theorem literal_ne_nil : (d : Dialect) → (c : Char) → d.literal c ≠ []
  | scalar, c => scalarLiteral_ne_nil c
  | utf16, c => utf16Literal_ne_nil c

theorem keeps_iff {d : Dialect} {c : Char} : d.keeps c = true ↔ d.literal c = [c] := by
  rw [keeps, Bool.and_eq_true, beq_iff_eq, beq_iff_eq, eq_singleton_iff]

theorem length_le_escape (d : Dialect) (text : List Char) : text.length ≤ (d.escape text).length := by
  induction text with
  | nil => exact Nat.le_refl 0
  | cons c rest ih =>
    have hpos := List.length_pos_iff.mpr (literal_ne_nil d c)
    rw [escape] at ih ⊢
    rw [List.flatMap_cons, List.length_append, List.length_cons]
    omega

theorem escape_eq_self_iff {d : Dialect} {text : List Char} : d.escape text = text ↔ d.isUnchanged text = true := by
  induction text with
  | nil => exact iff_of_true rfl rfl
  | cons c rest ih =>
    rw [isUnchanged, List.all_cons, Bool.and_eq_true, keeps_iff, ← isUnchanged, ← ih]
    show d.literal c ++ d.escape rest = [c] ++ rest ↔ _
    constructor
    · intro h
      -- What is written for the rest is no shorter than the rest, so that one character is left for the first.
      have hlength := congrArg List.length h
      have hpos := List.length_pos_iff.mpr (literal_ne_nil d c)
      have hrest := length_le_escape d rest
      have hone : (d.literal c).length = [c].length := by
        simp only [List.length_append, List.length_cons, List.length_nil] at hlength ⊢
        omega
      exact List.append_inj h hone
    · rintro ⟨hc, hrest⟩
      rw [hc, hrest]

end Dialect

end XmlPattern
