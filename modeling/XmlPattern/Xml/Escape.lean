import XmlPattern.Options
import XmlPattern.Unicode.Category

/-!
# Escapes

What a backslash and a character stand for. A few letters and the characters with a meaning of their own stand for
one character. Other letters abbreviate sets: blanks, the characters that may start or continue an XML name, decimal
digits and word characters. An upper-case letter stands for the complement of such a set.

- `mem_wordChars`: a word character is no punctuation, separator or other character.
-/

namespace XmlPattern.Escape

open Unicode

/-- The character that an escape stands for; only XPath escapes the dollar sign. -/
def character? (v : Variant) : Char → Option Char
  | 'n' => some '\n'
  | 'r' => some '\r'
  | 't' => some '\t'
  | '$' => if v.isXPath then some '$' else none
  | c =>
    if c ∈ ['\\', '|', '.', '-', '^', '?', '*', '+', '\x7b', '\x7d', '(', ')', '[', ']'] then some c else none

/-- The blanks of XML. -/
def blankChars : CharSet := .ofSpans [(0x09, 0x0A), (0x0D, 0x0D), (0x20, 0x20)]

/-- The characters that may start an XML name. -/
def nameStartChars : CharSet := .ofSpans [
  (0x3A, 0x3A), (0x41, 0x5A), (0x5F, 0x5F), (0x61, 0x7A), (0xC0, 0xD6), (0xD8, 0xF6), (0xF8, 0x2FF),
  (0x370, 0x37D), (0x37F, 0x1FFF), (0x200C, 0x200D), (0x2070, 0x218F), (0x2C00, 0x2FEF), (0x3001, 0xD7FF),
  (0xF900, 0xFDCF), (0xFDF0, 0xFFFD), (0x10000, 0xEFFFF)]

/-- The characters that may continue an XML name. -/
def nameChars : CharSet :=
  nameStartChars ∪ .ofSpans [(0x2D, 0x2E), (0x30, 0x39), (0xB7, 0xB7), (0x300, 0x36F), (0x203F, 0x2040)]

/-- The decimal digits of all scripts. -/
def digitChars : CharSet := Category.decimalNumber.chars

/-- The categories whose characters are no part of a word: punctuation, separators and others. -/
def wordBreaks : List Category := Category.ofCode ['P'] ++ Category.ofCode ['Z'] ++ Category.ofCode ['C']

/-- The characters of words: all but punctuation, separators and others. -/
def wordChars : CharSet := .full \ CharSet.unions (wordBreaks.map Category.chars)

/-- The positive class behind a lower-case letter. -/
def ofLetter? : Char → Option CharSet
  | 's' => some blankChars
  | 'i' => some nameStartChars
  | 'c' => some nameChars
  | 'd' => some digitChars
  | 'w' => some wordChars
  | _ => none

theorem mem_wordChars {c : Char} : c ∈ wordChars ↔ ∀ k ∈ wordBreaks, c ∉ k.chars := by
  simp [wordChars, CharSet.mem_diff, CharSet.mem_full, CharSet.mem_unions_map]

end XmlPattern.Escape
