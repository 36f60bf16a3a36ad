import XmlPattern.Dialect.CharClass

/-!
# Fragments of a conversion

The output of a conversion is a list of fragments that know nothing of the dialect. Operators, groups and
quantifiers read alike in both dialects and stand verbatim; literals, classes and back-references are written by
each dialect in its own way.

- `textOf_append`: the text of consecutive fragments is the text of one after that of the other.
-/

namespace XmlPattern

/-- A piece of output. -/
inductive Fragment where
  /-- Text that stands as it is. -/
  | verbatim (text : List Char)
  /-- A character that stands for itself. -/
  | literal (c : Char)
  /-- Any character of a set; `expand` asks for the set itself rather than a shorter complement. -/
  | charClass (s : CharSet) (expand : Bool)
  /-- What a group has matched, or a text that differs from it only in case. -/
  | reference (number : Nat) (caseBlind : Bool)
  deriving DecidableEq

namespace Fragment

/-- The text of a fragment; a back-reference stands in a group, so that no digit after it can be taken for its own. -/
def text (d : Dialect) : Fragment → List Char
  | verbatim text => text
  | literal c => d.literal c
  | charClass s expand => d.charClass expand s
  | reference number caseBlind =>
    (if caseBlind && d == .scalar then ['(', '?', 'i', ':', '\\'] else ['(', '?', ':', '\\']) ++
      Numeral.decimal number ++ [')']

/-- The text of consecutive fragments. -/
def textOf (d : Dialect) (fragments : List Fragment) : List Char := fragments.flatMap (text d)

theorem textOf_append (d : Dialect) (fs gs : List Fragment) : textOf d (fs ++ gs) = textOf d fs ++ textOf d gs := by
  simp [textOf]

theorem textOf_literal (d : Dialect) (cs : List Char) : textOf d (cs.map literal) = d.escape cs := by
  simp [textOf, Dialect.escape, List.flatMap_map, text]

end Fragment

end XmlPattern
