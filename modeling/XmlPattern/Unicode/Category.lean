import XmlPattern.Unicode.Category.Letter
import XmlPattern.Unicode.Category.Mark
import XmlPattern.Unicode.Category.Number
import XmlPattern.Unicode.Category.Other
import XmlPattern.Unicode.Category.Punctuation
import XmlPattern.Unicode.Category.Symbol

/-!
# General categories

Every character has one of the general categories of Unicode 16.0. A pattern names a category by its two-letter
code, or a group of categories by the letter that their codes begin with.

- `ofCode_code`: the code of a category names that category alone.
- `mem_unassignedChars`: a character is unassigned when no table lists it.
-/

namespace XmlPattern.Unicode

/-- The general categories; surrogates are no characters and have none. -/
inductive Category where
  | uppercaseLetter | lowercaseLetter | titlecaseLetter | modifierLetter | otherLetter
  | nonspacingMark | spacingMark | enclosingMark
  | decimalNumber | letterNumber | otherNumber
  | connectorPunctuation | dashPunctuation | openPunctuation | closePunctuation
  | initialPunctuation | finalPunctuation | otherPunctuation
  | spaceSeparator | lineSeparator | paragraphSeparator
  | mathSymbol | currencySymbol | modifierSymbol | otherSymbol
  | control | format | privateUse | unassigned
  deriving DecidableEq, Repr

namespace Category

/-- The categories whose characters a table lists. -/
def assigned : List Category := [
  uppercaseLetter, lowercaseLetter, titlecaseLetter, modifierLetter, otherLetter,
  nonspacingMark, spacingMark, enclosingMark,
  decimalNumber, letterNumber, otherNumber,
  connectorPunctuation, dashPunctuation, openPunctuation, closePunctuation,
  initialPunctuation, finalPunctuation, otherPunctuation,
  spaceSeparator, lineSeparator, paragraphSeparator,
  mathSymbol, currencySymbol, modifierSymbol, otherSymbol,
  control, format, privateUse]

/-- All categories. -/
def all : List Category := assigned ++ [unassigned]

/-- The two letters by which patterns name a category. -/
def code : Category → Char × Char
  | uppercaseLetter => ('L', 'u')
  | lowercaseLetter => ('L', 'l')
  | titlecaseLetter => ('L', 't')
  | modifierLetter => ('L', 'm')
  | otherLetter => ('L', 'o')
  | nonspacingMark => ('M', 'n')
  | spacingMark => ('M', 'c')
  | enclosingMark => ('M', 'e')
  | decimalNumber => ('N', 'd')
  | letterNumber => ('N', 'l')
  | otherNumber => ('N', 'o')
  | connectorPunctuation => ('P', 'c')
  | dashPunctuation => ('P', 'd')
  | openPunctuation => ('P', 's')
  | closePunctuation => ('P', 'e')
  | initialPunctuation => ('P', 'i')
  | finalPunctuation => ('P', 'f')
  | otherPunctuation => ('P', 'o')
  | spaceSeparator => ('Z', 's')
  | lineSeparator => ('Z', 'l')
  | paragraphSeparator => ('Z', 'p')
  | mathSymbol => ('S', 'm')
  | currencySymbol => ('S', 'c')
  | modifierSymbol => ('S', 'k')
  | otherSymbol => ('S', 'o')
  | control => ('C', 'c')
  | format => ('C', 'f')
  | privateUse => ('C', 'o')
  | unassigned => ('C', 'n')

/-- The table of a category; the unassigned characters have none. -/
def table : Category → CodeTable
  | uppercaseLetter => CategoryTable.uppercaseLetter
  | lowercaseLetter => CategoryTable.lowercaseLetter
  | titlecaseLetter => CategoryTable.titlecaseLetter
  | modifierLetter => CategoryTable.modifierLetter
  | otherLetter => CategoryTable.otherLetter
  | nonspacingMark => CategoryTable.nonspacingMark
  | spacingMark => CategoryTable.spacingMark
  | enclosingMark => CategoryTable.enclosingMark
  | decimalNumber => CategoryTable.decimalNumber
  | letterNumber => CategoryTable.letterNumber
  | otherNumber => CategoryTable.otherNumber
  | connectorPunctuation => CategoryTable.connectorPunctuation
  | dashPunctuation => CategoryTable.dashPunctuation
  | openPunctuation => CategoryTable.openPunctuation
  | closePunctuation => CategoryTable.closePunctuation
  | initialPunctuation => CategoryTable.initialPunctuation
  | finalPunctuation => CategoryTable.finalPunctuation
  | otherPunctuation => CategoryTable.otherPunctuation
  | spaceSeparator => CategoryTable.spaceSeparator
  | lineSeparator => CategoryTable.lineSeparator
  | paragraphSeparator => CategoryTable.paragraphSeparator
  | mathSymbol => CategoryTable.mathSymbol
  | currencySymbol => CategoryTable.currencySymbol
  | modifierSymbol => CategoryTable.modifierSymbol
  | otherSymbol => CategoryTable.otherSymbol
  | control => CategoryTable.control
  | format => CategoryTable.format
  | privateUse => CategoryTable.privateUse
  | unassigned => ⟨[], []⟩

/-- The characters that no table lists. -/
def unassignedChars : CharSet := .full \ CharSet.unions (assigned.map fun k => k.table.toCharSet)

/-- The characters of a category. -/
def chars : Category → CharSet
  | unassigned => unassignedChars
  | k => k.table.toCharSet

/-- The categories that a code names: two letters name one, a first letter all that begin with it. -/
def ofCode : List Char → List Category
  | [a] => all.filter fun k => k.code.1 = a
  | [a, b] => all.filter fun k => k.code = (a, b)
  | _ => []

/-- The characters of the categories listed; with the unassigned ones among them, those of no other category. -/
def charsOfAll (ks : List Category) : CharSet :=
  if unassigned ∈ ks then .full \ CharSet.unions ((all.filter (· ∉ ks)).map chars)
  else CharSet.unions (ks.map chars)

/-- The characters that a code names. -/
def charsOfCode? (code : List Char) : Option CharSet :=
  match ofCode code with
  | [] => none
  | ks => some (charsOfAll ks)

theorem ofCode_code (k : Category) : ofCode [k.code.1, k.code.2] = [k] := by
  cases k <;> rfl

theorem mem_unassignedChars {c : Char} : c ∈ unassignedChars ↔ ∀ k ∈ assigned, c ∉ k.table.toCharSet := by
  simp [unassignedChars, CharSet.mem_diff, CharSet.mem_full, CharSet.mem_unions_map]

end Category

end XmlPattern.Unicode
