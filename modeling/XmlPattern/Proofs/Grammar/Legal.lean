import XmlPattern.Proofs.Grammar.Tree
import XmlPattern.Text.Numeral
import XmlPattern.Xml.Block

/-!
# The grammar of schema patterns

Which syntax trees are patterns of a variant. Most conditions concern one construct alone: the letters of escapes, the
digits of bounds, the items of classes. Two depend on the place: groups nest only so deep (`depth` groups are open
around a part), and a back-reference names a group that is closed already (`Groups` counts the groups in front of a
part).

- `Regexp.IsSyntaxOf`: a legal tree that an expression spells.
-/

namespace XmlPattern.Grammar

/-! ## Parts without groups -/

/-- A number by its digits, leading zeros included. -/
def IsNumeral (digits : List Char) : Prop := digits ≠ [] ∧ ∀ c ∈ digits, c.isDigit = true

/-- Bounds are numbers, the upper one no smaller than the lower one. -/
def Quantity.Legal : Quantity → Prop
  | star | plus | option => True
  | exactly digits | atLeast digits => IsNumeral digits
  | between lower upper =>
    IsNumeral lower ∧ IsNumeral upper ∧ Numeral.ofDecimal lower ≤ Numeral.ofDecimal upper

/-- Lazy quantifiers are for the variants that have them. -/
def Quantifier.Legal (v : Variant) (q : Quantifier) : Prop :=
  q.quantity.Legal ∧ (q.isLazy = true → v.allowsLazy = true)

/-- The characters that quantifiers are written with, beside digits. -/
def quantifierChars : List Char := ['*', '+', '?', '\x7b', '\x7d', ',']

theorem mem_quantityText {q : Quantity} (h : q.Legal) {c : Char} (hc : c ∈ q.text) :
    c ∈ quantifierChars ∨ c.isDigit = true := by
  have hdigit : ∀ {ds : List Char}, IsNumeral ds → c ∈ ds → c.isDigit = true := fun hds hc => hds.2 c hc
  cases q <;> simp only [Quantity.text, Quantity.Legal, quantifierChars] at * <;> grind

theorem mem_quantifierText {v : Variant} {q : Option Quantifier} (h : ∀ x ∈ q, x.Legal v) {c : Char}
    (hc : c ∈ q.elim [] Quantifier.text) : c ∈ quantifierChars ∨ c.isDigit = true := by
  cases q with
  | none => cases hc
  | some q =>
    rcases List.mem_append.mp hc with hc | hc
    · exact mem_quantityText (h q rfl).1 hc
    · split at hc
      · rw [List.mem_singleton.mp hc]
        exact .inl (by decide)
      · cases hc

/-- The characters that are no atoms by themselves. -/
def metaChars : List Char := ['?', '*', '+', '(', ')', '\x7b', '\x7d', '|', '[', ']', '\\', '.']

/-- The characters that XPath takes for anchors. -/
def anchorChars : List Char := ['^', '$']

theorem mem_anchorChars {c : Char} : c ∈ anchorChars ↔ c = '^' ∨ c = '$' := by
  simp [anchorChars]

/-- The characters that are no members of a class by themselves. -/
def classMetaChars : List Char := ['[', ']', '\\', '-']

/-- The letters, and other characters, that a backslash makes a single character of. -/
def escapable (v : Variant) : List Char :=
  ['n', 'r', 't', '\\', '|', '.', '-', '^', '?', '*', '+', '\x7b', '\x7d', '(', ')', '[', ']'] ++
    if v.isXPath then ['$'] else []

/-- A single character that is an atom. -/
def Single.LegalAtom (v : Variant) : Single → Prop
  | plain c => c ∉ metaChars ∧ (v.isXPath = true → c ∉ anchorChars)
  | escaped letter => letter ∈ escapable v

/-- A single character in a class. -/
def Single.LegalMember (v : Variant) : Single → Prop
  | plain c => c ∉ classMetaChars
  | escaped letter => letter ∈ escapable v

/-- The codes of the general categories and of their groups. -/
def categoryCodes : List (List Char) :=
  ["L", "Lu", "Ll", "Lt", "Lm", "Lo", "M", "Mn", "Mc", "Me", "N", "Nd", "Nl", "No", "P", "Pc", "Pd", "Ps", "Pe", "Pi",
    "Pf", "Po", "Z", "Zs", "Zl", "Zp", "S", "Sm", "Sc", "Sk", "So", "C", "Cc", "Cf", "Co", "Cn"].map String.toList

/-- The names of sets: codes of categories, and names of blocks behind `Is`, of which some variants take any. -/
def IsKnownName (v : Variant) : List Char → Prop
  | 'I' :: 's' :: block => v.isLenient = true ∨ ∃ b ∈ Block.all, b.name.toList = block
  | code => code ∈ categoryCodes

/-- The letters of the escapes that stand for sets. -/
def setLetters : List Char := ['s', 'S', 'i', 'I', 'c', 'C', 'd', 'D', 'w', 'W']

/-- A set escape has a letter of its own, or a known name. -/
def SetEscape.Legal (v : Variant) : SetEscape → Prop
  | letter c => c ∈ setLetters
  | property _ name => unit '\x7d' ∉ name ∧ IsKnownName v (CodeUnit.decodeLossy name)

/-- The character that a letter behind a backslash stands for. -/
def escapedChar : Char → Char
  | 'n' => '\n'
  | 'r' => '\r'
  | 't' => '\t'
  | c => c

/-- The character of a single one. -/
def Single.char : Single → Char
  | plain c => c
  | escaped letter => escapedChar letter

/-- A range does not end before it starts. -/
def ClassItem.Legal (v : Variant) : ClassItem → Prop
  | single x => x.LegalMember v
  | range lo hi => lo.LegalMember v ∧ hi.LegalMember v ∧ lo.char ≤ hi.char
  | set e => e.Legal v

/-- A list has something in it, and does not begin with a caret of its own. -/
structure ClassGroup.Legal (v : Variant) (g : ClassGroup) : Prop where
  nonempty : g.hyphenFirst = true ∨ g.items ≠ []
  items : ∀ i ∈ g.items, i.Legal v
  caret : g.negated = false → g.hyphenFirst = false → (g.items.flatMap ClassItem.units).head? ≠ some (unit '^')

/-- Where something is subtracted, the hyphen in front of it is not a member. -/
def ClassTree.Legal (v : Variant) : ClassTree → Prop
  | list g => g.Legal v
  | minus g c => g.Legal v ∧ g.hyphenLast = false ∧ c.Legal v

/-- An atom for one character is legal if its parts are. -/
def Leaf.Legal (v : Variant) : Leaf → Prop
  | dot => True
  | single x => x.LegalAtom v
  | set e => e.Legal v
  | charClass c => c.Legal v

/-! ## Groups -/

/-- The groups in front of a part: how many have been opened, and the numbers of those that are closed. -/
structure Groups where
  opened : Nat := 0
  closed : List Nat := []
  deriving DecidableEq, Repr

/-- One more group has been opened. -/
def Groups.open (G : Groups) : Groups := { G with opened := G.opened + 1 }

/-- A group has been closed. -/
def Groups.close (G : Groups) (number : Nat) : Groups := { G with closed := number :: G.closed }

mutual

/-- The groups behind an atom. -/
def Atom.after : Groups → Atom → Groups
  | G, .group true r => (r.after G.open).close (G.opened + 1)
  | G, .group false r => r.after G
  | G, .leaf _ | G, .anchor _ | G, .reference _ => G

/-- The groups behind a branch. -/
def Branch.after : Groups → Branch → Groups
  | G, .nil => G
  | G, .cons a _ b => b.after (a.after G)

/-- The groups behind a pattern. -/
def Regexp.after : Groups → Regexp → Groups
  | G, .branch b => b.after G
  | G, .bar b r => r.after (b.after G)

end

/--
A back-reference takes a further digit if that many groups have been opened; so what follows must not be such a digit.
-/
def Atom.EndsBefore (G : Groups) : Atom → List Mark → Prop
  | .reference digits, (u, _) :: _ =>
    ∀ d : Char, d.isDigit = true → u = unit d → G.opened < Numeral.ofDecimal (digits ++ [d])
  | _, _ => True

mutual

/-- An atom that is legal behind some groups and inside so many. -/
def Atom.Legal (o : Options) : (depth : Nat) → Groups → Atom → Prop
  | _, _, .leaf l => l.Legal o.variant
  | _, _, .anchor c => o.variant.isXPath = true ∧ c ∈ anchorChars
  | _, G, .reference digits =>
    o.variant.isXPath = true ∧ IsNumeral digits ∧ digits.head? ≠ some '0' ∧ Numeral.ofDecimal digits ∈ G.closed
  | depth, G, .group true r => depth < o.maxDepth ∧ r.Legal o (depth + 1) G.open
  | depth, G, .group false r => depth < o.maxDepth ∧ o.variant.isXPath30 = true ∧ r.Legal o (depth + 1) G

/-- A branch that is legal behind some groups and inside so many. -/
def Branch.Legal (o : Options) : (depth : Nat) → Groups → Branch → Prop
  | _, _, .nil => True
  | depth, G, .cons a q b =>
    a.Legal o depth G ∧ (∀ x ∈ q, x.Legal o.variant) ∧ a.EndsBefore G (quantifierMarks q ++ b.marks) ∧
      b.Legal o depth (a.after G)

/-- A pattern that is legal behind some groups and inside so many. -/
def Regexp.Legal (o : Options) : (depth : Nat) → Groups → Regexp → Prop
  | depth, G, .branch b => b.Legal o depth G
  | depth, G, .bar b r => b.Legal o depth G ∧ r.Legal o depth (b.after G)

end

/-- A tree is the syntax of an expression: it is a pattern of the grammar, and the expression spells it. -/
def Regexp.IsSyntaxOf (o : Options) (r : Regexp) (expression : List CodeUnit) : Prop :=
  r.Legal o 0 {} ∧ Spells o.foldBlanks false r.marks expression

end XmlPattern.Grammar
