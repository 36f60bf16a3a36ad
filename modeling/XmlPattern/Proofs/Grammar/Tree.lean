import XmlPattern.Options
import XmlPattern.Text.CodeUnit

/-!
# Syntax trees of schema patterns

The grammar of XML Schema and XPath patterns, as trees that keep everything an expression is written with: the digits of
bounds, the letters of escapes, the hyphens of classes. `Regexp.marks` is what a tree is written as: the units in order,
each with whether it leaves the reader inside a class expression, which is all that blank folding has to know.

- `Regexp.units`: the spelling of a tree.
- `Spells`: an expression spells units, with blanks in between where blanks outside classes do not count.
- `spells_iff`: where blanks count, an expression spells exactly itself.
-/

namespace XmlPattern.Grammar

/-! ## Trees -/

/-- How often an atom may stand, with bounds by their digits. -/
inductive Quantity where
  | star | plus | option
  | exactly (digits : List Char)
  | atLeast (digits : List Char)
  | between (lower upper : List Char)
  deriving DecidableEq, Repr

/-- A quantifier; a lazy one has `?` behind it. -/
structure Quantifier where
  quantity : Quantity
  isLazy : Bool
  deriving DecidableEq, Repr

/-- A single character, as itself or as a backslash and a letter. -/
inductive Single where
  | plain (c : Char)
  | escaped (letter : Char)
  deriving DecidableEq, Repr

/-- An escape that stands for a set: a letter, or a name in braces. -/
inductive SetEscape where
  | letter (c : Char)
  | property (negated : Bool) (name : List CodeUnit)
  deriving DecidableEq, Repr

/-- What a class expression lists, hyphens of their own aside. -/
inductive ClassItem where
  | single (x : Single)
  | range (lo hi : Single)
  | set (e : SetEscape)
  deriving DecidableEq, Repr

/-- The list of a class expression: a caret, a hyphen in front, the items, and a hyphen at the end. -/
structure ClassGroup where
  negated : Bool
  hyphenFirst : Bool
  items : List ClassItem
  hyphenLast : Bool
  deriving DecidableEq, Repr

/-- What stands between the brackets of a class expression: a list, or a list and a class expression to subtract. -/
inductive ClassTree where
  | list (g : ClassGroup)
  | minus (g : ClassGroup) (c : ClassTree)
  deriving DecidableEq, Repr

/-- An atom that stands for one character. -/
inductive Leaf where
  | dot
  | single (x : Single)
  | set (e : SetEscape)
  | charClass (c : ClassTree)
  deriving DecidableEq, Repr

mutual

/-- An atom. -/
inductive Atom where
  | leaf (l : Leaf)
  /-- The anchors of XPath, `^` or `$`. -/
  | anchor (c : Char)
  /-- A back-reference by the digits of its number. -/
  | reference (digits : List Char)
  /-- A group in parentheses; one that does not capture has `?:` in front of its inside. -/
  | group (capturing : Bool) (r : Regexp)

/-- Atoms with their quantifiers. -/
inductive Branch where
  | nil
  | cons (a : Atom) (q : Option Quantifier) (b : Branch)

/-- Branches with bars between them. -/
inductive Regexp where
  | branch (b : Branch)
  | bar (b : Branch) (r : Regexp)

end

/-! ## Properties of all parts -/

section

variable (p : Leaf → Prop)

mutual

/-- Every atom of one character in an atom has a property. -/
def Atom.Every : Atom → Prop
  | .leaf l => p l
  | .anchor _ | .reference _ => True
  | .group _ r => r.Every

/-- Every atom of one character in a branch has a property. -/
def Branch.Every : Branch → Prop
  | .nil => True
  | .cons a _ b => a.Every ∧ b.Every

/-- Every atom of one character in a pattern has a property. -/
def Regexp.Every : Regexp → Prop
  | .branch b => b.Every
  | .bar b r => b.Every ∧ r.Every

end

variable {p}

mutual

theorem Atom.every_of_forall (h : ∀ l, p l) : (a : Atom) → a.Every p
  | .leaf l => h l
  | .anchor _ | .reference _ => trivial
  | .group _ r => r.every_of_forall h

theorem Branch.every_of_forall (h : ∀ l, p l) : (b : Branch) → b.Every p
  | .nil => trivial
  | .cons a _ b => ⟨a.every_of_forall h, b.every_of_forall h⟩

theorem Regexp.every_of_forall (h : ∀ l, p l) : (r : Regexp) → r.Every p
  | .branch b => b.every_of_forall h
  | .bar b r => ⟨b.every_of_forall h, r.every_of_forall h⟩

end

variable {q : Leaf → Prop}

mutual

theorem Atom.Every.imp (h : ∀ l, p l → q l) : {a : Atom} → a.Every p → a.Every q
  | .leaf l, ha => h l ha
  | .anchor _, _ | .reference _, _ => trivial
  | .group _ _, ha => Regexp.Every.imp h ha

theorem Branch.Every.imp (h : ∀ l, p l → q l) : {b : Branch} → b.Every p → b.Every q
  | .nil, _ => trivial
  | .cons _ _ _, hb => ⟨Atom.Every.imp h hb.1, Branch.Every.imp h hb.2⟩

theorem Regexp.Every.imp (h : ∀ l, p l → q l) : {r : Regexp} → r.Every p → r.Every q
  | .branch _, hr => Branch.Every.imp h hr
  | .bar _ _, hr => ⟨Branch.Every.imp h hr.1, Regexp.Every.imp h hr.2⟩

end

end

mutual

/-- An atom has no anchors and no back-references. -/
def Atom.Plain : Atom → Prop
  | .leaf _ => True
  | .anchor _ | .reference _ => False
  | .group _ r => r.Plain

/-- A branch has no anchors and no back-references. -/
def Branch.Plain : Branch → Prop
  | .nil => True
  | .cons a _ b => a.Plain ∧ b.Plain

/-- A pattern has no anchors and no back-references. -/
def Regexp.Plain : Regexp → Prop
  | .branch b => b.Plain
  | .bar b r => b.Plain ∧ r.Plain

end

/-! ## Spelling -/

/-- The units of characters of the basic plane. -/
def basic (cs : List Char) : List CodeUnit := cs.map CodeUnit.ofBasic

@[simp]
theorem basic_nil : basic [] = [] := rfl

@[simp]
theorem basic_cons (c : Char) (cs : List Char) : basic (c :: cs) = CodeUnit.ofBasic c :: basic cs := rfl

@[simp]
theorem basic_append (cs ds : List Char) : basic (cs ++ ds) = basic cs ++ basic ds := List.map_append

/-- The unit of a character of the basic plane. -/
abbrev unit (c : Char) : CodeUnit := CodeUnit.ofBasic c

namespace Quantity

/-- The characters of a quantity. -/
def text : Quantity → List Char
  | star => ['*']
  | plus => ['+']
  | option => ['?']
  | exactly digits => '\x7b' :: digits ++ ['\x7d']
  | atLeast digits => '\x7b' :: digits ++ [',', '\x7d']
  | between lower upper => '\x7b' :: lower ++ ',' :: upper ++ ['\x7d']

end Quantity

/-- The characters of a quantifier. -/
def Quantifier.text (q : Quantifier) : List Char := q.quantity.text ++ if q.isLazy then ['?'] else []

/-- The units of a single character. -/
def Single.units : Single → List CodeUnit
  | plain c => CodeUnit.ofChar c
  | escaped letter => basic ['\\', letter]

/-- The units of a set escape. -/
def SetEscape.units : SetEscape → List CodeUnit
  | letter c => basic ['\\', c]
  | property negated name => basic ['\\', if negated then 'P' else 'p', '\x7b'] ++ name ++ basic ['\x7d']

/-- The units of an item. -/
def ClassItem.units : ClassItem → List CodeUnit
  | single x => x.units
  | range lo hi => lo.units ++ unit '-' :: hi.units
  | set e => e.units

/-- The units of a list. -/
def ClassGroup.units (g : ClassGroup) : List CodeUnit :=
  (if g.negated then [unit '^'] else []) ++ (if g.hyphenFirst then [unit '-'] else []) ++
    g.items.flatMap ClassItem.units ++ if g.hyphenLast then [unit '-'] else []

/-- The units between the brackets of a class expression. -/
def ClassTree.units : ClassTree → List CodeUnit
  | list g => g.units
  | minus g c => g.units ++ unit '-' :: unit '[' :: c.units ++ [unit ']']

/-- A unit and whether the reader is inside a class expression once it has passed the unit. -/
abbrev Mark := CodeUnit × Bool

/-- Units outside class expressions. -/
def outside (us : List CodeUnit) : List Mark := us.map (·, false)

/-- Units inside class expressions. -/
def inside (us : List CodeUnit) : List Mark := us.map (·, true)

/-- What an atom for one character is written as. -/
def Leaf.marks : Leaf → List Mark
  | dot => outside [unit '.']
  | single x => outside x.units
  | set e => outside e.units
  | charClass c => inside (unit '[' :: c.units) ++ outside [unit ']']

/-- What a quantifier is written as, if there is one. -/
def quantifierMarks (q : Option Quantifier) : List Mark := outside (basic (q.elim [] Quantifier.text))

mutual

/-- What an atom is written as. -/
def Atom.marks : Atom → List Mark
  | .leaf l => l.marks
  | .anchor c => outside [unit c]
  | .reference digits => outside (basic ('\\' :: digits))
  | .group capturing r =>
    outside (basic (if capturing then ['('] else ['(', '?', ':'])) ++ r.marks ++ outside [unit ')']

/-- What a branch is written as. -/
def Branch.marks : Branch → List Mark
  | .nil => []
  | .cons a q b => a.marks ++ quantifierMarks q ++ b.marks

/-- What a pattern is written as. -/
def Regexp.marks : Regexp → List Mark
  | .branch b => b.marks
  | .bar b r => b.marks ++ outside [unit '|'] ++ r.marks

end

/-- The spelling of a pattern. -/
def Regexp.units (r : Regexp) : List CodeUnit := r.marks.map (·.1)

/--
An expression spells marks from a place that is inside a class expression or not: it is their units, but blanks outside
class expressions may stand in front of any unit, and at the end, where such blanks do not count.
-/
inductive Spells (fold : Bool) : (inClass : Bool) → List Mark → List CodeUnit → Prop where
  | nil {b : Bool} : Spells fold b [] []
  | blank {u : CodeUnit} {ms : List Mark} {us : List CodeUnit} :
      fold = true → u.isBlank = true → Spells fold false ms us → Spells fold false ms (u :: us)
  | unit {b b' : Bool} {u : CodeUnit} {ms : List Mark} {us : List CodeUnit} :
      (fold = true → b = false → u.isBlank = false) → Spells fold b' ms us → Spells fold b ((u, b') :: ms) (u :: us)

theorem spells_iff {b : Bool} {ms : List Mark} {us : List CodeUnit} : Spells false b ms us ↔ us = ms.map (·.1) := by
  constructor
  · intro h
    induction h with
    | nil => rfl
    | blank hf => cases hf
    | unit _ _ ih => simp [ih]
  · rintro rfl
    induction ms generalizing b with
    | nil => exact .nil
    | cons m ms ih => exact .unit (fun hf => by cases hf) ih

end XmlPattern.Grammar
