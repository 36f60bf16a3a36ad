import XmlPattern.Proofs.Native.Reading
import XmlPattern.Scan.NativeAtom

/-!
# Syntax trees of native patterns

The grammar of native patterns as far as a conversion that copies them tells their parts apart: characters, escapes with
what they have behind their letter, classes within one another, and groups of every kind. Like the trees of schema
patterns, these keep everything that a pattern is written with. What native engines would not take is a bound that is
too large; `Regexp.clamped` has the largest one in its place.

- `Regexp.text`: what a tree is written as.
- `Regexp.Legal`: which trees are patterns.
- `Regexp.legal_clamped`: a pattern is still one with clamped bounds.
-/

namespace XmlPattern

open Grammar

/-! ## Clamped bounds -/

/-- The quantifier that is written for one, whose bounds are no larger than native engines take. -/
def Grammar.Quantity.clamped : Quantity → Quantity
  | star => star
  | plus => plus
  | option => option
  | exactly digits => exactly (boundText digits)
  | atLeast digits => atLeast (boundText digits)
  | between lower upper => between (boundText lower) (boundText upper)

theorem boundText_boundText (digits : List Char) : boundText (boundText digits) = boundText digits := by
  have h : Numeral.ofDecimal (boundText digits) ≤ maxBound := by
    rw [ofDecimal_boundText]
    exact Nat.min_le_right _ _
  rw [boundText, if_pos h]

theorem Grammar.Quantity.legal_clamped {q : Quantity} (h : q.Legal) : q.clamped.Legal := by
  cases q with
  | star | plus | option => trivial
  | exactly digits | atLeast digits => exact Native.isNumeral_boundText h
  | between lower upper =>
    refine ⟨Native.isNumeral_boundText h.1, Native.isNumeral_boundText h.2.1, ?_⟩
    have hle := h.2.2
    rw [ofDecimal_boundText, ofDecimal_boundText]
    omega

theorem Grammar.Quantity.text_clamped (q : Quantity) : q.clamped.text = q.written := by
  cases q <;> rfl

theorem Grammar.Quantity.clamped_clamped (q : Quantity) : q.clamped.clamped = q.clamped := by
  cases q <;> simp [clamped, boundText_boundText]

/-- A quantifier with the bounds that are written for it. -/
def Grammar.Quantifier.clamped (q : Quantifier) : Quantifier := { q with quantity := q.quantity.clamped }

theorem Grammar.Quantifier.legal_clamped {v : Variant} {q : Option Quantifier} (h : ∀ x ∈ q, x.Legal v) :
    ∀ x ∈ q.map clamped, x.Legal v := by
  cases q with
  | none => exact nofun
  | some q =>
    rintro _ ⟨⟩
    exact ⟨Quantity.legal_clamped (h q rfl).1, (h q rfl).2⟩

/-- What is written for a quantifier is the text of the clamped one. -/
theorem Grammar.Quantifier.text_clamped (q : Option Quantifier) : (q.map clamped).elim [] text = quantifierText q := by
  cases q with
  | none => rfl
  | some q => exact congrArg (· ++ _) q.quantity.text_clamped

/-- Clamped bounds are not clamped further. -/
theorem Grammar.Quantifier.clamped_clamped (q : Option Quantifier) : (q.map clamped).map clamped = q.map clamped := by
  cases q with
  | none => rfl
  | some q => exact congrArg (fun x => some (Quantifier.mk x q.isLazy)) q.quantity.clamped_clamped

namespace Verbatim

/-! ## Escapes -/

/-- What an escape has behind its letter, where that tells its own end. -/
inductive Operand (letter : Char) : List Char → Prop where
  | none : Scan.escapeWidth? letter = .none → (letter.isDigit = true → letter = '0') → Operand letter []
  | braced {width : Nat} {text : List Char} :
    Scan.escapeWidth? letter = some width → '\x7d' ∉ text → Operand letter ('\x7b' :: (text ++ ['\x7d']))
  | fixed {text : List Char} : Scan.escapeWidth? letter = some text.length → text.head? ≠ some '\x7b' →
      Operand letter text

/-- An escape: a letter, or any other character, and what belongs to it; or a number, which goes on with every digit. -/
inductive Escape where
  | lettered (letter : Char) (operand : List Char)
  | numbered (digits : List Char)
  deriving DecidableEq, Repr

/-- What an escape is written as. -/
def Escape.text : Escape → List Char
  | lettered letter operand => '\\' :: letter :: operand
  | numbered digits => '\\' :: digits

theorem Escape.exists_text (e : Escape) : ∃ text, e.text = '\\' :: text := by
  cases e <;> exact ⟨_, rfl⟩

/-- Numbers do not begin with a zero. -/
def Escape.Legal : Escape → Prop
  | lettered letter operand => Operand letter operand
  | numbered digits => IsNumeral digits ∧ digits.head? ≠ some '0'

/-- A text does not go on with a digit. -/
def EndsNumber (text : List Char) : Prop := ∀ c ∈ text.head?, c.isDigit = false

/-- An escape is over in front of a text: no digit follows that a number would have taken. -/
def Escape.EndsBefore (text : List Char) : Escape → Prop
  | lettered _ _ => True
  | numbered _ => EndsNumber text

/-! ## Classes -/

/-- What is left of a class in which so many brackets are open beside its own, in front of its closing bracket. -/
inductive ClassRest : Nat → List Char → Prop where
  | nil : ClassRest 0 []
  | char {inner : Nat} {c : Char} {rest : List Char} :
    c ∉ ['\\', '[', ']'] → ClassRest inner rest → ClassRest inner (c :: rest)
  | opens {inner : Nat} {rest : List Char} : ClassRest (inner + 1) rest → ClassRest inner ('[' :: rest)
  | closes {inner : Nat} {rest : List Char} : ClassRest inner rest → ClassRest (inner + 1) (']' :: rest)
  | escape {inner : Nat} {e : Escape} {rest : List Char} :
    e.Legal → e.EndsBefore rest → ClassRest inner rest → ClassRest inner (e.text ++ rest)

/-- A class is closed by the first bracket that does not belong to one within it. -/
theorem ClassRest.head_ne {rest : List Char} (h : ClassRest 0 rest) : rest.head? ≠ some ']' := by
  cases h with
  | nil => exact nofun
  | char hc _ =>
    rintro ⟨⟩
    exact hc (by decide)
  | opens _ => exact nofun
  | @escape _ e rest _ _ _ =>
    obtain ⟨text, htext⟩ := e.exists_text
    rw [htext]
    exact nofun

/-- What stands between the brackets of a class, behind its caret; a closing bracket in front is a member. -/
inductive ClassBody : List Char → Prop where
  | bracket {rest : List Char} : ClassRest 0 rest → ClassBody (']' :: rest)
  | rest {text : List Char} : text ≠ [] → ClassRest 0 text → ClassBody text

/-! ## Trees -/

/-- An atom that is no group, or a group without an inside. -/
inductive Leaf where
  | char (c : Char)
  | escape (e : Escape)
  | charClass (negated : Bool) (body : List Char)
  /-- Flags in parentheses. -/
  | flags (fs : List Char)
  deriving DecidableEq, Repr

mutual

/-- An atom. -/
inductive Atom where
  | leaf (l : Leaf)
  | capturing (r : Regexp)
  /-- A group that does not capture, with what stands between its question mark and its inside: flags and a sign. -/
  | group (flags : List Char) (sign : Char) (r : Regexp)

/-- Atoms with their quantifiers. -/
inductive Branch where
  | nil
  | cons (a : Atom) (q : Option Quantifier) (b : Branch)

/-- Branches with bars between them. -/
inductive Regexp where
  | branch (b : Branch)
  | bar (b : Branch) (r : Regexp)

end

/-- What an atom without a pattern inside is written as. -/
def Leaf.text : Leaf → List Char
  | char c => [c]
  | escape e => e.text
  | charClass negated body => ('[' :: if negated then ['^'] else []) ++ (body ++ [']'])
  | flags fs => '(' :: '?' :: (fs ++ [')'])

mutual

/-- What an atom is written as. -/
def Atom.text : Atom → List Char
  | .leaf l => l.text
  | .capturing r => '(' :: (r.text ++ [')'])
  | .group flags sign r => '(' :: '?' :: (flags ++ [sign]) ++ (r.text ++ [')'])

/-- What a branch is written as. -/
def Branch.text : Branch → List Char
  | .nil => []
  | .cons a q b => a.text ++ (q.elim [] Quantifier.text ++ b.text)

/-- What a pattern is written as. -/
def Regexp.text : Regexp → List Char
  | .branch b => b.text
  | .bar b r => b.text ++ '|' :: r.text

end

mutual

/-- The groups behind an atom. -/
def Atom.after : Groups → Atom → Groups
  | G, .leaf _ => G
  | G, .capturing r => (r.after G.open).close (G.opened + 1)
  | G, .group _ _ r => r.after G

/-- The groups behind a branch. -/
def Branch.after : Groups → Branch → Groups
  | G, .nil => G
  | G, .cons a _ b => b.after (a.after G)

/-- The groups behind a pattern. -/
def Regexp.after : Groups → Regexp → Groups
  | G, .branch b => b.after G
  | G, .bar b r => r.after (b.after G)

end

mutual

/-- An atom with clamped bounds. -/
def Atom.clamped : Atom → Atom
  | .leaf l => .leaf l
  | .capturing r => .capturing r.clamped
  | .group flags sign r => .group flags sign r.clamped

/-- A branch with clamped bounds. -/
def Branch.clamped : Branch → Branch
  | .nil => .nil
  | .cons a q b => .cons a.clamped (q.map Quantifier.clamped) b.clamped

/-- A pattern with clamped bounds, and otherwise as it is. -/
def Regexp.clamped : Regexp → Regexp
  | .branch b => .branch b.clamped
  | .bar b r => .bar b.clamped r.clamped

end

/-! ## Patterns -/

/-- The characters that are no atoms by themselves. -/
def metaChars : List Char := ['(', '[', '\\', '?', '*', '+', ')', '\x7b', '\x7d', '|']

/-- The signs behind which the inside of a group begins. -/
def insideSigns : List Char := [':', '=', '!', '>']

/-- Flags go up to the first sign, or to the end of the group. -/
def IsFlags (flags : List Char) : Prop := ∀ c ∈ flags, c ∉ ')' :: insideSigns

theorem isFlags_nil : IsFlags [] := fun _ h => absurd h List.not_mem_nil

/-- An atom without a pattern inside is legal if its parts are. -/
def Leaf.Legal : Leaf → Prop
  | char c => c ∉ metaChars
  | escape e => e.Legal
  | charClass negated body => ClassBody body ∧ (negated = false → body.head? ≠ some '^')
  | flags fs => IsFlags fs

/-- An atom is over in front of a text. -/
def Atom.EndsBefore (text : List Char) : Atom → Prop
  | .leaf (.escape e) => e.EndsBefore text
  | _ => True

mutual

/-- An atom that is legal inside so many groups. -/
def Atom.Legal (o : Options) : (depth : Nat) → Atom → Prop
  | _, .leaf l => l.Legal
  | depth, .capturing r => depth < o.maxDepth ∧ r.Legal o (depth + 1)
  | depth, .group flags sign r => IsFlags flags ∧ sign ∈ insideSigns ∧ depth < o.maxDepth ∧ r.Legal o (depth + 1)

/-- A branch that is legal inside so many groups. -/
def Branch.Legal (o : Options) : (depth : Nat) → Branch → Prop
  | _, .nil => True
  | depth, .cons a q b =>
    a.Legal o depth ∧ (∀ x ∈ q, x.Legal o.variant) ∧
      a.EndsBefore (q.elim [] Quantifier.text ++ b.text) ∧ b.Legal o depth

/-- A pattern that is legal inside so many groups. -/
def Regexp.Legal (o : Options) : (depth : Nat) → Regexp → Prop
  | depth, .branch b => b.Legal o depth
  | depth, .bar b r => b.Legal o depth ∧ r.Legal o depth

end

/-! ## What a text begins with -/

open Native (StartsAtom EndsPiece)

theorem Escape.starts (e : Escape) (rest : List Char) : StartsAtom (e.text ++ rest) := by
  cases e <;> exact ⟨'\\', _, rfl, by decide, by decide, by decide⟩

theorem Leaf.starts {l : Leaf} (h : l.Legal) : StartsAtom l.text := by
  cases l with
  | char c =>
    have hall : ∀ d ∈ '|' :: ')' :: Native.quantifiers, d ∈ metaChars := List.all_iff_forall_prop.mp (by decide)
    have hne : ∀ d ∈ '|' :: ')' :: Native.quantifiers, c ≠ d := fun d hd he => h (he ▸ hall d hd)
    exact ⟨c, [], rfl, fun hc => hne c (by simp [hc]) rfl, hne '|' (by simp), hne ')' (by simp)⟩
  | escape e =>
    have hs := e.starts []
    rwa [List.append_nil] at hs
  | charClass negated body => exact ⟨'[', _, rfl, by decide, by decide, by decide⟩
  | flags fs => exact ⟨'(', _, rfl, by decide, by decide, by decide⟩

theorem Atom.starts {o : Options} {depth : Nat} {a : Atom} (h : a.Legal o depth) : StartsAtom a.text := by
  cases a with
  | leaf l => exact Leaf.starts h
  | capturing r => exact ⟨'(', _, rfl, by decide, by decide, by decide⟩
  | group flags sign r => exact ⟨'(', _, rfl, by decide, by decide, by decide⟩

theorem Branch.endsPiece {o : Options} {depth : Nat} {b : Branch} (h : b.Legal o depth) : EndsPiece b.text := by
  cases b with
  | nil => exact nofun
  | cons a q b => exact ((Atom.starts h.1).append _).endsPiece

/-- A pattern does not begin with a quantifier, and a group with one inside not with a question mark. -/
theorem Regexp.endsPiece {o : Options} {depth : Nat} {r : Regexp} (h : r.Legal o depth) : EndsPiece r.text := by
  cases r with
  | branch b => exact Branch.endsPiece h
  | bar b r =>
    have hb := Branch.endsPiece h.1
    show EndsPiece (b.text ++ '|' :: r.text)
    cases hbt : b.text with
    | nil =>
      rintro _ ⟨⟩
      decide
    | cons c rest =>
      rintro _ ⟨⟩
      exact hb c (by rw [hbt]; rfl)

/-! ## Clamped trees -/

/-- Where an atom ends depends on no more than the next character. -/
theorem Atom.endsBefore_congr {text text' : List Char} (h : text.head? = text'.head?) (a : Atom) :
    a.EndsBefore text ↔ a.clamped.EndsBefore text' := by
  cases a with
  | leaf l =>
    cases l with
    | escape e =>
      cases e with
      | lettered letter operand => exact Iff.rfl
      | numbered digits =>
        show EndsNumber text ↔ EndsNumber text'
        rw [EndsNumber, EndsNumber, h]
    | char c | charClass negated body | flags fs => exact Iff.rfl
  | capturing r => exact Iff.rfl
  | group flags sign r => exact Iff.rfl

theorem Atom.head?_clamped (a : Atom) : a.clamped.text.head? = a.text.head? := by
  cases a <;> rfl

/-- Clamping the bounds of what is behind an atom does not change the next character. -/
theorem Branch.head?_clamped {o : Options} {depth : Nat} {b : Branch} (h : b.Legal o depth) (q : Option Quantifier) :
    (q.elim [] Quantifier.text ++ b.text).head? =
      ((q.map Quantifier.clamped).elim [] Quantifier.text ++ b.clamped.text).head? := by
  cases q with
  | some q =>
    obtain ⟨quantity, isLazy⟩ := q
    cases quantity <;> rfl
  | none =>
    cases b with
    | nil => rfl
    | cons a q b =>
      obtain ⟨c, rest, htext, _⟩ := Atom.starts h.1
      obtain ⟨rest', htext'⟩ := List.head?_eq_some_iff.mp (a.head?_clamped.trans (congrArg List.head? htext))
      show (a.text ++ _).head? = (a.clamped.text ++ _).head?
      rw [htext, htext']
      rfl

mutual

theorem Atom.legal_clamped {o : Options} : (a : Atom) → {depth : Nat} → a.Legal o depth → a.clamped.Legal o depth
  | .leaf _, _, h => h
  | .capturing r, _, h => ⟨h.1, r.legal_clamped h.2⟩
  | .group _ _ r, _, h => ⟨h.1, h.2.1, h.2.2.1, r.legal_clamped h.2.2.2⟩

theorem Branch.legal_clamped {o : Options} : (b : Branch) → {depth : Nat} → b.Legal o depth → b.clamped.Legal o depth
  | .nil, _, _ => trivial
  | .cons a q b, _, h =>
    ⟨a.legal_clamped h.1, Quantifier.legal_clamped h.2.1,
      (a.endsBefore_congr (Branch.head?_clamped h.2.2.2 q)).mp h.2.2.1, b.legal_clamped h.2.2.2⟩

/-- A pattern is still one with clamped bounds. -/
theorem Regexp.legal_clamped {o : Options} : (r : Regexp) → {depth : Nat} → r.Legal o depth → r.clamped.Legal o depth
  | .branch b, _, h => b.legal_clamped h
  | .bar b r, _, h => ⟨b.legal_clamped h.1, r.legal_clamped h.2⟩

end

mutual

theorem Atom.after_clamped : (G : Groups) → (a : Atom) → a.clamped.after G = a.after G
  | _, .leaf _ => rfl
  | G, .capturing r => congrArg (Groups.close · (G.opened + 1)) (r.after_clamped G.open)
  | G, .group _ _ r => r.after_clamped G

theorem Branch.after_clamped : (G : Groups) → (b : Branch) → b.clamped.after G = b.after G
  | _, .nil => rfl
  | G, .cons a _ b => by
    simp only [Branch.clamped, Branch.after, a.after_clamped G, b.after_clamped (a.after G)]

/-- Clamping bounds leaves the groups as they are. -/
theorem Regexp.after_clamped : (G : Groups) → (r : Regexp) → r.clamped.after G = r.after G
  | G, .branch b => b.after_clamped G
  | G, .bar b r => by
    simp only [Regexp.clamped, Regexp.after, b.after_clamped G, r.after_clamped (b.after G)]

end

end Verbatim

end XmlPattern
