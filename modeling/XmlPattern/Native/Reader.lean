import XmlPattern.Native.Tree
import XmlPattern.Text.Numeral

/-!
# Reading native patterns

The text of a native pattern is read into a `Tree` by recursive descent: alternatives of sequences of pieces, a piece
being an atom and perhaps a quantifier. This much all engines share. How an engine reads what stands for characters is
its `Lexis`. Reading fails on a text that is no pattern. A brace that starts no bounds stands for itself.

- `Lexis.tree?`: the syntax tree of a whole text and the number of its groups.
-/

namespace XmlPattern.Native

/-- What has been read of a pattern: the rest of the text and how many groups have been opened. -/
structure Reading where
  rest : List Char
  opened : Nat

/-- What holds for the part of the pattern that is being read. -/
structure Scope where
  caseBlind : Bool := false
  multiLine : Bool := false

/-- How an engine reads what stands for characters. -/
structure Lexis (α : Type) where
  /-- What a character without a meaning of its own stands for. -/
  plain? : Scope → Char → Option α
  /-- What the dot stands for. -/
  dot : α
  /-- An escape that is no back-reference, from behind the backslash. -/
  escape? : Scope → List Char → Option (Tree α × List Char)
  /-- A class, from behind its opening bracket. -/
  class? : Scope → List Char → Option (α × List Char)

variable {α : Type}

/-! ## Quantifiers -/

/-- How often an atom is to match. -/
structure Quantifier where
  min : Nat
  max : Option Nat

/-- The digits in front and what follows them. -/
def digits (cs : List Char) : List Char × List Char := cs.span Char.isDigit

/-- A numeral in front and what follows it. -/
def number? (cs : List Char) : Option (Nat × List Char) :=
  match digits cs with
  | ([], _) => none
  | (ds, rest) => some (Numeral.ofDecimal ds, rest)

/-- Bounds, from behind the opening brace. -/
def bounds? (cs : List Char) : Option (Quantifier × List Char) :=
  match cs.head? == some ',', number? cs with
  | false, none => none
  | _, lower =>
    let (lower, rest) := lower.getD (0, cs)
    match rest with
    | '\x7d' :: rest => some (⟨lower, some lower⟩, rest)
    | ',' :: rest =>
      match number? rest, rest with
      | some (upper, '\x7d' :: rest), _ => some (⟨lower, some upper⟩, rest)
      | none, '\x7d' :: rest => some (⟨lower, none⟩, rest)
      | _, _ => none
    | _ => none

/-- A quantifier in front, whatever makes it lazy left aside. -/
def quantifier? : List Char → Option (Quantifier × List Char)
  | '?' :: rest => some (⟨0, some 1⟩, rest)
  | '*' :: rest => some (⟨0, none⟩, rest)
  | '+' :: rest => some (⟨1, none⟩, rest)
  | '\x7b' :: rest => bounds? rest
  | _ => none

/-- The atom with the quantifier behind it, if there is one. -/
def quantified (a : Tree α) (r : Reading) : Option (Tree α × Reading) :=
  match quantifier? r.rest with
  | none => some (a, r)
  | some (q, rest) =>
    match rest with
    | '?' :: rest => some (.repeated q.min q.max false a, { r with rest })
    | rest => some (.repeated q.min q.max true a, { r with rest })

/-! ## Groups -/

/-- A reader of what a group encloses. -/
abbrev Inner (α : Type) := Scope → Reading → Option (Tree α × Reading)

/-- A group of some kind: its inside, up to and with the closing parenthesis. -/
def enclosed? (kind : GroupKind) (inner : Inner α) (s : Scope) (r : Reading) : Option (Tree α × Reading) := do
  let (a, r) ← inner s r
  match r.rest with
  | ')' :: rest => return (.group kind a, { r with rest })
  | _ => none

/-- A group, from behind its opening parenthesis. -/
def group? (inner : Inner α) (s : Scope) (r : Reading) (cs : List Char) : Option (Tree α × Reading) :=
  match cs with
  | '?' :: ':' :: rest => enclosed? .plain inner s { r with rest }
  | '?' :: 'i' :: ':' :: rest => enclosed? .caseless inner { s with caseBlind := true } { r with rest }
  | '?' :: '=' :: rest => enclosed? (.lookAhead true) inner s { r with rest }
  | '?' :: '!' :: rest => enclosed? (.lookAhead false) inner s { r with rest }
  | '?' :: '<' :: '=' :: rest => enclosed? (.lookBehind true) inner s { r with rest }
  | '?' :: '<' :: '!' :: rest => enclosed? (.lookBehind false) inner s { r with rest }
  | '?' :: _ => none
  | rest => enclosed? (.capturing (r.opened + 1)) inner s { rest, opened := r.opened + 1 }

/-! ## The grammar -/

namespace Lexis

variable (l : Lexis α)

/-- A back-reference, which must name a group that has been opened, or another escape, from behind the backslash. -/
def escaped? (s : Scope) (r : Reading) (cs : List Char) : Option (Tree α × Reading) :=
  match number? cs with
  | some (n, rest) => if 1 ≤ n ∧ n ≤ r.opened then some (.reference n s.caseBlind, { r with rest }) else none
  | none => (l.escape? s cs).map fun (a, rest) => (a, { r with rest })

/-- An atom, given how to read what a group encloses. -/
def atom? (inner : Inner α) (s : Scope) (r : Reading) : Option (Tree α × Reading) :=
  match r.rest with
  | [] | '*' :: _ | '+' :: _ | '?' :: _ => none
  | '.' :: rest => some (.chars l.dot, { r with rest })
  | '^' :: rest => some (.boundary (if s.multiLine then .lineStart else .textStart), { r with rest })
  | '$' :: rest => some (.boundary (if s.multiLine then .lineEnd else .textEnd), { r with rest })
  | '(' :: rest => group? inner s r rest
  | '\\' :: rest => l.escaped? s r rest
  | '[' :: rest => (l.class? s rest).map fun (set, rest) => (.chars set, { r with rest })
  | c :: rest => (l.plain? s c).map fun set => (.chars set, { r with rest })

/-- A sequence of pieces, up to a bar, a closing parenthesis or the end. -/
def branch? (inner : Inner α) (s : Scope) : (fuel : Nat) → Reading → Option (Tree α × Reading)
  | 0, r => some (.empty, r)
  | n + 1, r =>
    match r.rest with
    | [] | '|' :: _ | ')' :: _ => some (.empty, r)
    | _ => do
      let (a, r) ← l.atom? inner s r
      let (a, r) ← quantified a r
      let (b, r) ← branch? inner s n r
      return (.seq a b, r)

/-- Branches with bars between them. -/
def branches? (inner : Inner α) (s : Scope) : (fuel : Nat) → Reading → Option (Tree α × Reading)
  | 0, r => some (.empty, r)
  | n + 1, r => do
    let (a, r) ← l.branch? inner s n r
    match r.rest with
    | '|' :: rest =>
      let (b, r) ← branches? inner s n { r with rest }
      return (.alt a b, r)
    | _ => return (a, r)

/-- A pattern inside groups, or a whole one. -/
def pattern? : (fuel : Nat) → Inner α
  | 0, _, r => some (.empty, r)
  | n + 1, s, r => l.branches? (pattern? n) s (r.rest.length + 1) r

/-- The syntax tree of a whole text and the number of its groups. -/
def tree? (multiLine : Bool) (text : List Char) : Option (Tree α × Nat) :=
  match l.pattern? (text.length + 1) { multiLine } ⟨text, 0⟩ with
  | some (a, ⟨[], opened⟩) => some (a, opened)
  | _ => none

end Lexis

end XmlPattern.Native
