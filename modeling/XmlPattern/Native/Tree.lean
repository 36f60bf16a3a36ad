/-!
# Native patterns as they are written

A `Tree` is the syntax tree of a native pattern: alternatives above sequences above atoms with quantifiers, and groups
of every kind kept as such. What stands for characters is left to a parameter, so that patterns over characters and
patterns over 16-bit units share the type. Nothing is checked here but the form: whether an engine takes a quantifier
where it stands, or so many groups within one another, is asked when a `Regex` is made of the tree.

- `Tree.depth`: how many groups are within one another.
-/

namespace XmlPattern

/-- What an assertion asks of a place in a text. -/
inductive Boundary where
  | textStart | textEnd | lineStart | lineEnd
  deriving DecidableEq, Repr

namespace Native

/-- What a group does beside keeping its inside together. -/
inductive GroupKind where
  /-- Keeps what its inside matches under a number. -/
  | capturing (number : Nat)
  /-- Nothing else. -/
  | plain
  /-- Has its inside match in any case. -/
  | caseless
  /-- Asks whether its inside matches from here on. -/
  | lookAhead (positive : Bool)
  /-- Asks whether its inside matches up to here. -/
  | lookBehind (positive : Bool)
  deriving DecidableEq, Repr

/-- A native pattern as it is written. -/
inductive Tree (α : Type) where
  /-- The end of a sequence. -/
  | empty
  /-- One character, or one unit, of a set. -/
  | chars (s : α)
  | boundary (b : Boundary)
  | reference (number : Nat) (caseBlind : Bool)
  | seq (a b : Tree α)
  | alt (a b : Tree α)
  | repeated (min : Nat) (max : Option Nat) (greedy : Bool) (a : Tree α)
  | group (kind : GroupKind) (a : Tree α)

/-- How many groups are within one another. -/
def Tree.depth {α : Type} : Tree α → Nat
  | empty | chars _ | boundary _ | reference .. => 0
  | seq a b | alt a b => max a.depth b.depth
  | repeated _ _ _ a => a.depth
  | group _ a => a.depth + 1

end Native

end XmlPattern
