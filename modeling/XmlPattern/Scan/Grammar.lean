import XmlPattern.Scan.NativeAtom
import XmlPattern.Scan.Quantifier

/-!
# The grammar of patterns

A pattern is a list of branches with bars between them, and a branch is a list of atoms, each with its quantifier.
Schema patterns and native ones share this grammar and differ in their atoms. Every loop of the grammar takes at
least one unit a round, so as much fuel as there are units is enough; a reader without fuel does what it would do at
the end.

- `atom_schema`, `atom_native`: an atom reads the inside of its groups with the grammar itself.
-/

namespace XmlPattern

/-- What the atoms of a pattern are. -/
inductive Atoms where
  /-- Atoms of schemas, to be written in a dialect. -/
  | schema (d : Dialect)
  /-- Native atoms, which are kept as they are. -/
  | native
  deriving DecidableEq, Repr

/-- The dialect that the pattern is written in. -/
def Atoms.dialect : Atoms → Dialect
  | schema d => d
  | native => .scalar

namespace Scan

/-- Atoms with their quantifiers, as long as one starts here. -/
def branch (v : Variant) (atom : Scan Bool) : (fuel : Nat) → Scan Unit
  | 0 => return
  | n + 1 => do
    if ← atom then
      quantifier v n
      branch v atom n

/-- Further branches, each behind its bar. -/
def alternatives (branch : Scan Unit) : (fuel : Nat) → Scan Unit
  | 0 => return
  | n + 1 => do
    if ← isAt '|' then
      copy
      branch
      alternatives branch n

/-- Branches with bars between them. -/
def regexp (v : Variant) (atom : Scan Bool) (fuel : Nat) : Scan Unit := do
  branch v atom fuel
  alternatives (branch v atom fuel) fuel

/-- An atom, if one starts here; so many groups are open around it. -/
def atom (o : Options) (atoms : Atoms) : (fuel depth : Nat) → Scan Bool
  | 0, _ => return false
  | n + 1, depth =>
    let nested := do
      descend depth
      regexp o.variant (atom o atoms n (depth + 1)) n
    match atoms with
    | .schema _ => schemaAtom o n nested
    | .native => nativeAtom n nested

/-- Branches of atoms inside so many groups. -/
def expression (o : Options) (atoms : Atoms) (fuel depth : Nat) : Scan Unit :=
  regexp o.variant (atom o atoms fuel depth) fuel

/-- The inside of a group that so many others enclose. -/
def enclosed (o : Options) (atoms : Atoms) (fuel depth : Nat) : Scan Unit := do
  descend depth
  expression o atoms fuel (depth + 1)

theorem atom_schema (o : Options) (d : Dialect) (n depth : Nat) :
    atom o (.schema d) (n + 1) depth = schemaAtom o n (enclosed o (.schema d) n depth) := rfl

theorem atom_native (o : Options) (n depth : Nat) :
    atom o .native (n + 1) depth = nativeAtom n (enclosed o .native n depth) := rfl

/-- A whole pattern. -/
def pattern (o : Options) (atoms : Atoms) (fuel : Nat) : Scan Unit := do
  advance
  expression o atoms fuel 0
  if (← current).isSome then fail .expectedEnd

end Scan

end XmlPattern
