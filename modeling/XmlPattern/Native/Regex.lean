import XmlPattern.CharSet.Basic
import XmlPattern.Native.Tree

/-!
# Native patterns as trees

A `Regex` is what a native pattern means to a backtracking engine: characters, sequences, ordered alternatives,
repetitions, groups, back-references, assertions and look-around. `states` estimates how large an automaton for a
pattern would be, and `width?` is the number of characters that all its matches have, if they have one.

- `Regex.lookBehind?`: looking behind needs a fixed width, of the whole pattern or of each alternative.
- `Regex.ofTree?`: the pattern that a syntax tree stands for.
-/

namespace XmlPattern

/-- A native pattern. -/
inductive Regex where
  /-- The empty text. -/
  | empty
  /-- One character of a set. -/
  | chars (s : CharSet)
  | seq (a b : Regex)
  /-- The first pattern or else the second. -/
  | alt (a b : Regex)
  /-- At least `min` times and at most `max` times, as often or as seldom as possible. -/
  | repeated (min : Nat) (max : Option Nat) (greedy : Bool) (a : Regex)
  /-- A pattern whose match is kept under a number. -/
  | group (number : Nat) (a : Regex)
  /-- What a group has matched. -/
  | reference (number : Nat) (caseBlind : Bool)
  | boundary (b : Boundary)
  /-- Whether the pattern matches from here on. -/
  | lookAhead (positive : Bool) (a : Regex)
  /-- Whether the pattern, which is so many characters wide, matches up to here. -/
  | lookBehind (positive : Bool) (width : Nat) (a : Regex)
  deriving DecidableEq

namespace Regex

/-- A sequence, in which the empty pattern is left out. -/
def andThen : Regex → Regex → Regex
  | empty, b => b
  | a, empty => a
  | a, b => seq a b

/-- Whether a quantifier may follow. -/
def isRepeatable : Regex → Bool
  | empty | lookAhead .. | lookBehind .. => false
  | _ => true

/-- The number of characters of every match, if there is one for all. -/
def width? : Regex → Option Nat
  | empty | boundary _ | lookAhead .. | lookBehind .. => some 0
  | chars _ => some 1
  | seq a b => do return (← a.width?) + (← b.width?)
  | alt a b => if a.width? = b.width? then a.width? else none
  | repeated min max _ a => if max = some min then (a.width?).map (min * ·) else none
  | group _ a => a.width?
  | reference .. => none

/-- A look-behind, taken apart into one for each alternative when the widths differ. -/
def lookBehind? (positive : Bool) (a : Regex) : Option Regex :=
  match a.width?, a with
  | some width, a => some (.lookBehind positive width a)
  | none, alt a b => do
    let a ← lookBehind? positive a
    let b ← lookBehind? positive b
    return if positive then .alt a b else .seq a b
  | none, _ => none

/--
The pattern that a syntax tree stands for, unless a quantifier stands where none may, or with bounds in the wrong order.
-/
def ofTree? : Native.Tree CharSet → Option Regex
  | .empty => some empty
  | .chars s => some (chars s)
  | .boundary b => some (boundary b)
  | .reference number caseBlind => some (reference number caseBlind)
  | .seq a b => do return (← ofTree? a).andThen (← ofTree? b)
  | .alt a b => do return alt (← ofTree? a) (← ofTree? b)
  | .repeated min max greedy a => do
    let a ← ofTree? a
    guard (a.isRepeatable && max.all (min ≤ ·))
    return repeated min max greedy a
  | .group (.capturing number) a => do return group number (← ofTree? a)
  | .group .plain a => ofTree? a
  | .group .caseless a => ofTree? a
  | .group (.lookAhead positive) a => do return lookAhead positive (← ofTree? a)
  | .group (.lookBehind positive) a => do lookBehind? positive (← ofTree? a)

theorem ofTree?_seq_eq_some {a b : Native.Tree CharSet} {r : Regex} :
    ofTree? (.seq a b) = some r ↔ ∃ ra, ofTree? a = some ra ∧ ∃ rb, ofTree? b = some rb ∧ ra.andThen rb = r := by
  show ((ofTree? a).bind fun ra => (ofTree? b).bind fun rb => some (ra.andThen rb)) = some r ↔ _
  simp only [Option.bind_eq_some_iff, Option.some.injEq]

theorem ofTree?_alt_eq_some {a b : Native.Tree CharSet} {r : Regex} :
    ofTree? (.alt a b) = some r ↔ ∃ ra, ofTree? a = some ra ∧ ∃ rb, ofTree? b = some rb ∧ alt ra rb = r := by
  show ((ofTree? a).bind fun ra => (ofTree? b).bind fun rb => some (alt ra rb)) = some r ↔ _
  simp only [Option.bind_eq_some_iff, Option.some.injEq]

theorem ofTree?_repeated_eq_some {min : Nat} {max : Option Nat} {greedy : Bool} {a : Native.Tree CharSet} {r : Regex} :
    ofTree? (.repeated min max greedy a) = some r ↔
      ∃ ra, ofTree? a = some ra ∧ ra.isRepeatable = true ∧ (∀ n ∈ max, min ≤ n) ∧ repeated min max greedy ra = r := by
  show ((ofTree? a).bind fun ra =>
    (if (ra.isRepeatable && max.all (min ≤ ·)) = true then some () else none).bind fun _ =>
      some (repeated min max greedy ra)) = some r ↔ _
  simp only [Option.bind_eq_some_iff, Option.some.injEq, Option.ite_none_right_eq_some, Bool.and_eq_true,
    Option.all_eq_true, decide_eq_true_eq, and_assoc, exists_and_left, exists_const, true_and, Option.mem_def]

theorem ofTree?_capturing_eq_some {number : Nat} {a : Native.Tree CharSet} {r : Regex} :
    ofTree? (.group (.capturing number) a) = some r ↔ ∃ ra, ofTree? a = some ra ∧ group number ra = r := by
  show ((ofTree? a).bind fun ra => some (group number ra)) = some r ↔ _
  simp only [Option.bind_eq_some_iff, Option.some.injEq]

/-- Whether an automaton can do without memory: the pattern neither refers back nor looks around. -/
def isRegular : Regex → Bool
  | empty | chars _ | boundary _ => true
  | seq a b | alt a b => a.isRegular && b.isRegular
  | repeated _ _ _ a | group _ a => a.isRegular
  | reference .. | lookAhead .. | lookBehind .. => false

/-- About how many states an automaton over bytes has for the pattern. -/
def states : Regex → Nat
  | empty | boundary _ | reference .. => 1
  | chars s => s.ranges.foldr (fun r n => (Char.ofNat r.max).utf8Size + n) 0
  | seq a b => a.states + b.states
  | alt a b => a.states + b.states + 1
  | repeated min max _ a =>
    match max with
    | some max => min * a.states + (max - min) * (a.states + 1)
    | none => Nat.max min 1 * a.states + 1
  | group _ a => a.states + 2
  | lookAhead _ a | lookBehind _ _ a => a.states + 2

end Regex

end XmlPattern
