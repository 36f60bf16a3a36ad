import XmlPattern.Dialect.Literal
import XmlPattern.Native.Reader

/-!
# Native patterns over code units

Engines of the UTF-16 dialect match 16-bit units. A character of one unit stands for its unit, an escape gives a unit by
four hexadecimal digits or takes the meaning from what follows it, and a class lists units and ranges of units. Nothing
stands for a character of two units as such. Case counts throughout: these engines cannot set it aside for part of a
pattern.

- `Lexis.unit`: how such an engine reads what stands for units.
-/

namespace XmlPattern.Native

/-- A range of units. -/
structure UnitSpan where
  min : CodeUnit
  max : CodeUnit
  deriving DecidableEq, Repr

/-- A class of units: those in one of the spans, or all others. -/
structure UnitSet where
  negated : Bool
  spans : List UnitSpan
  deriving DecidableEq, Repr

namespace UnitSpan

/-- Whether a unit is in the range. -/
def contains (r : UnitSpan) (u : CodeUnit) : Bool := r.min ≤ u && u ≤ r.max

/-- One unit. -/
def single (u : CodeUnit) : UnitSpan := ⟨u, u⟩

end UnitSpan

namespace UnitSet

/-- Whether a unit is of the class. -/
def contains (s : UnitSet) (u : CodeUnit) : Bool := s.spans.any (·.contains u) != s.negated

/-- One unit. -/
def single (u : CodeUnit) : UnitSet := ⟨false, [.single u]⟩

end UnitSet

/-- The unit of a character that is one. -/
def unitOf? (c : Char) : Option CodeUnit := if isSupplementary c then none else some (.ofBasic c)

/-- The unit of an escape, from behind the backslash. -/
def unitEscape? : List Char → Option (CodeUnit × List Char)
  | 'u' :: a :: b :: c :: d :: rest => (Numeral.ofHex? [a, b, c, d]).map fun n => (.ofNat n, rest)
  | c :: rest => if c.isAlphanum then none else (unitOf? c).map (·, rest)
  | [] => none

/-- A unit in a class. -/
def unitMember? : List Char → Option (CodeUnit × List Char)
  | '\\' :: rest => unitEscape? rest
  | c :: rest => (unitOf? c).map (·, rest)
  | [] => none

/-- A unit or a range of units in a class. -/
def unitItem? (cs : List Char) : Option (UnitSpan × List Char) :=
  match unitMember? cs with
  | some (lo, '-' :: ']' :: rest) => some (.single lo, '-' :: ']' :: rest)
  | some (lo, '-' :: rest) =>
    match unitMember? rest with
    | some (hi, rest) => if lo ≤ hi then some (⟨lo, hi⟩, rest) else none
    | none => none
  | some (lo, rest) => some (.single lo, rest)
  | none => none

/-- The items of a class and what follows its closing bracket. -/
def unitItems? : (fuel : Nat) → List Char → Option (List UnitSpan × List Char)
  | 0, _ => none
  | _ + 1, ']' :: rest => some ([], rest)
  | n + 1, cs => do
    let (span, rest) ← unitItem? cs
    let (spans, rest) ← unitItems? n rest
    return (span :: spans, rest)

/-- A class, from behind its opening bracket. -/
def unitClass? (cs : List Char) : Option (UnitSet × List Char) :=
  let (negated, cs) := match cs with
    | '^' :: cs => (true, cs)
    | cs => (false, cs)
  (unitItems? (cs.length + 1) cs).map fun (spans, rest) => (⟨negated, spans⟩, rest)

/-- The units that end a line. -/
def lineEnds : List UnitSpan := [.single 0x0A, .single 0x0D, ⟨0x2028, 0x2029⟩]

/-- How an engine of the UTF-16 dialect reads what stands for units. -/
def Lexis.unit : Lexis UnitSet where
  plain? s c := if s.caseBlind then none else (unitOf? c).map .single
  dot := ⟨true, lineEnds⟩
  escape? s cs := if s.caseBlind then none else (unitEscape? cs).map fun (u, rest) => (.chars (.single u), rest)
  class? s cs := if s.caseBlind then none else unitClass? cs

end XmlPattern.Native
