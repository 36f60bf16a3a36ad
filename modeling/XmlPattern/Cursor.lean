import XmlPattern.Text.CodeUnit

/-!
# The cursor

A `Cursor` stands on one unit of an expression: the units passed, the current one on top, and those to come. Before
the first advance it stands on nothing, which reads as NUL; past the last unit it is at the end. When blanks fold,
`advance` and `retreat` pass over them, except inside a class.

- `expression_advance`, `expression_retreat`: moving never changes the expression.
- `current_ofUnits`, `position_ofUnits`: the state of a new cursor.
-/

namespace XmlPattern

/-- A place in an expression. -/
structure Cursor where
  /-- The units passed, the current one first. -/
  passed : List CodeUnit
  /-- The units to come. -/
  rest : List CodeUnit
  /-- Past the last unit. -/
  atEnd : Bool
  /-- Blanks outside classes do not count. -/
  folding : Bool
  /-- Inside a class, where every unit counts. -/
  inClass : Bool
  deriving DecidableEq, Repr

namespace Cursor

/-- A cursor before the first unit. -/
def ofUnits (units : List CodeUnit) (folding : Bool) : Cursor := ⟨[], units, false, folding, false⟩

/-- The whole expression. -/
def expression (c : Cursor) : List CodeUnit := c.passed.reverse ++ c.rest

/-- The index of the next unit to read; one more than the length at the end. -/
def position (c : Cursor) : Nat := c.passed.length + if c.atEnd then 1 else 0

/-- The current unit, if the cursor is not at the end. -/
def current (c : Cursor) : Option CodeUnit := if c.atEnd then none else some (c.passed.headD 0)

/-- The unit after the current one, blank or not. -/
def next (c : Cursor) : Option CodeUnit := if c.atEnd then none else c.rest.head?

/-- How many advances still change the cursor, blanks counted. -/
def remaining (c : Cursor) : Nat := c.rest.length + if c.atEnd then 0 else 1

/-- Whether blanks are passed over here. -/
def skipping (c : Cursor) : Bool := c.folding && !c.inClass

/-- Whether the cursor is on the given unit. -/
def isAt (c : Cursor) (u : CodeUnit) : Bool := c.current == some u

/-- Takes units from those to come up to the first that counts; the flag tells that none did. -/
def take (skip : Bool) : (passed rest : List CodeUnit) → List CodeUnit × List CodeUnit × Bool
  | passed, [] => (passed, [], true)
  | passed, u :: rest => if skip && u.isBlank then take skip (u :: passed) rest else (u :: passed, rest, false)

/-- Gives back units passed down to the last that counts. -/
def giveBack (skip : Bool) : (passed rest : List CodeUnit) → List CodeUnit × List CodeUnit
  | [], rest => ([], rest)
  | u :: passed, rest => if skip && u.isBlank then giveBack skip passed (u :: rest) else (u :: passed, rest)

/-- Moves to the next unit that counts, or to the end. -/
def advance (c : Cursor) : Cursor :=
  let r := take c.skipping c.passed c.rest
  { c with passed := r.1, rest := r.2.1, atEnd := r.2.2 }

/-- Moves back to the last unit that counts before the current one. -/
def retreat (c : Cursor) : Cursor :=
  let r :=
    if c.atEnd then giveBack c.skipping c.passed c.rest
    else match c.passed with
      | [] => ([], c.rest)
      | u :: passed => giveBack c.skipping passed (u :: c.rest)
  { c with passed := r.1, rest := r.2, atEnd := false }

theorem expression_ofUnits (units : List CodeUnit) (folding : Bool) : (ofUnits units folding).expression = units := by
  simp [ofUnits, expression]

theorem current_ofUnits (units : List CodeUnit) (folding : Bool) : (ofUnits units folding).current = some 0 := rfl

theorem position_ofUnits (units : List CodeUnit) (folding : Bool) : (ofUnits units folding).position = 0 := rfl

theorem take_append (skip : Bool) (passed rest : List CodeUnit) :
    (take skip passed rest).1.reverse ++ (take skip passed rest).2.1 = passed.reverse ++ rest := by
  induction rest generalizing passed with
  | nil => rfl
  | cons u rest ih =>
    unfold take
    split
    · rw [ih]; simp
    · simp

theorem giveBack_append (skip : Bool) (passed rest : List CodeUnit) :
    (giveBack skip passed rest).1.reverse ++ (giveBack skip passed rest).2 = passed.reverse ++ rest := by
  induction passed generalizing rest with
  | nil => rfl
  | cons u passed ih =>
    unfold giveBack
    split
    · rw [ih]; simp
    · simp

theorem expression_advance (c : Cursor) : c.advance.expression = c.expression :=
  take_append ..

theorem expression_retreat (c : Cursor) : c.retreat.expression = c.expression := by
  unfold retreat expression
  split
  · exact giveBack_append ..
  · split
    · next h => simp [h]
    · next u passed h =>
      simp only [giveBack_append, h, List.reverse_cons, List.append_assoc, List.singleton_append]

end Cursor

end XmlPattern
