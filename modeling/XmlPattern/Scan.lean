import XmlPattern.Scan.State

/-!
# Scanners

A scanner is a program over the commands of `Command`: looking at the cursor, moving it on, writing, keeping count of
groups, warning and failing. A program is a value, so what holds of every command, and of one scanner after another,
holds of every scanner by one induction. `Scan.run` carries a program out on a state. A failure leaves the state as
it was when the failure occurred.

- `Scan.run_bind`: a sequence runs its first part, and its second part unless the first fails.
-/

namespace XmlPattern

/-- What a scanner can do, by what it learns from it. -/
inductive Command : Type → Type where
  /-- The current unit, unless the cursor is at the end. -/
  | current : Command (Option CodeUnit)
  /-- The unit after the current one, blank or not. -/
  | next : Command (Option CodeUnit)
  /-- Moves on. -/
  | advance : Command Unit
  /-- Whether the cursor is in a class. -/
  | inClass : Command Bool
  /-- Enters or leaves a class. -/
  | setInClass (b : Bool) : Command Unit
  /-- Writes a fragment. -/
  | write (f : Fragment) : Command Unit
  /-- Opens a group and learns its number. -/
  | openGroup : Command Nat
  /-- Closes a group. -/
  | closeGroup (number : Nat) : Command Unit
  /-- How many groups have been opened. -/
  | opened : Command Nat
  /-- Whether a group has been closed. -/
  | isClosed (number : Nat) : Command Bool
  /-- Warns at the current place. -/
  | warn (r : Reason) : Command Unit
  /-- Fails if groups may not nest deeper than this. -/
  | descend (depth : Nat) : Command Unit
  /-- Fails at the current place. -/
  | fail (r : Reason) : Command Empty

/-- Carries out one command. -/
def Command.run {α : Type} : Command α → ScanState → Except Diagnostic α × ScanState
  | current, s => (.ok s.cursor.current, s)
  | next, s => (.ok s.cursor.next, s)
  | advance, s => (.ok (), s.advance)
  | inClass, s => (.ok s.cursor.inClass, s)
  | setInClass b, s => (.ok (), s.setInClass b)
  | write f, s => (.ok (), s.write f)
  | openGroup, s => (.ok (s.opened + 1), s.openGroup)
  | closeGroup number, s => (.ok (), s.closeGroup number)
  | opened, s => (.ok s.opened, s)
  | isClosed number, s => (.ok (s.closed.contains number), s)
  | warn r, s => (.ok (), s.warn r)
  | descend depth, s =>
    if s.options.maxDepth ≤ depth then (.error (s.diagnostic .nestingTooDeep), s) else (.ok (), s)
  | fail r, s => (.error (s.diagnostic r), s)

/-- A scanner that finds a value. -/
inductive Scan : Type → Type 1 where
  /-- Does nothing. -/
  | done {α : Type} (a : α) : Scan α
  /-- A single command. -/
  | command {α : Type} (c : Command α) : Scan α
  /-- One scanner and then another that knows what the first has found. -/
  | andThen {α β : Type} (p : Scan α) (f : α → Scan β) : Scan β

namespace Scan

variable {α β : Type}

instance : Monad Scan where
  pure := done
  bind := andThen

/-- Carries a scanner out. -/
def run {α : Type} : Scan α → ScanState → Except Diagnostic α × ScanState
  | done a, s => (.ok a, s)
  | command c, s => c.run s
  | andThen p f, s =>
    match p.run s with
    | (.ok a, s) => (f a).run s
    | (.error d, s) => (.error d, s)

@[simp]
theorem run_pure (a : α) (s : ScanState) : (pure a : Scan α).run s = (.ok a, s) := rfl

@[simp]
theorem run_command (c : Command α) (s : ScanState) : (command c).run s = c.run s := rfl

theorem run_bind (p : Scan α) (f : α → Scan β) (s : ScanState) :
    (p >>= f).run s = match p.run s with
      | (.ok a, s) => (f a).run s
      | (.error d, s) => (.error d, s) := by
  show (andThen p f).run s = _
  rw [run]

/-! ## The commands as scanners -/

/-- The current unit, unless the cursor is at the end. -/
def current : Scan (Option CodeUnit) := command .current

/-- The unit after the current one, blank or not. -/
def next : Scan (Option CodeUnit) := command .next

/-- Moves on. -/
def advance : Scan Unit := command .advance

/-- Whether the cursor is in a class. -/
def inClass : Scan Bool := command .inClass

/-- Enters or leaves a class. -/
def setInClass (b : Bool) : Scan Unit := command (.setInClass b)

/-- Writes a fragment. -/
def write (f : Fragment) : Scan Unit := command (.write f)

/-- Opens a group and learns its number. -/
def openGroup : Scan Nat := command .openGroup

/-- Closes a group. -/
def closeGroup (number : Nat) : Scan Unit := command (.closeGroup number)

/-- How many groups have been opened. -/
def opened : Scan Nat := command .opened

/-- Whether a group has been closed. -/
def isClosed (number : Nat) : Scan Bool := command (.isClosed number)

/-- Warns at the current place. -/
def warn (r : Reason) : Scan Unit := command (.warn r)

/-- Fails if groups may not nest deeper than this. -/
def descend (depth : Nat) : Scan Unit := command (.descend depth)

/-- Fails at the current place. -/
def fail (r : Reason) : Scan α := andThen (command (.fail r)) Empty.elim

theorem run_fail (r : Reason) (s : ScanState) : (fail r : Scan α).run s = (.error (s.diagnostic r), s) := rfl

/-! ## Small scanners -/

/-- Writes text as it stands. -/
def writeText (text : String) : Scan Unit := write (.verbatim text.toList)

/-- The current unit as an ASCII character, if it is one. -/
def ascii : Scan (Option Char) := do return (← current).bind CodeUnit.toAscii?

/-- Whether the cursor is on the given character. -/
def isAt (c : Char) : Scan Bool := do return (← current) == some (CodeUnit.ofBasic c)

/-- Fails unless the cursor is on the given character. -/
def expect (c : Char) : Scan Unit := do
  unless ← isAt c do fail (.expected c)

/-- Writes the current unit as it stands, NUL at the end, and moves on; a surrogate is left out. -/
def copy : Scan Unit := do
  let u := (← current).getD 0
  unless u.isSurrogate do write (.verbatim [u.toBasic])
  advance

/-- The character at the cursor, NUL at the end. After a surrogate pair the cursor is on its second unit. -/
def character : Scan Char := do
  match ← current with
  | none => return '\x00'
  | some u =>
    if u.isHighSurrogate then
      advance
      match ← current with
      | some v => if v.isLowSurrogate then return Char.ofNat (CodeUnit.combine u v) else fail .invalidSurrogatePair
      | none => fail .invalidSurrogatePair
    else if u.isLowSurrogate then fail .invalidSurrogatePair
    else return u.toBasic

end Scan

/-- Carries out a scanner that takes fuel, with as much of it as there are units left. -/
def ScanState.scan {α : Type} (s : ScanState) (p : (fuel : Nat) → Scan α) : Except Diagnostic α × ScanState :=
  (p s.cursor.remaining).run s

end XmlPattern
