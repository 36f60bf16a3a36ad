import XmlPattern.Cursor
import XmlPattern.Fragment
import XmlPattern.Options

/-!
# The state of a scan

A `ScanState` is the state of one conversion: where the scanner is, what it has written, which groups it has opened
and closed, and what it has warned about. Everything that a scan gathers only grows.

- `ScanState.textOf_write`: writing adds the text of the fragment at the end.
-/

namespace XmlPattern

/-- The state of one conversion. -/
structure ScanState where
  options : Options
  cursor : Cursor
  /-- What has been written. -/
  output : Array Fragment
  /-- How many capturing groups have been opened; they are numbered from one. -/
  opened : Nat
  /-- The numbers of the groups closed, the last first. -/
  closed : List Nat
  /-- What has been warned about. -/
  warnings : Array Diagnostic

namespace ScanState

/-- The state before the first unit is read. -/
def ofUnits (options : Options) (units : List CodeUnit) : ScanState where
  options
  cursor := .ofUnits units options.foldBlanks
  output := #[]
  opened := 0
  closed := []
  warnings := #[]

/-- The text written so far. -/
def text (s : ScanState) (d : Dialect) : List Char := Fragment.textOf d s.output.toList

/-- A cause stamped with the current place. -/
def diagnostic (s : ScanState) (r : Reason) : Diagnostic :=
  ⟨r, s.cursor.position - 1, String.ofList (CodeUnit.decodeLossy s.cursor.expression)⟩

/-- Adds a fragment to the output. -/
def write (s : ScanState) (f : Fragment) : ScanState := { s with output := s.output.push f }

/-- Records a warning at the current place. -/
def warn (s : ScanState) (r : Reason) : ScanState := { s with warnings := s.warnings.push (s.diagnostic r) }

/-- Moves the cursor on. -/
def advance (s : ScanState) : ScanState := { s with cursor := s.cursor.advance }

/-- Moves the cursor back. -/
def retreat (s : ScanState) : ScanState := { s with cursor := s.cursor.retreat }

/-- Tells the cursor whether it is in a class. -/
def setInClass (s : ScanState) (b : Bool) : ScanState := { s with cursor := { s.cursor with inClass := b } }

/-- Opens a group under the next number. -/
def openGroup (s : ScanState) : ScanState := { s with opened := s.opened + 1 }

/-- Marks a group as closed. -/
def closeGroup (s : ScanState) (number : Nat) : ScanState := { s with closed := number :: s.closed }

theorem textOf_write (s : ScanState) (f : Fragment) (d : Dialect) :
    (s.write f).text d = s.text d ++ f.text d := by
  simp [write, text, Fragment.textOf]

end ScanState

end XmlPattern
