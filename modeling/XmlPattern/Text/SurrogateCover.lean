import XmlPattern.Range
import XmlPattern.Text.CodeUnit

/-!
# Covering supplementary ranges by surrogate pairs

A range of supplementary code points, seen in UTF-16, is a set of pairs. Every first unit whose low half is full
goes into a `HighRun`, which any low surrogate may follow. The first units at either end of a range may be
covered in part only; each of these is a `LowRun`: one high surrogate and the low surrogates that may follow it.

- `mem_highRuns`, `mem_lowRuns`: the runs of a list are the runs of its ranges.
-/

namespace XmlPattern

/-- High surrogates that any low surrogate may follow. -/
structure HighRun where
  min : CodeUnit
  max : CodeUnit
  deriving DecidableEq, Repr

/-- One high surrogate and the low surrogates that may follow it. -/
structure LowRun where
  high : CodeUnit
  min : CodeUnit
  max : CodeUnit
  deriving DecidableEq, Repr

namespace Range

open CodeUnit

/-- The first unit of the range's start takes every low surrogate. -/
def startsFull (r : Range) : Bool := lowOf r.min == 0xDC00

/-- The first unit of the range's end takes every low surrogate. -/
def endsFull (r : Range) : Bool := lowOf r.max == 0xDFFF

/-- The first units of a range that every low surrogate may follow. -/
def highRun? (r : Range) : Option HighRun :=
  let first := (highOf r.min).toNat + if r.startsFull then 0 else 1
  let last := (highOf r.max).toNat - if r.endsFull then 0 else 1
  if first ≤ last then some ⟨.ofNat first, .ofNat last⟩ else none

/-- The first units of a range that only some low surrogates may follow, with these. -/
def lowRuns (r : Range) : List LowRun :=
  if highOf r.min = highOf r.max then
    if r.startsFull && r.endsFull then [] else [⟨highOf r.min, lowOf r.min, lowOf r.max⟩]
  else
    (if r.startsFull then [] else [⟨highOf r.min, lowOf r.min, 0xDFFF⟩]) ++
      (if r.endsFull then [] else [⟨highOf r.max, 0xDC00, lowOf r.max⟩])

end Range

/-- The fully covered first units of each range, in the order of the ranges. -/
def highRuns (ranges : List Range) : List HighRun := ranges.filterMap Range.highRun?

/-- The partly covered first units of each range, in the order of the ranges. -/
def lowRuns (ranges : List Range) : List LowRun := ranges.flatMap Range.lowRuns

theorem mem_highRuns {ranges : List Range} {run : HighRun} :
    run ∈ highRuns ranges ↔ ∃ r ∈ ranges, r.highRun? = some run := by
  simp [highRuns]

theorem mem_lowRuns {ranges : List Range} {run : LowRun} :
    run ∈ lowRuns ranges ↔ ∃ r ∈ ranges, run ∈ r.lowRuns := by
  simp [lowRuns]

end XmlPattern
