import XmlPattern.Proofs.Scan.Folding
import XmlPattern.Proofs.Structure

/-!
# Folding blanks is leaving them out

Folding is done by the cursor, unit by unit. What comes of it is what comes of leaving out the blanks outside brackets
first (`Grammar.stripped`): the same pattern and warnings, or the same failure, each at the place that corresponds
(`Grammar.keptOffsets`).

- `convert_folded`: an expression whose blanks are folded is converted as what is left of it without them.
-/

namespace XmlPattern

open Grammar

/-- Two conversions are the same, but for the places in the expression that their warnings, or their failures, name. -/
inductive Conversion.Corresponds (K : List Nat) : Except Failure Conversion → Except Failure Conversion → Prop where
  | ok {c c' : Conversion} (same : c' = { c with warnings := c'.warnings })
      (warnings : List.Forall₂ (Diagnostic.Corresponds K) c.warnings c'.warnings) : Corresponds K (.ok c) (.ok c')
  | error {d d' : Diagnostic} (failure : d.Corresponds K d') :
      Corresponds K (.error (.pattern d)) (.error (.pattern d'))

/--
An expression whose blanks are folded is converted as what is left of it without its blanks outside brackets. What is
said of a unit that is left is said of the unit where it has stood, and what is said of the end is said of the end.
-/
theorem convert_folded {o : Options} (hl : o.literal = false) (d : Dialect) (units : List CodeUnit) :
    Conversion.Corresponds (keptOffsets units) (convert { o with foldBlanks := true } (.schema d) units)
      (convert { o with foldBlanks := false } (.schema d) (stripped units)) := by
  have hscan := Scan.pattern_lockstep o d units ⟨Nat.le_refl _, Nat.le_refl _⟩
  rw [convert_of_not_literal (o := { o with foldBlanks := true }) hl,
    convert_of_not_literal (o := { o with foldBlanks := false }) hl, convertPattern, convertPattern, ScanState.scan,
    ScanState.scan]
  unfold Scan.Lockstep at hscan
  generalize (Scan.pattern { o with foldBlanks := true } _ _).run _ = x,
    (Scan.pattern { o with foldBlanks := false } _ _).run _ = y at hscan ⊢
  cases hscan with
  | @ok _ s t h =>
    refine .ok ?_ h.warnings
    rw [h.output, h.opened]
  | error h => exact .error h

/-- A group that is not closed, with blanks and without. -/
theorem convert_folded_unclosed :
    Diagnostic.Corresponds [1, 3, 5] ⟨.expected ')', 5, " ( a "⟩ ⟨.expected ')', 2, "(a"⟩ := by
  have h : Conversion.Corresponds [1, 3, 5] (.error (.pattern ⟨.expected ')', 5, " ( a "⟩))
      (.error (.pattern ⟨.expected ')', 2, "(a"⟩)) :=
    convert_folded (o := {}) rfl .scalar (CodeUnit.encode " ( a ".toList)
  cases h with
  | error h => exact h

end XmlPattern
