import Mathlib.Data.List.Forall2
import XmlPattern.Proofs.Grammar.Places
import XmlPattern.Proofs.Scan.Lockstep
import XmlPattern.Proofs.Scan.Parts

/-!
# An expression with and without its blanks

A scan that folds blanks and one of the expression without them are aligned when they stand at the same unit, wherever
it is in either, and have gathered the same. The place of that unit (`Grammar.Place`) says which blanks the one passes
over and the other does not have: the cursor must be in a class exactly when brackets are open.

- `Aligned.advance`: passing a unit keeps two scans aligned, and moves on to the place behind it.
- `Aligned.enter`, `Aligned.leave`: so does passing a bracket, once the cursor has been told.
- `Lockstep.advance`, `Lockstep.expect`, ...: the commands on aligned scans.
-/

namespace XmlPattern

open Grammar

/-- A diagnostic of the expression and one of what has been kept of it, with the offsets of what has been kept. -/
structure Diagnostic.Corresponds (offsets : List Nat) (d e : Diagnostic) : Prop where
  reason : e.reason = d.reason
  position : offsets[e.position]? = some d.position

namespace Cursor

/-- What is to come of an expression, and of what has been kept of it, behind a place. -/
structure Behind (K : List Nat) (p : Place) (c c' : Cursor) : Prop where
  rest : c'.rest = strip p c.rest
  offsets : K.drop c'.passed.length = offsets p c.passed.length c.rest

/-- A cursor that folds blanks, and one that does not have them, are on the same unit at a place. -/
structure Aligned (K : List Nat) (p : Place) (c c' : Cursor) : Prop where
  folding : c.folding = true
  folding' : c'.folding = false
  inClass : c.inClass = decide (0 < p.depth)
  inClass' : c'.inClass = decide (0 < p.depth)
  current : c'.current = c.current
  position : K[c'.position - 1]? = some (c.position - 1)
  behind : ∀ u, c.current = some u → Behind K (p.step u) c c'
  done : c.current = none → c.rest = [] ∧ c'.rest = []

/-- What the cursor takes is the first unit that is kept. -/
theorem take_cases (p : Place) (passed rest : List CodeUnit) :
    (∃ q, take (p.depth == 0) passed rest = (q, [], true) ∧ strip p rest = [] ∧
        offsets p passed.length rest = [q.length]) ∨
      ∃ u q us, take (p.depth == 0) passed rest = (u :: q, us, false) ∧ strip p rest = u :: strip (p.step u) us ∧
        offsets p passed.length rest = q.length :: offsets (p.step u) (q.length + 1) us := by
  induction rest generalizing passed with
  | nil => exact .inl ⟨passed, rfl, rfl, rfl⟩
  | cons u rest ih =>
    rw [take, strip, offsets]
    by_cases h : p.skips u = true
    · rw [if_pos h, if_pos h, if_pos (show ((p.depth == 0) && u.isBlank) = true from h)]
      exact ih (u :: passed)
    · rw [if_neg h, if_neg h, if_neg (show ¬ ((p.depth == 0) && u.isBlank) = true from h)]
      exact .inr ⟨u, passed, rest, rfl, rfl, rfl⟩

theorem getElem?_of_drop {K l : List Nat} {i k : Nat} (h : K.drop i = k :: l) : K[i]? = some k := by
  rw [← List.head?_drop, h]
  rfl

variable {K : List Nat} {p : Place} {c c' : Cursor}

/-- Cursors that have the same to come behind a place come to the same unit. -/
theorem Behind.advance (h : Behind K p c c') (hf : c.folding = true) (hf' : c'.folding = false)
    (hc : c.inClass = decide (0 < p.depth)) (hc' : c'.inClass = decide (0 < p.depth)) :
    Aligned K p c.advance c'.advance := by
  have hskip : c.skipping = (p.depth == 0) := by
    rw [skipping, hf, hc]
    cases p.depth <;> rfl
  have hskip' : c'.skipping = false := by rw [skipping, hf', Bool.false_and]
  rcases take_cases p c.passed c.rest with ⟨q, ht, hs, ho⟩ | ⟨u, q, us, ht, hs, ho⟩
  · have hend : c.advance = ⟨q, [], true, c.folding, c.inClass⟩ := by rw [Cursor.advance, hskip, ht]
    have hend' : c'.advance = ⟨c'.passed, [], true, c'.folding, c'.inClass⟩ := by
      rw [Cursor.advance, hskip', h.rest, hs]
      rfl
    rw [hend, hend']
    exact ⟨hf, hf', hc, hc', rfl, getElem?_of_drop (h.offsets.trans ho), nofun, fun _ => ⟨rfl, rfl⟩⟩
  · have hnext : c.advance = ⟨u :: q, us, false, c.folding, c.inClass⟩ := by rw [Cursor.advance, hskip, ht]
    have hnext' : c'.advance = ⟨u :: c'.passed, strip (p.step u) us, false, c'.folding, c'.inClass⟩ := by
      rw [Cursor.advance, hskip', h.rest, hs]
      rfl
    rw [hnext, hnext']
    refine ⟨hf, hf', hc, hc', rfl, getElem?_of_drop (h.offsets.trans ho), ?_, nofun⟩
    rintro _ ⟨⟩
    refine ⟨rfl, ?_⟩
    rw [List.length_cons, ← List.tail_drop, h.offsets.trans ho]
    rfl

theorem Aligned.advance (h : Aligned K p c c') {u : CodeUnit} (hu : c.current = some u)
    (hd : (p.step u).depth = p.depth) : Aligned K (p.step u) c.advance c'.advance := by
  have hc := h.inClass
  have hc' := h.inClass'
  rw [← hd] at hc hc'
  exact (h.behind u hu).advance h.folding h.folding' hc hc'

theorem Aligned.advance_of_end (h : Aligned K p c c') (hu : c.current = none) : Aligned K p c.advance c'.advance := by
  obtain ⟨hr, hr'⟩ := h.done hu
  have hend : ∀ {c : Cursor}, c.current = none → c.rest = [] → c.advance = c := by
    intro c hc hr
    have : c.atEnd = true := by
      unfold Cursor.current at hc
      split at hc
      · next h => exact h
      · cases hc
    rw [Cursor.advance, hr]
    cases c
    simp_all [take]
  rw [hend hu hr, hend (h.current.trans hu) hr']
  exact h

/-- Passing a bracket, once the cursor has been told what is behind it. -/
theorem Aligned.turn (h : Aligned K p c c') {u : CodeUnit} (hu : c.current = some u) {b : Bool}
    (hb : b = decide (0 < (p.step u).depth)) :
    Aligned K (p.step u) { c with inClass := b }.advance { c' with inClass := b }.advance :=
  have hbehind : Behind K (p.step u) { c with inClass := b } { c' with inClass := b } :=
    ⟨(h.behind u hu).rest, (h.behind u hu).offsets⟩
  hbehind.advance h.folding h.folding' hb hb

theorem aligned_start (units : List CodeUnit) :
    Aligned (keptOffsets units) {} (ofUnits units true).advance (ofUnits (stripped units) false).advance :=
  Behind.advance ⟨rfl, rfl⟩ rfl rfl rfl rfl

/-- Inside brackets, nothing is left out. -/
theorem Aligned.next (h : Aligned K p c c') {u : CodeUnit} (hu : c.current = some u) (hd : 0 < (p.step u).depth) :
    c'.next = c.next := by
  have hend := atEnd_of_current hu
  have hend' := atEnd_of_current (h.current.trans hu)
  rw [Cursor.next, Cursor.next, hend, hend', (h.behind u hu).rest]
  cases c.rest with
  | nil => rfl
  | cons v rest =>
    have hskip : (p.step u).skips v = false := by
      rw [Place.skips, beq_eq_false_iff_ne.mpr (Nat.ne_of_gt hd), Bool.false_and]
    rw [strip, hskip]
    rfl

end Cursor

namespace ScanState

/--
A scan that folds blanks, and one of the expression without them, are on the same unit and have gathered the same.
-/
structure Aligned (K : List Nat) (p : Place) (s t : ScanState) : Prop where
  maxDepth : t.options.maxDepth = s.options.maxDepth
  cursor : Cursor.Aligned K p s.cursor t.cursor
  output : t.output = s.output
  opened : t.opened = s.opened
  closed : t.closed = s.closed
  warnings : List.Forall₂ (Diagnostic.Corresponds K) s.warnings.toList t.warnings.toList

variable {K : List Nat} {p q : Place} {d : Nat} {s t : ScanState} {u : CodeUnit}

/-- The scan is not on a character that means something by itself. -/
def Unmarked (s : ScanState) : Prop := ∀ c ∈ s.cursor.current.bind CodeUnit.toAscii?, c ∉ Place.signs

theorem unmarked_of_ascii {c : Char} (hc : s.cursor.current.bind CodeUnit.toAscii? = some c) (hp : c ∉ Place.signs) :
    s.Unmarked := by
  rw [Unmarked, hc]
  rintro _ ⟨⟩
  exact hp

theorem unmarked_of_current {c : Char} (hc : s.cursor.current = some (unit c)) (hlt : c.toNat < 0x80)
    (hp : c ∉ Place.signs) : s.Unmarked :=
  unmarked_of_ascii (Scan.ascii_of_current hc hlt) hp

namespace Aligned

theorem current (h : Aligned K p s t) : t.cursor.current = s.cursor.current := h.cursor.current

theorem corresponds (h : Aligned K p s t) (r : Reason) : (s.diagnostic r).Corresponds K (t.diagnostic r) :=
  ⟨rfl, h.cursor.position⟩

theorem advance (h : Aligned K p s t) (hu : s.cursor.current = some u) (hstep : p.step u = q) (hd : q.depth = p.depth) :
    Aligned K q s.advance t.advance := by
  subst hstep
  exact { h with cursor := h.cursor.advance hu hd }

theorem advance_of_end (h : Aligned K p s t) (hu : s.cursor.current = none) : Aligned K p s.advance t.advance :=
  { h with cursor := h.cursor.advance_of_end hu }

/-- Passing a character that means nothing by itself, or nothing. -/
theorem pass (h : Aligned K ⟨d, .plain⟩ s t) (hu : s.Unmarked) : Aligned K ⟨d, .plain⟩ s.advance t.advance := by
  cases hc : s.cursor.current with
  | none => exact h.advance_of_end hc
  | some u =>
    rw [Unmarked, hc] at hu
    exact h.advance hc (Place.step_plain hu) rfl

/-- Passing a bracket, once the cursor has been told what is behind it. -/
theorem turn (h : Aligned K p s t) (hu : s.cursor.current = some u) (hstep : p.step u = q) {b : Bool}
    (hb : b = decide (0 < q.depth)) : Aligned K q (s.setInClass b).advance (t.setInClass b).advance := by
  subst hstep
  exact { h with cursor := h.cursor.turn hu hb }

theorem write (h : Aligned K p s t) (f : Fragment) : Aligned K p (s.write f) (t.write f) :=
  { h with output := by rw [ScanState.write, ScanState.write, h.output] }

theorem openGroup (h : Aligned K p s t) : Aligned K p s.openGroup t.openGroup :=
  { h with opened := congrArg (· + 1) h.opened }

theorem closeGroup (h : Aligned K p s t) (n : Nat) : Aligned K p (s.closeGroup n) (t.closeGroup n) :=
  { h with closed := congrArg (n :: ·) h.closed }

theorem warn (h : Aligned K p s t) (r : Reason) : Aligned K p (s.warn r) (t.warn r) :=
  { h with
    warnings := by
      simp only [ScanState.warn, Array.toList_push]
      exact List.rel_append h.warnings (.cons (h.corresponds r) .nil) }

/-- Copying a character that means nothing by itself. -/
theorem copied (h : Aligned K ⟨d, .plain⟩ s t) {c : Char} (hc : s.cursor.current = some (unit c)) (hlt : c.toNat < 0x80)
    (hp : c ∉ Place.signs) : Aligned K ⟨d, .plain⟩ s.copied t.copied := by
  rw [copied_of_current hc (by omega), copied_of_current (h.current.trans hc) (by omega)]
  exact (h.write _).pass (unmarked_of_current hc hlt hp)

end Aligned

theorem aligned_start (o : Options) (units : List CodeUnit) :
    Aligned (keptOffsets units) {} (ofUnits { o with foldBlanks := true } units).advance
      (ofUnits { o with foldBlanks := false } (stripped units)).advance :=
  ⟨rfl, Cursor.aligned_start units, rfl, rfl, rfl, .nil⟩

end ScanState

end XmlPattern
