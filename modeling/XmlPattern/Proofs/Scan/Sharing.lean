import XmlPattern.Proofs.Scan.Lockstep

/-!
# Expressions that begin alike

A scan sees of its expression the units that it has passed and the one behind the current unit. So the same scanner, on
two expressions whose first `k` units are the same, does the same on both as long as it stays in front of the last one
of these.

- `Cursor.Shares.advance`: two cursors with a common front keep it when they move on within it.
- `Scan.lockstep_of_shares`: a scan that ends within a common front ends alike on both expressions.
-/

namespace XmlPattern

namespace Cursor

/-- Two cursors at one place, with expressions whose first so many units are the same. -/
structure Shares (k : Nat) (c c' : Cursor) : Prop where
  passed : c'.passed = c.passed
  rest : c'.rest.take (k - c.passed.length) = c.rest.take (k - c.passed.length)
  atEnd : c'.atEnd = c.atEnd
  folding : c'.folding = c.folding
  inClass : c'.inClass = c.inClass

variable {k : Nat} {c c' : Cursor}

namespace Shares

theorem current (h : c.Shares k c') : c'.current = c.current := by
  unfold Cursor.current
  rw [h.atEnd, h.passed]

theorem position (h : c.Shares k c') : c'.position = c.position := by
  unfold Cursor.position
  rw [h.atEnd, h.passed]

/-- Before the last unit of the common front the unit behind the current one is the same. -/
theorem next (h : c.Shares k c') (hk : c.position < k) : c'.next = c.next := by
  unfold Cursor.next
  rw [h.atEnd]
  split
  · rfl
  · have hle : c.passed.length ≤ c.position := Nat.le_add_right _ _
    have hrest := congrArg List.head? h.rest
    rwa [List.head?_take, List.head?_take, if_neg (by omega), if_neg (by omega)] at hrest

end Shares

/-- What is taken of two lists of units is the same as long as it is within their common front. -/
theorem take_shares (skip : Bool) {passed rest rest' : List CodeUnit}
    (h : rest'.take (k - passed.length) = rest.take (k - passed.length))
    (hk : (take skip passed rest).1.length + (if (take skip passed rest).2.2 then 1 else 0) < k) :
    (take skip passed rest').1 = (take skip passed rest).1 ∧
      (take skip passed rest').2.2 = (take skip passed rest).2.2 ∧
      (take skip passed rest').2.1.take (k - (take skip passed rest).1.length) =
        (take skip passed rest).2.1.take (k - (take skip passed rest).1.length) := by
  induction rest generalizing passed rest' with
  | nil =>
    have hk : passed.length + 1 < k := hk
    obtain ⟨j, hj⟩ : ∃ j, k - passed.length = j + 1 := ⟨k - passed.length - 1, by omega⟩
    cases rest' with
    | nil => exact ⟨rfl, rfl, rfl⟩
    | cons u rest' =>
      rw [hj, List.take_succ_cons, List.take_nil] at h
      cases h
  | cons u rest ih =>
    have hlt := length_lt_take skip passed (u :: rest)
    obtain ⟨j, hj⟩ : ∃ j, k - passed.length = j + 1 := ⟨k - passed.length - 1, by omega⟩
    cases rest' with
    | nil =>
      rw [hj, List.take_succ_cons, List.take_nil] at h
      cases h
    | cons v rest' =>
      rw [hj, List.take_succ_cons, List.take_succ_cons] at h
      obtain ⟨rfl, htail⟩ := List.cons.inj h
      have hlength : k - (v :: passed).length = j := by
        rw [List.length_cons]
        omega
      unfold take at hk ⊢
      split
      · next hv =>
        rw [if_pos hv] at hk
        exact ih (by rw [hlength, htail]) hk
      · next hv => exact ⟨rfl, rfl, by rw [hlength, htail]⟩

theorem Shares.advance (h : c.Shares k c') (hk : c.advance.position < k) : c.advance.Shares k c'.advance := by
  have hskip : c'.skipping = c.skipping := by
    unfold skipping
    rw [h.folding, h.inClass]
  obtain ⟨hpassed, hend, hrest⟩ := take_shares c.skipping h.rest hk
  unfold Cursor.advance
  rw [hskip, h.passed]
  exact ⟨hpassed, hrest, hend, h.folding, h.inClass⟩

theorem Shares.setInClass (h : c.Shares k c') (b : Bool) :
    Shares k { c with inClass := b } { c' with inClass := b } :=
  ⟨h.passed, h.rest, h.atEnd, h.folding, rfl⟩

end Cursor

/-- Two states of scans at one place, with expressions whose first so many units are the same. -/
structure ScanState.Shares (k : Nat) (s s' : ScanState) : Prop where
  cursor : s.cursor.Shares k s'.cursor
  options : s'.options = s.options
  opened : s'.opened = s.opened
  closed : s'.closed = s.closed

/-- Two diagnostics with one cause and one place. -/
def Diagnostic.SamePlace (d e : Diagnostic) : Prop := e.reason = d.reason ∧ e.position = d.position

theorem ScanState.Shares.samePlace {k : Nat} {s s' : ScanState} (h : s.Shares k s') (r : Reason) :
    (s.diagnostic r).SamePlace (s'.diagnostic r) :=
  ⟨rfl, congrArg (· - 1) h.cursor.position⟩

namespace Scan

variable {α : Type} {k : Nat} {s s' : ScanState}

/-- A command that ends within the common front does the same on both expressions. -/
theorem command_shares (c : Command α) (h : s.Shares k s') (hk : (c.run s).2.cursor.position < k) :
    Lockstep Diagnostic.SamePlace (command c) (command c) s s' fun _ t t' => t.Shares k t' := by
  unfold Lockstep
  rw [run_command, run_command]
  cases c with
  | current =>
    simp only [Command.run, h.cursor.current]
    exact .ok h
  | next =>
    simp only [Command.run, h.cursor.next hk]
    exact .ok h
  | advance => exact .ok ⟨h.cursor.advance hk, h.options, h.opened, h.closed⟩
  | inClass =>
    simp only [Command.run, h.cursor.inClass]
    exact .ok h
  | setInClass b => exact .ok ⟨h.cursor.setInClass b, h.options, h.opened, h.closed⟩
  | write f => exact .ok ⟨h.cursor, h.options, h.opened, h.closed⟩
  | openGroup =>
    simp only [Command.run, h.opened]
    exact .ok ⟨h.cursor, h.options, congrArg (· + 1) h.opened, h.closed⟩
  | closeGroup number => exact .ok ⟨h.cursor, h.options, h.opened, congrArg (number :: ·) h.closed⟩
  | opened =>
    simp only [Command.run, h.opened]
    exact .ok h
  | isClosed number =>
    simp only [Command.run, h.closed]
    exact .ok h
  | warn r => exact .ok ⟨h.cursor, h.options, h.opened, h.closed⟩
  | descend depth =>
    simp only [Command.run, h.options]
    split
    · exact .error (h.samePlace _)
    · exact .ok h
  | fail r => exact .error (h.samePlace _)

/-- A scan that ends within the common front ends alike on both expressions. -/
theorem lockstep_of_shares (p : Scan α) (h : s.Shares k s') (hk : (p.run s).2.cursor.position < k) :
    Lockstep Diagnostic.SamePlace p p s s' fun _ t t' => t.Shares k t' := by
  induction p generalizing s s' with
  | done a => exact .ok h
  | command c => exact command_shares c h hk
  | andThen p f ihp ihf =>
    rw [run] at hk
    unfold Lockstep
    rw [run, run]
    cases hp : p.run s with
    | mk r u =>
      rw [hp] at hk
      have hfirst : (p.run s).2.cursor.position < k := by
        rw [hp]
        cases r with
        | ok a => exact Nat.lt_of_le_of_lt (position_run_le (f a) u) hk
        | error d => exact hk
      -- The first part ends in front of the second one, and so within the common front.
      have hends := ihp h hfirst
      unfold Lockstep at hends
      rw [hp] at hends
      generalize p.run s' = y at hends
      cases hends with
      | ok hu => exact ihf _ hu hk
      | error he => exact .error he

end Scan

end XmlPattern
