import XmlPattern.Proofs.Scan.Counting
import XmlPattern.Proofs.Scan.Leniency
import XmlPattern.Proofs.Scan.Loops
import XmlPattern.Proofs.Scan.Orderly

/-!
# What a scanner of atoms may be relied on for

The grammar knows no atoms. It asks a scanner for one, again and again, and takes it that the scanner leaves everything
as it was unless it has found an atom, moves on when it has, and only ever adds to what has been gathered. What is only
added to is a matter of the commands; the rest is one of atoms, whose groups come back to the grammar.

- `ScanState.Grows`, `Scan.grows_run`: what any scan gathers is kept, and more is added behind.
- `Scan.atom_contract`: all of it, wherever the scan of an expression comes to, and that the loops of the grammar end.
-/

namespace XmlPattern

/-- Whatever is passed is no longer to come. -/
theorem Cursor.position_add_remaining (c : Cursor) : c.position + c.remaining = c.expression.length + 1 := by
  unfold position remaining expression
  rw [List.length_append, List.length_reverse]
  split <;> omega

namespace ScanState

/-- What has been gathered is kept, and more is added behind. -/
structure Grows (s t : ScanState) : Prop where
  output : s.output.toList <+: t.output.toList
  warnings : s.warnings.toList <+: t.warnings.toList
  opened : s.opened ≤ t.opened
  closed : s.closed <:+ t.closed

variable {s t u : ScanState}

theorem Grows.refl (s : ScanState) : s.Grows s :=
  ⟨List.prefix_refl _, List.prefix_refl _, Nat.le_refl _, List.suffix_refl _⟩

theorem Grows.trans (h : s.Grows t) (h' : t.Grows u) : s.Grows u where
  output := h.output.trans h'.output
  warnings := h.warnings.trans h'.warnings
  opened := Nat.le_trans h.opened h'.opened
  closed := h.closed.trans h'.closed

/-- The text that has been written is kept too. -/
theorem Grows.text (h : s.Grows t) (d : Dialect) : s.text d <+: t.text d := by
  obtain ⟨more, hmore⟩ := h.output
  refine ⟨Fragment.textOf d more, ?_⟩
  rw [ScanState.text, ScanState.text, ← hmore, Fragment.textOf_append]

end ScanState

namespace Scan

variable {α : Type} {s t : ScanState} {o : Options} {atoms : Atoms} {n depth : Nat}

theorem grows_command (c : Command α) (s : ScanState) : s.Grows (c.run s).2 := by
  have hpush : ∀ {γ : Type} (xs : Array γ) (x : γ), xs.toList <+: (xs.push x).toList := fun xs x => by
    rw [Array.toList_push]
    exact List.prefix_append _ _
  cases c with
  | write f => exact ⟨hpush _ f, List.prefix_refl _, Nat.le_refl _, List.suffix_refl _⟩
  | warn r => exact ⟨List.prefix_refl _, hpush _ _, Nat.le_refl _, List.suffix_refl _⟩
  | openGroup => exact ⟨List.prefix_refl _, List.prefix_refl _, Nat.le_succ _, List.suffix_refl _⟩
  | closeGroup number => exact ⟨List.prefix_refl _, List.prefix_refl _, Nat.le_refl _, List.suffix_cons _ _⟩
  | descend depth => rw [command_descend]; exact .refl s
  | _ => exact ⟨List.prefix_refl _, List.prefix_refl _, Nat.le_refl _, List.suffix_refl _⟩

/-- A scan keeps what has been gathered, even if it fails. -/
theorem grows_run (p : Scan α) (s : ScanState) : s.Grows (p.run s).2 :=
  run_keeps (P := s.Grows) (fun c _ h => h.trans (grows_command c _)) p (.refl s)

/-- An atom that is found brings the cursor forward. -/
theorem position_lt_of_atom (h : (atom o atoms n depth).Finds s true t) : s.cursor.position < t.cursor.position := by
  have hlt := (staysOrTakes_atom atoms depth s).advances_of_true h
  have hexpression : t.cursor.expression = s.cursor.expression := by
    rw [h.state_eq]
    exact expression_run _ s
  have hs := s.cursor.position_add_remaining
  have ht := t.cursor.position_add_remaining
  rw [hexpression] at ht
  omega

end Scan

/-! ## The contract -/

/-- What a scanner of atoms makes of a session, counter included. -/
structure AtomContract (x : Session) (r : Except Diagnostic Bool × Session) : Prop where
  /-- Unless there is an atom nothing happens. -/
  missing : r.1 = .ok false → r.2 = x
  /-- Behind an atom the cursor has moved on, and is in a class if it was before. -/
  found : r.1 = .ok true → x.state.cursor.position < r.2.state.cursor.position ∧
    r.2.state.cursor.inClass = x.state.cursor.inClass
  /-- What has been gathered is kept, even if the scan fails. -/
  grows : x.state.Grows r.2.state
  text : ∀ d, x.state.text d <+: r.2.state.text d
  /-- The groups closed are among those opened. -/
  numbered : ∀ m ∈ r.2.state.closed, 1 ≤ m ∧ m ≤ r.2.state.opened
  /-- As many groups are open as before, even if the scan fails. -/
  depth : r.2.depth = x.depth

namespace Scan

variable {γ : Type} {q : Scan γ} {s : ScanState} {o : Options} {atoms : Atoms} {units : List CodeUnit} {fuel : Nat}

/-- Wherever groups are numbered, atoms keep the contract. -/
theorem atomContract_of_numbered (hs : s.Numbered 0) (n depth : Nat) :
    AtomContract ⟨s, depth⟩ (((atom o atoms n depth).run s).1, ⟨((atom o atoms n depth).run s).2, depth⟩) := by
  have hgrows := grows_run (atom o atoms n depth) s
  have horderly := alwaysOrderly_atom (o := o) (n := n) atoms depth hs
  cases hrun : (atom o atoms n depth).run s with
  | mk r t =>
    rw [hrun] at hgrows
    have hafter := horderly.after
    rw [hrun] at hafter
    refine ⟨fun h => ?_, fun h => ?_, hgrows, hgrows.text, hafter.2, rfl⟩
    · obtain rfl : r = .ok false := h
      rw [(staysOrTakes_atom atoms depth s).eq_of_false hrun]
    · obtain rfl : r = .ok true := h
      exact ⟨position_lt_of_atom hrun, horderly.inClass hrun⟩

/-- The scan of an expression comes to its first atom behind its first advance. -/
theorem calls_firstAtom {n : Nat} : Calls (pattern o atoms (n + 1)) s (atom o atoms (n + 1) 0) s.advance :=
  .behind (finds_advance.mpr rfl) (.first _ (.first _ (.first _ (.here _ _))))

/--
Wherever the scan of an expression comes to, an atom scanned from there with a counter keeps the contract. The counter
aside it is the atom that is told how many groups are open. And the loops of the grammar, that over atoms and that over
branches, end from every state.
-/
theorem atom_contract (hs : Calls (pattern o atoms fuel) (ScanState.ofUnits o units) q s) (n depth : Nat) :
    Counting.run (Counting.atom o atoms n) ⟨s, depth⟩ =
        (((atom o atoms n depth).run s).1, ⟨((atom o atoms n depth).run s).2, depth⟩) ∧
      AtomContract ⟨s, depth⟩ (Counting.run (Counting.atom o atoms n) ⟨s, depth⟩) ∧
      ∀ t : ScanState, t.cursor.remaining ≤ n →
        Repeats (fun fuel => atom o atoms fuel depth) (quantifier o.variant) t
            ((branch o.variant (atom o atoms n depth) n).run t) ∧
          Repeats (fun _ => isAt '|') (fun fuel => do copy; branch o.variant (atom o atoms fuel depth) fuel) t
            ((alternatives (branch o.variant (atom o atoms n depth) n) n).run t) := by
  have hnumbered : s.Numbered 0 := (alwaysOrderly_pattern atoms (ScanState.numbered_ofUnits o units)).along hs
  have htracks : Counting.run (Counting.atom o atoms n) ⟨s, depth⟩ =
      (((atom o atoms n depth).run s).1, ⟨((atom o atoms n depth).run s).2, depth⟩) := Counting.tracks_atom s depth
  refine ⟨htracks, ?_, fun t ht => ⟨repeats_branch _ ht ht, repeats_alternatives ht ht⟩⟩
  rw [htracks]
  exact atomContract_of_numbered hnumbered n depth

/-- A group with a class in it, and one that fails in the class: the counter is back behind both. -/
theorem atom_contract_class :
    (∃ t : ScanState, Counting.run (Counting.atom {} (.schema .scalar) 6)
        ⟨(ScanState.ofUnits {} (CodeUnit.encode "([a])".toList)).advance, 2⟩ = (.ok true, ⟨t, 2⟩) ∧
      1 < t.cursor.position ∧ t.cursor.inClass = false) ∧
    ∃ (d : Diagnostic) (y : Session), Counting.run (Counting.atom {} (.schema .scalar) 4)
        ⟨(ScanState.ofUnits {} (CodeUnit.encode "([a".toList)).advance, 2⟩ = (.error d, y) ∧
      y.depth = 2 ∧ y.state.opened = 1 ∧ ∀ m ∈ y.state.closed, 1 ≤ m ∧ m ≤ 1 := by
  constructor
  · have hfirst : Calls (pattern {} (.schema .scalar) 6) (ScanState.ofUnits {} (CodeUnit.encode "([a])".toList))
        (atom {} (.schema .scalar) 6 0) (ScanState.ofUnits {} (CodeUnit.encode "([a])".toList)).advance :=
      calls_firstAtom
    obtain ⟨hrun, hcontract, _⟩ := atom_contract hfirst 6 2
    have hok : (Counting.run (Counting.atom {} (.schema .scalar) 6)
        ⟨(ScanState.ofUnits {} (CodeUnit.encode "([a])".toList)).advance, 2⟩).1 = .ok true := by
      rw [hrun]
      rfl
    obtain ⟨hlt, hclass⟩ := hcontract.found hok
    rw [hrun] at hok hlt hclass
    exact ⟨_, hrun.trans (Prod.ext hok rfl), hlt, hclass⟩
  · have hfirst : Calls (pattern {} (.schema .scalar) 4) (ScanState.ofUnits {} (CodeUnit.encode "([a".toList))
        (atom {} (.schema .scalar) 4 0) (ScanState.ofUnits {} (CodeUnit.encode "([a".toList)).advance := calls_firstAtom
    obtain ⟨hrun, hcontract, _⟩ := atom_contract hfirst 4 2
    rw [hrun] at hcontract
    exact ⟨_, _, hrun, rfl, rfl, hcontract.numbered⟩

end Scan

end XmlPattern
