import XmlPattern.Proofs.Scan.Fuel

/-!
# Loops that end

A loop of the grammar carries out a test and goes on with a body as long as the test succeeds and finds that it should.
`Repeats` says so without a bound on the rounds: it has a derivation for the loops that end and for no other. Since an
atom takes a unit when it is found, and so does a bar, the two loops of the grammar have one from every state.

- `repeats_branch`: atoms with their quantifiers.
- `repeats_alternatives`: branches behind bars.
-/

namespace XmlPattern.Scan

variable {α : Type} {s t : ScanState} {n m depth : Nat} {o : Options} {atoms : Atoms}

/-- With enough fuel a scanner ends so. -/
def Ends (p : (fuel : Nat) → Scan α) (s : ScanState) (r : Except Diagnostic α × ScanState) : Prop :=
  ∃ n, s.cursor.remaining ≤ n ∧ (p n).run s = r

/-- As long as the test finds that it should, the body is carried out; a failure of either ends the loop. -/
inductive Repeats (test : (fuel : Nat) → Scan Bool) (body : (fuel : Nat) → Scan Unit) :
    ScanState → Except Diagnostic Unit × ScanState → Prop where
  | stops {s t : ScanState} : Ends test s (.ok false, t) → Repeats test body s (.ok (), t)
  | testFails {s t : ScanState} {d : Diagnostic} : Ends test s (.error d, t) → Repeats test body s (.error d, t)
  | bodyFails {s t u : ScanState} {d : Diagnostic} :
      Ends test s (.ok true, t) → Ends body t (.error d, u) → Repeats test body s (.error d, u)
  | again {s t u : ScanState} {r : Except Diagnostic Unit × ScanState} :
      Ends test s (.ok true, t) → Ends body t (.ok (), u) → Repeats test body u r → Repeats test body s r

/-- A round whose test has found that the body is due. -/
theorem Repeats.round {test : Nat → Scan Bool} {body : Nat → Scan Unit} {next : Scan Unit}
    (ht : Ends test s (.ok true, t)) (hn : t.cursor.remaining ≤ n)
    (hnext : ∀ u, (body n).Finds t () u → Repeats test body u (next.run u)) :
    Repeats test body s ((do body n; next : Scan Unit).run t) := by
  rw [run_bind]
  cases hb : (body n).run t with
  | mk r u =>
    cases r with
    | error d => exact .bodyFails ht ⟨n, hn, hb⟩
    | ok _ => exact .again ht ⟨n, hn, hb⟩ (hnext u hb)

/-- Atoms with their quantifiers: each atom takes a unit. -/
theorem repeats_branch (v : Variant) (hm : s.cursor.remaining ≤ m) (hn : s.cursor.remaining ≤ n) :
    Repeats (fun fuel => atom o atoms fuel depth) (quantifier v) s ((branch v (atom o atoms m depth) n).run s) := by
  induction n generalizing s with
  | zero =>
    have hend : (atom o atoms m depth).run s = (.ok false, s) :=
      (atom_finds atoms depth).atEnd (current_of_remaining hn)
    exact .stops ⟨m, hm, hend⟩
  | succ n ih =>
    rw [branch, run_bind]
    cases hatom : (atom o atoms m depth).run s with
    | mk r t =>
      have hends : Ends (fun fuel => atom o atoms fuel depth) s (r, t) := ⟨m, hm, hatom⟩
      cases r with
      | error d => exact .testFails hends
      | ok found =>
        cases found with
        | false => exact .stops hends
        | true =>
          -- What is left behind the atom is less, so the fuel of the next round is enough again.
          have hlt := (atom_finds atoms depth).advances hatom
          refine Repeats.round hends (by omega) fun u hu => ?_
          have hle := hu.remaining_le
          exact ih (by omega) (by omega)

/-- Branches behind bars: each bar takes a unit. -/
theorem repeats_alternatives {branch : Nat → Scan Unit} (hm : s.cursor.remaining ≤ m) (hn : s.cursor.remaining ≤ n) :
    Repeats (fun _ => isAt '|') (fun fuel => do copy; branch fuel) s ((alternatives (branch m) n).run s) := by
  induction n generalizing s with
  | zero =>
    have hend : (isAt '|').run s = (.ok false, s) := by
      refine (run_bind_of_run rfl).trans ?_
      rw [current_of_remaining hn]
      rfl
    exact .stops ⟨0, hn, hend⟩
  | succ n ih =>
    have hends : Ends (fun _ => isAt '|') s (.ok (s.cursor.current == some (CodeUnit.ofBasic '|')), s) := ⟨m, hm, rfl⟩
    rw [alternatives, run_bind_of_run (p := isAt '|') rfl]
    split
    · next hbar =>
      rw [hbar] at hends
      rw [← run_bind_assoc]
      have hlt := remaining_copied (beq_iff_eq.mp hbar)
      refine Repeats.round hends hm fun u hu => ?_
      rw [finds_copy_bind] at hu
      have hle := hu.remaining_le
      exact ih (by omega) (by omega)
    · next hbar =>
      rw [Bool.eq_false_iff.mpr hbar] at hends
      exact .stops hends

end XmlPattern.Scan
