import XmlPattern.Proofs.Scan.Embedding
import XmlPattern.Proofs.Text.WellFormed

/-!
# Where a scan breaks

Half of a surrogate pair is no character. A scan fails on it, or on what is there instead of the other half, once it has
read all that is in front.

- `branch_fails`: atoms in a row fail where the next one does.
- `convertPattern_of_broken`: an expression that begins with a branch and goes on with half of a pair.
-/

namespace XmlPattern

open CodeUnit Grammar

/-- Half of a pair is no unit of an ASCII character. -/
theorem ne_unit_of_isSurrogate {u : CodeUnit} (h : u.isSurrogate = true) {c : Char} (hc : c.toNat < 0x10000) :
    u ≠ unit c := by
  rintro rfl
  rw [isSurrogate_ofBasic hc] at h
  cases h

namespace Scan

variable {s t t' : ScanState} {o : Options} {d : Dialect} {e : Diagnostic}

/-! ## The character that breaks -/

theorem run_character_low {u : CodeUnit} (hc : s.cursor.current = some u) (hu : u.isLowSurrogate = true) :
    character.run s = (.error (s.diagnostic .invalidSurrogatePair), s) := by
  unfold character
  refine (run_bind_of_run rfl).trans ?_
  rw [hc]
  dsimp only
  rw [if_neg (Bool.eq_false_iff.mp (not_high_of_low hu)), if_pos hu]
  rfl

theorem run_character_high {u : CodeUnit} (hc : s.cursor.current = some u) (hu : u.isHighSurrogate = true)
    (hnext : ∀ v ∈ s.advance.cursor.current, v.isLowSurrogate = false) :
    character.run s = (.error (s.advance.diagnostic .invalidSurrogatePair), s.advance) := by
  unfold character
  refine (run_bind_of_run rfl).trans ?_
  rw [hc]
  dsimp only
  rw [if_pos hu]
  refine (run_bind_of_run rfl).trans ((run_bind_of_run rfl).trans ?_)
  cases hv : s.advance.cursor.current with
  | none => rfl
  | some v =>
    dsimp only
    rw [if_neg (Bool.eq_false_iff.mp (hnext v hv))]
    rfl

/-! ## Branches -/

/-- An atom that begins with half of a pair is read as a character. -/
theorem run_atom_surrogate {n depth : Nat} {u : CodeUnit} (hc : s.cursor.current = some u) (hu : u.isSurrogate = true)
    (h : character.run s = (.error e, t)) : (atom o (.schema d) (n + 1) depth).run s = (.error e, t) := by
  have hplain : (plainCharacter o).run s = (.error e, t) := run_bind_eq_error.mpr (.inl h)
  rw [atom_schema]
  unfold schemaAtom
  refine (run_bind_of_run rfl).trans ?_
  rw [hc]
  dsimp only
  rw [toAscii?_of_isSurrogate hu]
  exact run_bind_eq_error.mpr (.inl hplain)

/-- Atoms in a row fail where the next one does, if what is there can neither quantify the last one nor extend it. -/
theorem branch_fails : (b : Branch) → {s : ScanState} → {n m depth : Nat} → Ready o n s → s.cursor.remaining ≤ m →
    b.Legal o depth s.groups → Follows (b.course o s.groups) s t → PastQuantifier t →
    (∀ c : Char, c.isDigit = true → t.cursor.current ≠ some (unit c)) → t.cursor.current ≠ none →
    (atom o (.schema d) n depth).run t = (.error e, t') →
    (branch o.variant (atom o (.schema d) n depth) m).run s = (.error e, t')
  | .nil, s, n, m, depth, hs, hm, _, hf, _, _, hnone, herr => by
    -- All atoms have been read, and the scan has come to the place where the next one fails.
    obtain rfl := hf
    cases m with
    | zero => exact absurd (current_of_remaining hm) hnone
    | succ m => exact run_bind_eq_error.mpr (.inl herr)
  | .cons a q b, s, n, m, depth, hs, hm, hl, hf, hpast, hdigit, hnone, herr => by
    obtain ⟨ha, hq, hbefore, hb⟩ := hl
    rw [Branch.course, List.append_assoc] at hf
    obtain ⟨u, haf, hbehind⟩ := follows_append.mp hf
    obtain ⟨v, hqf, hbf⟩ := follows_append.mp hbehind
    have hlt := remaining_of_atom haf
    have hle := follows_remaining_le hqf
    have hu := hs.afterAtom haf
    have hquant := reads_of_quantifier q
    have hgroups : v.groups = a.after s.groups := by rw [follows_groups hqf, hquant.groups, groups_of_atom haf]
    have hv : Ready o n v :=
      hu.follows hqf (hquant.mode false) (Nat.le_trans hle hu.fuel)
        (by rw [hgroups, ← groups_of_atom haf]; exact hu.valid)
    have hends : EndsQuantifier o.variant v q := by
      have hbranch := pastQuantifier_of_branch hb hbf hpast
      cases q with
      | none => exact hbranch
      | some q => exact fun _ _ => hbranch '?' (by decide)
    have hatom : (atom o (.schema d) n depth).Finds s true u :=
      atom_complete o d a hs ⟨ha, haf, endsAtom_of_endsBefore haf hbehind hdigit hbefore⟩
    obtain ⟨m, rfl⟩ := Nat.exists_eq_add_one.mpr (show 0 < m by omega)
    have hquantifier : (quantifier o.variant m).Finds u () v := (finds_quantifier (by omega)).mpr ⟨q, hq, hqf, hends⟩
    have hrest := branch_fails b (m := m) hv (by omega) (hgroups ▸ hb) (hgroups ▸ hbf) hpast hdigit hnone herr
    exact (run_bind_of_run hatom).trans ((run_bind_of_run hquantifier).trans hrest)

end Scan

/-! ## Expressions -/

variable {o : Options} {d : Dialect} {b : Branch} {units broken : List CodeUnit} {k : Nat}

/-- An expression fails where its first branch does. -/
theorem convertPattern_of_branch_fails {e : Diagnostic} {t : ScanState}
    (h : (Scan.branch o.variant (Scan.atom o (.schema d) (ScanState.ofUnits o units).cursor.remaining 0)
      (ScanState.ofUnits o units).cursor.remaining).run (ScanState.ofUnits o units).advance = (.error e, t)) :
    convertPattern o (.schema d) units = .error (.pattern e) := by
  have hexpr : (Scan.expression o (.schema d) (ScanState.ofUnits o units).cursor.remaining 0).run
      (ScanState.ofUnits o units).advance = (.error e, t) := Scan.run_bind_eq_error.mpr (.inl h)
  have hscan : (ScanState.ofUnits o units).scan (Scan.pattern o (.schema d)) = (.error e, t) :=
    (Scan.run_bind_of_run rfl).trans (Scan.run_bind_eq_error.mpr (.inl hexpr))
  rw [convertPattern, hscan]

/-- On half of a pair a character cannot be read, whatever has been written. -/
theorem Scan.run_character_broken {s : ScanState} {us rest : List CodeUnit} {u : CodeUnit}
    (hs : s.cursor = .between false false (us ++ [u]) rest) (hk : BreaksAfter k (u :: rest)) :
    ∃ t, Scan.character.run s = (.error ⟨.invalidSurrogatePair, us.length + k,
      String.ofList (decodeLossy (us ++ u :: rest))⟩, t) := by
  have hc : s.cursor.current = some u := by rw [hs, Cursor.current_between]
  cases hk with
  | low hu =>
    refine ⟨s, (run_character_low hc hu).trans ?_⟩
    simp [ScanState.diagnostic, hs, Cursor.position, Cursor.between, Cursor.expression]
  | high hu hnext =>
    refine ⟨s.advance, ?_⟩
    cases rest with
    | nil =>
      have hend : s.advance.cursor.current = none := by
        rw [ScanState.advance, hs]
        rfl
      rw [run_character_high hc hu (by rw [hend]; rintro _ ⟨⟩)]
      simp [ScanState.diagnostic, ScanState.advance, hs, Cursor.position, Cursor.between, Cursor.expression,
        Cursor.advance, Cursor.take]
    | cons v rest =>
      have hcursor : s.advance.cursor = .between false false (us ++ [u] ++ [v]) rest := by
        rw [ScanState.advance, hs]
        exact Cursor.advance_unit fun h => absurd h Bool.false_ne_true
      have hcurrent : s.advance.cursor.current = some v := by rw [hcursor, Cursor.current_between]
      rw [run_character_high hc hu (by rw [hcurrent]; exact hnext)]
      simp [ScanState.diagnostic, hcursor, Cursor.position, Cursor.between, Cursor.expression]

/--
An expression that begins with a branch of plain events and goes on with half of a pair fails where the pair breaks.
-/
theorem convertPattern_of_broken (hfold : o.foldBlanks = false) (hl : b.Legal o 0 {}) (hplain : Plain (b.course o {}))
    (hunits : units = taken (b.course o {}) ++ broken) (hk : BreaksAfter k broken) :
    convertPattern o (.schema d) units = .error (.pattern ⟨.invalidSurrogatePair, (taken (b.course o {})).length + k,
      String.ofList (decodeLossy units)⟩) := by
  obtain ⟨u, rest, rfl, hu⟩ := hk.exists_surrogate
  have hspells : Spells false false (outside (taken (b.course o {}))) (taken (b.course o {})) := by
    rw [spells_iff, outside, List.map_map]
    exact (List.map_id _).symm
  have hstart : (ScanState.ofUnits o units).advance.cursor =
      (Cursor.between false false [] (taken (b.course o {}) ++ u :: rest)).advance := by
    rw [← hunits]
    show (Cursor.ofUnits units o.foldBlanks).advance = _
    rw [hfold]
    rfl
  obtain ⟨t, hf, ht⟩ := (hplain.covers hspells).exists_follows hstart
  rw [Cursor.advance_unit fun _ _ => isBlank_of_isSurrogate hu, List.nil_append] at ht
  have hcurrent : t.cursor.current = some u := by rw [ht, Cursor.current_between]
  have hne : ∀ c : Char, c.toNat < 0x10000 → t.cursor.current ≠ some (unit c) := by
    intro c hc he
    exact ne_unit_of_isSurrogate hu hc (Option.some.inj (hcurrent.symm.trans he))
  obtain ⟨t', hchar⟩ := Scan.run_character_broken ht hk
  rw [← hunits] at hchar
  have hready := ready_start o units
  refine convertPattern_of_branch_fails (t := t') (Scan.branch_fails b hready hready.fuel hl hf ?_ ?_ ?_ ?_)
  · intro c hc
    have hall : ∀ c ∈ ['*', '?', '+', '\x7b'], c.toNat < 0x10000 := List.all_iff_forall_prop.mp (by decide)
    exact hne c (hall c hc)
  · intro c hc
    exact hne c (Nat.lt_trans (Scan.isDigit_lt hc) (by decide))
  · rw [hcurrent]
    exact Option.some_ne_none u
  · exact Scan.run_atom_surrogate (n := units.length) hcurrent hu hchar

end XmlPattern
