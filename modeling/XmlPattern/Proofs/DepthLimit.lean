import XmlPattern.Proofs.Scan.Invariants
import XmlPattern.Proofs.Scan.Leniency

/-!
# The limit of nesting

How deep groups may nest is all that a scan asks its options, and it only asks to fail. So two scans under different
limits do the same until the lower one is passed. No limit is passed that is as high as the number of opening
parentheses, whether these open groups or not.

- `Scan.run_of_maxDepth_le`: a scan under a higher limit ends as under the lower one, which it comes as far as
  otherwise.
- `Scan.depth_invariant`: as many groups are open around the cursor as parentheses are behind it, at most.
- `convert_withMaxDepth`: what a limit changes.
-/

namespace XmlPattern

open Grammar

namespace Scan

variable {α : Type} {s t : ScanState} {n : Nat} {o : Options}

/-! ## Two limits -/

/--
Under a higher limit a scan ends as it does under the lower one, or passes the place where the lower one cuts it off.
-/
theorem run_of_maxDepth_le (p : Scan α) (h : s.options.maxDepth ≤ o.maxDepth) :
    p.run (s.withOptions o) = ((p.run s).1, (p.run s).2.withOptions o) ∨
      ∃ t, p.Fails .nestingTooDeep s t ∧ t.cursor.position ≤ (p.run (s.withOptions o)).2.cursor.position := by
  induction p generalizing s with
  | done a => exact .inl rfl
  | command c =>
    cases c with
    | descend depth =>
      by_cases hlow : s.options.maxDepth ≤ depth
      · refine .inr ⟨s, if_pos hlow, ?_⟩
        exact position_run_le (descend depth) (s.withOptions o)
      · have hhigh : ¬ o.maxDepth ≤ depth := fun hle => hlow (Nat.le_trans h hle)
        left
        simp only [run_command, Command.run, ScanState.withOptions, if_neg hlow, if_neg hhigh]
    | _ => exact .inl rfl
  | andThen p f ihp ihf =>
    rcases ihp h with heq | ⟨t, hfails, hle⟩
    · have hoptions := options_run p s
      cases hp : p.run s with
      | mk r u =>
        rw [hp] at heq hoptions
        cases r with
        | error d =>
          left
          rw [run, run, heq, hp]
        | ok a =>
          have hu : u.options.maxDepth ≤ o.maxDepth := by rwa [show u.options = s.options from hoptions]
          have hfirst : (andThen p f).run (s.withOptions o) = (f a).run (u.withOptions o) := by rw [run, heq]
          have hfirst' : (andThen p f).run s = (f a).run u := by rw [run, hp]
          rw [hfirst, hfirst']
          rcases ihf a hu with heq | ⟨t, hfails, hle⟩
          · exact .inl heq
          · exact .inr ⟨t, hfirst'.trans hfails, hle⟩
    · refine .inr ⟨t, fails_bind.mpr (.inl hfails), Nat.le_trans hle ?_⟩
      rw [run]
      generalize p.run (s.withOptions o) = x
      obtain ⟨d | a, u⟩ := x
      · exact Nat.le_refl _
      · exact position_run_le (f a) u

/-! ## The scanners do not see the limit -/

theorem members_withMaxDepth (o : Options) (d n : Nat) : members (o.withMaxDepth d) n = members o n := by
  induction n with
  | zero => rfl
  | succ n ih =>
    funext first cs
    rw [members, members, ih]
    rfl

theorem classExpr_withMaxDepth (o : Options) (d n : Nat) : classExpr (o.withMaxDepth d) n = classExpr o n := by
  induction n with
  | zero => rfl
  | succ n ih => rw [classExpr, classExpr, ih, members_withMaxDepth]

theorem atom_withMaxDepth (o : Options) (atoms : Atoms) (d n depth : Nat) :
    atom (o.withMaxDepth d) atoms n depth = atom o atoms n depth := by
  induction n generalizing depth with
  | zero => rfl
  | succ n ih =>
    have hnested : enclosed (o.withMaxDepth d) atoms n depth = enclosed o atoms n depth := by
      unfold enclosed expression
      rw [ih]
    cases atoms with
    | schema e =>
      rw [atom_schema, atom_schema, hnested, schemaAtom, classExpr_withMaxDepth]
      rfl
    | native => rw [atom_native, atom_native, hnested]

theorem pattern_withMaxDepth (o : Options) (atoms : Atoms) (d n : Nat) :
    pattern (o.withMaxDepth d) atoms n = pattern o atoms n := by
  unfold pattern expression
  rw [atom_withMaxDepth]

end Scan

/-! ## Enough for every parenthesis -/

namespace Cursor

/-- The units behind a cursor, without the one that it is on. -/
def consumed (c : Cursor) : List CodeUnit := if c.atEnd then c.passed else c.passed.tail

theorem suffix_take (skip : Bool) (passed rest : List CodeUnit) :
    passed <:+ if (take skip passed rest).2.2 then (take skip passed rest).1 else (take skip passed rest).1.tail := by
  induction rest generalizing passed with
  | nil => exact List.suffix_refl passed
  | cons u rest ih =>
    unfold take
    split
    · exact (List.suffix_cons u passed).trans (ih (u :: passed))
    · exact List.suffix_refl passed

/-- Whatever has been passed is behind the cursor once it moves on. -/
theorem passed_suffix_advance (c : Cursor) : c.passed <:+ c.advance.consumed := suffix_take ..

theorem consumed_suffix (c : Cursor) : c.consumed <:+ c.passed := by
  unfold consumed
  split
  · exact List.suffix_refl _
  · exact List.tail_suffix _

/-- How many opening parentheses are behind a cursor. -/
def parens (c : Cursor) : Nat := c.consumed.count (unit '(')

theorem parens_le_advance (c : Cursor) : c.parens ≤ c.advance.parens :=
  (c.consumed_suffix.trans c.passed_suffix_advance).sublist.count_le _

theorem parens_advance {c : Cursor} (hc : c.current = some (unit '(')) : c.parens + 1 ≤ c.advance.parens := by
  have hend := atEnd_of_current hc
  have hle := c.passed_suffix_advance.sublist.count_le (unit '(')
  unfold current at hc
  rw [hend] at hc
  unfold parens consumed at *
  rw [hend]
  cases hp : c.passed with
  | nil =>
    rw [hp] at hc
    exact absurd hc (by decide)
  | cons u passed =>
    rw [hp] at hc hle
    obtain rfl : u = unit '(' := Option.some.inj hc
    rwa [List.count_cons_self] at hle

theorem parens_le (c : Cursor) : c.parens ≤ c.expression.count (unit '(') := by
  have hle := c.consumed_suffix.sublist.count_le (unit '(')
  rw [expression, List.count_append, List.count_reverse]
  exact Nat.le_trans hle (Nat.le_add_right _ _)

end Cursor

namespace Scan

variable {s : ScanState}

/--
The limit is enough for every opening parenthesis, and no more groups are open than such parentheses are behind the
cursor.
-/
def FewGroups (d : Nat) (o : Options) (c : Cursor) : Prop := c.expression.count (unit '(') ≤ o.maxDepth ∧ d ≤ c.parens

theorem FewGroups.advance {d : Nat} {o : Options} {c : Cursor} (h : FewGroups d o c) : FewGroups d o c.advance :=
  ⟨by rw [c.expression_advance]; exact h.1, Nat.le_trans h.2 c.parens_le_advance⟩

theorem depth_invariant : Invariant (· ≠ .nestingTooDeep) FewGroups where
  inClass _ h := h
  advance h _ := h.advance
  character {d s} h := (ensures_character_of_advance (P := fun s => FewGroups d s.options s.cursor)
    (fun _ h => h.advance) nofun h).mono fun _ _ h => h.advance
  braced {d s} _ h :=
    ensures_braced_of_advance (P := fun s => FewGroups d s.options s.cursor) (fun _ h => h.advance) nofun h
  enter h hc := by
    have hle := Cursor.parens_advance hc
    exact ⟨h.advance.1, by have := h.2; omega⟩
  leave h := ⟨h.1, Nat.le_of_succ_le h.2⟩
  descend {d s} h := by
    refine .descend fun hdeep => ?_
    have hle := s.cursor.parens_le
    have hlimit := h.1
    have hopen := h.2
    omega
  cause h := by simp_all

/-- No limit is passed that is as high as the number of opening parentheses. -/
theorem ensures_pattern_of_count {atoms : Atoms} (n : Nat) {units : List CodeUnit} (o' : Options)
    (h : units.count (unit '(') ≤ o'.maxDepth) :
    Ensures (· ≠ .nestingTooDeep) (pattern o atoms n) ((ScanState.ofUnits o units).withOptions o') fun _ _ => True := by
  refine (keeps_pattern depth_invariant atoms (FewGroups.advance ⟨?_, Nat.zero_le _⟩)).mono fun _ _ _ => trivial
  rwa [show ((ScanState.ofUnits o units).withOptions o').cursor.expression = units from Cursor.expression_ofUnits ..]

end Scan

/-- How a conversion ends is told by the scan of one program, whatever the limit is. -/
theorem convertPattern_withMaxDepth (o : Options) (atoms : Atoms) (d : Nat) (units : List CodeUnit) :
    convertPattern (o.withMaxDepth d) atoms units =
      match (Scan.pattern o atoms (units.length + 1)).run
        ((ScanState.ofUnits o units).withOptions (o.withMaxDepth d)) with
      | (.ok (), s) => .ok ⟨s.output.toList, atoms.dialect, o.variant, o.multiLine, s.opened, s.warnings.toList⟩
      | (.error e, _) => .error (.pattern e) := by
  rw [← Scan.pattern_withMaxDepth o atoms d]
  rfl

/-- A conversion fails at a place because groups nest too deep there. -/
def FailsTooDeep (r : Except Failure Conversion) (p : Nat) : Prop := ∃ e, r = .error (.pattern ⟨.nestingTooDeep, p, e⟩)

/-- Under two limits a pattern is converted alike, or the lower one is passed, and no later than the higher one. -/
theorem convertPattern_of_maxDepth_le (o : Options) (atoms : Atoms) (units : List CodeUnit) {d d' : Nat} (h : d ≤ d') :
    convertPattern (o.withMaxDepth d') atoms units = convertPattern (o.withMaxDepth d) atoms units ∨
      ∃ q, FailsTooDeep (convertPattern (o.withMaxDepth d) atoms units) q ∧
        ∀ p, FailsTooDeep (convertPattern (o.withMaxDepth d') atoms units) p → q ≤ p := by
  let s := (ScanState.ofUnits o units).withOptions (o.withMaxDepth d)
  rw [convertPattern_withMaxDepth, convertPattern_withMaxDepth]
  rcases Scan.run_of_maxDepth_le (s := s) (o := o.withMaxDepth d') (Scan.pattern o atoms (units.length + 1)) h with
    heq | ⟨t, hfails, hle⟩
  · left
    have heq : (Scan.pattern o atoms (units.length + 1)).run
        ((ScanState.ofUnits o units).withOptions (o.withMaxDepth d')) =
        (((Scan.pattern o atoms (units.length + 1)).run s).1,
          ((Scan.pattern o atoms (units.length + 1)).run s).2.withOptions (o.withMaxDepth d')) := heq
    rw [heq]
    generalize (Scan.pattern o atoms (units.length + 1)).run s = x
    obtain ⟨_ | _, t⟩ := x <;> rfl
  · right
    refine ⟨t.cursor.position - 1, ⟨String.ofList (CodeUnit.decodeLossy t.cursor.expression), ?_⟩, ?_⟩
    · have hrun : (Scan.pattern o atoms (units.length + 1)).run
          ((ScanState.ofUnits o units).withOptions (o.withMaxDepth d)) =
            (.error (t.diagnostic .nestingTooDeep), t) := hfails
      rw [hrun]
      rfl
    · rintro p ⟨e, he⟩
      have hle : t.cursor.position ≤ ((Scan.pattern o atoms (units.length + 1)).run
          ((ScanState.ofUnits o units).withOptions (o.withMaxDepth d'))).2.cursor.position := hle
      cases hrun : (Scan.pattern o atoms (units.length + 1)).run
          ((ScanState.ofUnits o units).withOptions (o.withMaxDepth d')) with
      | mk r u =>
        rw [hrun] at he hle
        cases r with
        | ok a => cases he
        | error w =>
          have hstamp := Scan.stamped_of_run hrun
          obtain rfl : w = ⟨.nestingTooDeep, p, e⟩ := Failure.pattern.inj (Except.error.inj he)
          have hp : p = u.cursor.position - 1 := congrArg Diagnostic.position hstamp
          rw [hp]
          exact Nat.sub_le_sub_right hle 1

/-- Literal mode asks for no limit. -/
theorem convert_withMaxDepth_cases (o : Options) (atoms : Atoms) (units : List CodeUnit) :
    (∃ r, (∀ d, convert (o.withMaxDepth d) atoms units = r) ∧ ∀ p, ¬ FailsTooDeep r p) ∨
      ∀ d, convert (o.withMaxDepth d) atoms units = convertPattern (o.withMaxDepth d) atoms units := by
  cases hl : o.literal with
  | true =>
    refine .inl ⟨convertLiteral o atoms.dialect units, fun d => ?_, ?_⟩
    · rw [convert, if_pos hl]
      rfl
    · rintro p ⟨e, he⟩
      unfold convertLiteral at he
      split at he <;> cases he
  | false =>
    refine .inr fun d => ?_
    rw [convert, if_neg (Bool.eq_false_iff.mp hl)]

/--
Of two limits the higher one leaves everything as it is that does not fail under the lower one for nesting too deep;
what fails so under a limit fails so under every lower one, and no later; and nothing does under a limit that is as high
as the number of opening parentheses.
-/
theorem convert_withMaxDepth (o : Options) (atoms : Atoms) (units : List CodeUnit) :
    (∀ d d', d ≤ d' → (∀ p, ¬ FailsTooDeep (convert (o.withMaxDepth d) atoms units) p) →
      convert (o.withMaxDepth d') atoms units = convert (o.withMaxDepth d) atoms units) ∧
    (∀ d p, FailsTooDeep (convert (o.withMaxDepth d) atoms units) p →
      ∀ d' ≤ d, ∃ q ≤ p, FailsTooDeep (convert (o.withMaxDepth d') atoms units) q) ∧
    ∀ d, units.count (unit '(') ≤ d → ∀ p, ¬ FailsTooDeep (convert (o.withMaxDepth d) atoms units) p := by
  rcases convert_withMaxDepth_cases o atoms units with ⟨r, hconvert, hr⟩ | hconvert
  · refine ⟨fun d d' _ _ => (hconvert d').trans (hconvert d).symm, fun d p hp => ?_, fun d _ p => ?_⟩
    · rw [hconvert] at hp
      exact absurd hp (hr p)
    · rw [hconvert]
      exact hr p
  · simp only [hconvert]
    refine ⟨fun d d' hle hd => ?_, fun d p hp d' hle => ?_, fun d hd p => ?_⟩
    · rcases convertPattern_of_maxDepth_le o atoms units hle with heq | ⟨q, hq, _⟩
      · exact heq
      · exact absurd hq (hd q)
    · rcases convertPattern_of_maxDepth_le o atoms units hle with heq | ⟨q, hq, hmin⟩
      · rw [heq] at hp
        exact ⟨p, Nat.le_refl p, hp⟩
      · exact ⟨q, hmin p hp, hq⟩
    · rintro ⟨e, he⟩
      rw [convertPattern_withMaxDepth] at he
      split at he
      · cases he
      · next w t hrun =>
        cases he
        exact (Scan.ensures_pattern_of_count _ (o.withMaxDepth d) hd).of_error hrun rfl

/-- Two groups, one in the other, under no limit that matters and under limits that each of them passes. -/
theorem convert_withMaxDepth_twice :
    convert (Options.withMaxDepth {} 3) (.schema .scalar) (CodeUnit.encode "((a))".toList) =
        convert (Options.withMaxDepth {} 2) (.schema .scalar) (CodeUnit.encode "((a))".toList) ∧
      FailsTooDeep (convert (Options.withMaxDepth {} 1) (.schema .scalar) (CodeUnit.encode "((a))".toList)) 2 ∧
      ∃ q ≤ 2,
        FailsTooDeep (convert (Options.withMaxDepth {} 0) (.schema .scalar) (CodeUnit.encode "((a))".toList)) q := by
  obtain ⟨hsame, hearlier, henough⟩ := convert_withMaxDepth {} (.schema .scalar) (CodeUnit.encode "((a))".toList)
  have hcount : (CodeUnit.encode "((a))".toList).count (unit '(') ≤ 2 := by decide
  have hdeep : FailsTooDeep (convert (Options.withMaxDepth {} 1) (.schema .scalar)
      (CodeUnit.encode "((a))".toList)) 2 := ⟨_, rfl⟩
  exact ⟨hsame 2 3 (by omega) (henough 2 hcount), hdeep, hearlier 1 2 hdeep 0 (by omega)⟩

end XmlPattern
