import XmlPattern.Conversion
import XmlPattern.Proofs.Scan.Atoms

/-!
# Patterns

A scan of a whole expression succeeds exactly when the expression has a syntax tree, and does then what the tree says,
whichever tree it is. Soundness goes by induction on the fuel of the scanner, completeness by induction on the tree.

- `convertPattern_sound`: a conversion that succeeds has a syntax tree of its expression.
- `convertPattern_complete`: an expression with a syntax tree is converted, to the fragments of the tree.
-/

namespace XmlPattern

namespace Grammar

/-! ## Groups stay valid -/

/-- The groups behind a part are valid if those in front are, and no fewer have been opened. -/
def Groups.Grows (G G' : Groups) : Prop := G.opened ≤ G'.opened ∧ (G.Valid → G'.Valid)

mutual

theorem Atom.grows_after : (G : Groups) → (a : Atom) → G.Grows (a.after G)
  | G, .leaf _ | G, .anchor _ | G, .reference _ => ⟨Nat.le_refl _, id⟩
  | G, .group false r => r.grows_after G
  | G, .group true r => by
    obtain ⟨hle, hvalid⟩ := r.grows_after G.open
    refine ⟨Nat.le_trans (Nat.le_succ _) hle, fun hG n hn => ?_⟩
    have hopen : G.open.Valid := fun n hn => ⟨(hG n hn).1, Nat.le_succ_of_le (hG n hn).2⟩
    rcases List.mem_cons.mp hn with rfl | hn
    · exact ⟨Nat.succ_le_succ (Nat.zero_le _), hle⟩
    · exact hvalid hopen n hn

theorem Branch.grows_after : (G : Groups) → (b : Branch) → G.Grows (b.after G)
  | _, .nil => ⟨Nat.le_refl _, id⟩
  | G, .cons a _ b => by
    have ha := a.grows_after G
    have hb := b.grows_after (a.after G)
    exact ⟨Nat.le_trans ha.1 hb.1, hb.2 ∘ ha.2⟩

theorem Regexp.grows_after : (G : Groups) → (r : Regexp) → G.Grows (r.after G)
  | G, .branch b => b.grows_after G
  | G, .bar b r => by
    have hb := b.grows_after G
    have hr := r.grows_after (b.after G)
    exact ⟨Nat.le_trans hb.1 hr.1, hr.2 ∘ hb.2⟩

end

theorem Leaf.marks_ne_nil (l : Leaf) : l.marks ≠ [] := by
  cases l with
  | dot => exact List.cons_ne_nil _ _
  | single x => simpa [marks, outside] using Scan.units_ne_nil_of_single x
  | set e => simpa [marks, outside] using Scan.units_ne_nil_of_set e
  | charClass c => exact List.cons_ne_nil _ _

theorem Atom.marks_ne_nil (a : Atom) : a.marks ≠ [] := by
  cases a with
  | leaf l => rw [marks]; exact l.marks_ne_nil
  | anchor c => rw [marks]; exact List.cons_ne_nil _ _
  | reference digits => rw [marks]; exact List.cons_ne_nil _ _
  | group capturing r =>
    rw [marks]
    cases capturing <;> exact List.cons_ne_nil _ _

end Grammar

open Grammar

namespace Scan

variable {s s' : ScanState} {o : Options} {n m depth : Nat} {d : Dialect}

/-! ## Soundness -/

theorem groups_of_atom {a : Atom} (hf : Follows (a.course o s.groups) s s') : s'.groups = a.after s.groups := by
  rw [follows_groups hf, (a.passed_course o s.groups).2.2]

theorem remaining_of_atom {a : Atom} {G : Groups} (hf : Follows (a.course o G) s s') :
    s'.cursor.remaining < s.cursor.remaining := by
  have h := follows_remaining hf false
  have hpos := List.length_pos_iff.mpr a.marks_ne_nil
  rw [(a.passed_course o G).1] at h
  omega

theorem Ready.afterAtom {a : Atom} (hs : Ready o n s) (hf : Follows (a.course o s.groups) s s') : Ready o n s' :=
  hs.follows hf (a.passed_course o s.groups).2.1 (Nat.le_trans (follows_remaining_le hf) hs.fuel)
    (by rw [groups_of_atom hf]; exact (a.grows_after s.groups).2 hs.valid)

theorem Ready.afterQuantifier {q : Option Quantifier} (hs : Ready o n s) (hf : Follows (quantifierCourse q) s s') :
    Ready o n s' :=
  hs.follows hf ((reads_of_quantifier q).mode false) (Nat.le_trans (follows_remaining_le hf) hs.fuel)
    (by rw [follows_groups hf, (reads_of_quantifier q).groups]; exact hs.valid)

/-- What the scanner of atoms is found to do. -/
def FindsAtoms (o : Options) (n depth : Nat) (atom : Scan Bool) : Prop :=
  ∀ s b s', Ready o n s → atom.Finds s b s' →
    b = false ∧ s' = s ∧ AtOperator s ∨ b = true ∧ ∃ a, IsAtom o depth s s' a

theorem passed_behind (o : Options) (G : Groups) (q : Option Quantifier) (b : Branch) :
    passed false (quantifierCourse q ++ b.course o G) = quantifierMarks q ++ b.marks := by
  rw [passed_append, (reads_of_quantifier q).mode, quantifierCourse_passed, (b.passed_course o G).1]

/-- Whether an atom is over at a state is told by what is written behind it. -/
theorem endsBefore_of_endsAtom {a : Atom} {G : Groups} {q : Option Quantifier} {b : Branch} {t : ScanState}
    (hf : Follows (a.course o s.groups) s t) (hbehind : Follows (quantifierCourse q ++ b.course o G) t s')
    (he : EndsAtom t a) : a.EndsBefore s.groups (quantifierMarks q ++ b.marks) := by
  cases a with
  | reference digits =>
    have hopened : t.opened = s.groups.opened := congrArg Groups.opened (groups_of_atom hf)
    have hhead := follows_head hbehind false
    rw [passed_behind] at hhead
    cases hmarks : quantifierMarks q ++ b.marks with
    | nil => trivial
    | cons m ms =>
      rw [hmarks] at hhead
      intro d hd hu
      rw [← hopened]
      exact he d hd (by rw [hhead m rfl, hu])
  | leaf l => trivial
  | anchor c => trivial
  | group capturing r => trivial

theorem branch_sound {atom : Scan Bool} (hatom : FindsAtoms o n depth atom) (hs : Ready o n s)
    (hm : s.cursor.remaining ≤ m) (h : (branch o.variant atom m).Finds s () s') :
    ∃ b, Branch.Legal o depth s.groups b ∧ Follows (b.course o s.groups) s s' := by
  induction m generalizing s with
  | zero =>
    obtain ⟨_, rfl⟩ := finds_pure.mp h
    exact ⟨.nil, trivial, rfl⟩
  | succ m ih =>
    obtain ⟨found, t, ha, hrest⟩ := finds_bind.mp h
    rcases hatom s found t hs ha with ⟨rfl, rfl, _⟩ | ⟨rfl, a, hl, hf, he⟩
    · obtain ⟨_, rfl⟩ := finds_pure.mp hrest
      exact ⟨.nil, trivial, rfl⟩
    · have hlt := remaining_of_atom hf
      obtain ⟨_, u, hq, hrest⟩ := finds_bind.mp hrest
      obtain ⟨q, hql, hqf, hqe⟩ := (finds_quantifier (by omega)).mp hq
      have hquant := reads_of_quantifier q
      have hle := follows_remaining_le hqf
      have ht := hs.afterAtom hf
      have hgroups : u.groups = a.after s.groups := by
        rw [follows_groups hqf, hquant.groups, groups_of_atom hf]
      obtain ⟨b, hb, hbf⟩ := ih (ht.afterQuantifier hqf) (by omega) hrest
      rw [hgroups] at hb hbf
      have hbehind : Follows (quantifierCourse q ++ b.course o (a.after s.groups)) t s' :=
        follows_append.mpr ⟨u, hqf, hbf⟩
      refine ⟨.cons a q b, ⟨hl, hql, endsBefore_of_endsAtom hf hbehind he, hb⟩, ?_⟩
      rw [Branch.course, List.append_assoc]
      exact follows_append.mpr ⟨t, hf, hbehind⟩

theorem groups_of_branch {b : Branch} (hf : Follows (b.course o s.groups) s s') : s'.groups = b.after s.groups := by
  rw [follows_groups hf, (b.passed_course o s.groups).2.2]

theorem Ready.afterBranch {b : Branch} (hs : Ready o n s) (hf : Follows (b.course o s.groups) s s') : Ready o n s' :=
  hs.follows hf (b.passed_course o s.groups).2.1 (Nat.le_trans (follows_remaining_le hf) hs.fuel)
    (by rw [groups_of_branch hf]; exact (b.grows_after s.groups).2 hs.valid)

theorem Ready.copied (hs : Ready o n s) (hf : Follows (copies '|') s s') : Ready o n s' :=
  hs.follows hf rfl (Nat.le_trans (follows_remaining_le hf) hs.fuel)
    (by rw [follows_groups hf, groupsAfter_copies]; exact hs.valid)

/-- Branches behind a first one that has been found. -/
theorem alternatives_sound {atom : Scan Bool} {b : Branch} {t : ScanState} (hatom : FindsAtoms o n depth atom)
    (hs : Ready o n s) (hb : b.Legal o depth s.groups) (hf : Follows (b.course o s.groups) s t)
    (hm : t.cursor.remaining ≤ m) (h : (alternatives (branch o.variant atom n) m).Finds t () s') :
    ∃ r, Regexp.Legal o depth s.groups r ∧ Follows (r.course o s.groups) s s' := by
  induction m generalizing s t b with
  | zero =>
    obtain ⟨_, rfl⟩ := finds_pure.mp h
    exact ⟨.branch b, hb, hf⟩
  | succ m ih =>
    rw [alternatives, finds_isAt_bind] at h
    split at h
    · next hbar =>
      have hcopy : Follows (copies '|') t t.copied := (follows_copies (by decide)).mpr ⟨beq_iff_eq.mp hbar, rfl⟩
      have hlt := remaining_lt (reads_of_copies '|') (List.cons_ne_nil _ _) hcopy
      have ht := (hs.afterBranch hf).copied hcopy
      have hgroups : t.copied.groups = b.after s.groups := by
        rw [follows_groups hcopy, groupsAfter_copies, groups_of_branch hf]
      rw [finds_copy_bind] at h
      obtain ⟨_, u, hbranch, hrest⟩ := finds_bind.mp h
      obtain ⟨b', hb', hf'⟩ := branch_sound hatom ht ht.fuel hbranch
      have hle := follows_remaining_le hf'
      obtain ⟨r, hr, hfr⟩ := ih ht hb' hf' (by omega) hrest
      rw [hgroups] at hr hfr
      refine ⟨.bar b r, ⟨hb, hr⟩, ?_⟩
      exact follows_append.mpr ⟨_, follows_append.mpr ⟨t, hf, hcopy⟩, hfr⟩
    · obtain ⟨_, rfl⟩ := finds_pure.mp h
      exact ⟨.branch b, hb, hf⟩

theorem regexp_sound {atom : Scan Bool} (hatom : FindsAtoms o n depth atom) (hs : Ready o n s)
    (h : (regexp o.variant atom n).Finds s () s') :
    ∃ r, Regexp.Legal o depth s.groups r ∧ Follows (r.course o s.groups) s s' := by
  obtain ⟨_, t, hbranch, hrest⟩ := finds_bind.mp h
  obtain ⟨b, hb, hf⟩ := branch_sound hatom hs hs.fuel hbranch
  exact alternatives_sound hatom hs hb hf (Nat.le_trans (follows_remaining_le hf) hs.fuel) hrest

theorem atom_sound : FindsAtoms o n depth (atom o (.schema d) n depth) := by
  induction n generalizing depth with
  | zero =>
    intro s b s' hs h
    obtain ⟨rfl, rfl⟩ := finds_pure.mp h
    exact .inl ⟨rfl, rfl, .inl (current_of_remaining hs.fuel)⟩
  | succ n ih =>
    intro s b s' hs h
    rw [atom_schema] at h
    refine schemaAtom_sound (fun t u ht hnested => ?_) hs h
    rw [enclosed, finds_descend_bind, ht.options] at hnested
    exact ⟨hnested.1, regexp_sound ih ht hnested.2⟩

/-! ## Completeness -/

/-- The end of a branch. -/
def EndsBranch (s : ScanState) : Prop :=
  s.cursor.current = none ∨ s.cursor.current = some (unit ')') ∨ s.cursor.current = some (unit '|')

theorem EndsBranch.pastQuantifier (h : EndsBranch s) : PastQuantifier s := by
  rcases h with h | h | h
  · intro c _ he
    rw [h] at he
    cases he
  · exact pastQuantifier_of_current (.inl rfl) h
  · exact pastQuantifier_of_current (.inr rfl) h

theorem EndsBranch.not_digit (h : EndsBranch s) {c : Char} (hc : c.isDigit = true) :
    s.cursor.current ≠ some (unit c) := by
  rcases h with h | h | h
  · rw [h]
    exact nofun
  · exact not_digit_of_unit (by decide) (by decide) h c hc
  · exact not_digit_of_unit (by decide) (by decide) h c hc

theorem endsAtom_of_endsBefore {a : Atom} {G : Groups} {q : Option Quantifier} {b : Branch} {t : ScanState}
    (hf : Follows (a.course o s.groups) s t) (hbehind : Follows (quantifierCourse q ++ b.course o G) t s')
    (hend : ∀ c : Char, c.isDigit = true → s'.cursor.current ≠ some (unit c))
    (he : a.EndsBefore s.groups (quantifierMarks q ++ b.marks)) : EndsAtom t a := by
  cases a with
  | reference digits =>
    have hopened : t.opened = s.groups.opened := congrArg Groups.opened (groups_of_atom hf)
    intro c hc hcur
    rw [hopened]
    cases hmarks : quantifierMarks q ++ b.marks with
    | nil =>
      have hcur' := current_of_passed_nil hbehind false (by rw [passed_behind, hmarks])
      exact absurd (hcur'.trans hcur) (hend c hc)
    | cons m ms =>
      have hhead := follows_head hbehind false
      rw [passed_behind, hmarks] at hhead
      rw [hmarks] at he
      exact he c hc (Option.some.inj ((hhead m rfl).symm.trans hcur))
  | leaf l => trivial
  | anchor c => trivial
  | group capturing r => trivial

theorem atom_of_end (hend : EndsBranch s) : (atom o (.schema d) n depth).Finds s false s := by
  cases n with
  | zero => exact finds_pure.mpr ⟨rfl, rfl⟩
  | succ n =>
    rw [atom_schema, schemaAtom, finds_current_bind]
    rcases hend with h | h | h <;> rw [h] <;> exact finds_pure.mpr ⟨rfl, rfl⟩

theorem branch_of_end (hend : EndsBranch s) : (branch o.variant (atom o (.schema d) n depth) m).Finds s () s := by
  cases m with
  | zero => exact finds_pure.mpr ⟨rfl, rfl⟩
  | succ m => exact finds_bind.mpr ⟨false, s, atom_of_end hend, finds_pure.mpr ⟨rfl, rfl⟩⟩

theorem alternatives_of_end {p : Scan Unit} (hend : s.cursor.current ≠ some (unit '|')) :
    (alternatives p m).Finds s () s := by
  cases m with
  | zero => exact finds_pure.mpr ⟨rfl, rfl⟩
  | succ m =>
    rw [alternatives, finds_isAt_bind, if_neg fun h => hend (beq_iff_eq.mp h)]
    exact finds_pure.mpr ⟨rfl, rfl⟩

/-- The end of a pattern, inside a group or not. -/
def EndsRegexp (s : ScanState) : Prop := s.cursor.current = none ∨ s.cursor.current = some (unit ')')

theorem EndsRegexp.endsBranch (h : EndsRegexp s) : EndsBranch s := h.imp id .inl

theorem EndsRegexp.not_bar (h : EndsRegexp s) : s.cursor.current ≠ some (unit '|') := by
  rcases h with h | h <;> rw [h] <;> decide

mutual

theorem atom_complete (o : Options) (d : Dialect) : (a : Atom) → {s s' : ScanState} → {n depth : Nat} →
    Ready o n s → IsAtom o depth s s' a → (atom o (.schema d) n depth).Finds s true s'
  | a, s, s', 0, depth, hs, ha => by
    obtain ⟨u, hu, _⟩ := atStart_of_atom ha.1 ha.2.1
    rw [current_of_remaining hs.fuel] at hu
    cases hu
  | .group capturing r, s, s', n + 1, depth, hs, ha => by
    rw [atom_schema]
    refine schemaAtom_complete (a := .group capturing r) hs (fun t u ht hr hf hclose => ?_) ha
    have hdepth : depth < o.maxDepth := by
      have hl := ha.1
      cases capturing <;> exact hl.1
    rw [enclosed, finds_descend_bind, ht.options]
    exact ⟨hdepth, regexp_complete o d r ht ht.fuel hr hf (.inr hclose)⟩
  | .leaf l, s, s', n + 1, depth, hs, ha => schemaAtom_complete (a := .leaf l) hs trivial ha
  | .anchor c, s, s', n + 1, depth, hs, ha => schemaAtom_complete (a := .anchor c) hs trivial ha
  | .reference digits, s, s', n + 1, depth, hs, ha => schemaAtom_complete (a := .reference digits) hs trivial ha

theorem branch_complete (o : Options) (d : Dialect) : (b : Branch) → {s s' : ScanState} → {n m depth : Nat} →
    Ready o n s → s.cursor.remaining ≤ m → b.Legal o depth s.groups → Follows (b.course o s.groups) s s' →
    EndsBranch s' → (branch o.variant (atom o (.schema d) n depth) m).Finds s () s'
  | .nil, s, s', n, m, depth, _, _, _, hf, hend => by
    obtain rfl := hf
    exact branch_of_end hend
  | .cons a q b, s, s', n, m, depth, hs, hm, hl, hf, hend => by
    obtain ⟨ha, hq, hbefore, hb⟩ := hl
    rw [Branch.course, List.append_assoc] at hf
    obtain ⟨t, haf, hbehind⟩ := follows_append.mp hf
    obtain ⟨u, hqf, hbf⟩ := follows_append.mp hbehind
    have hlt := remaining_of_atom haf
    have hle := follows_remaining_le hqf
    have ht := hs.afterAtom haf
    have hquant := reads_of_quantifier q
    have hgroups : u.groups = a.after s.groups := by rw [follows_groups hqf, hquant.groups, groups_of_atom haf]
    have hu := ht.afterQuantifier hqf
    have hpast : PastQuantifier u := pastQuantifier_of_branch hb hbf hend.pastQuantifier
    have hatom := atom_complete o d a hs ⟨ha, haf, endsAtom_of_endsBefore haf hbehind (fun _ => hend.not_digit) hbefore⟩
    have hends : EndsQuantifier o.variant u q := by
      cases q with
      | none => exact hpast
      | some q => exact fun _ _ => hpast '?' (by decide)
    obtain ⟨m, rfl⟩ := Nat.exists_eq_add_one.mpr (show 0 < m by omega)
    have hrest := branch_complete o d b (m := m) hu (by omega) (hgroups ▸ hb) (hgroups ▸ hbf) hend
    refine finds_bind.mpr ⟨true, t, hatom, ?_⟩
    exact finds_bind.mpr ⟨(), u, (finds_quantifier (by omega)).mpr ⟨q, hq, hqf, hends⟩, hrest⟩

theorem regexp_complete (o : Options) (d : Dialect) : (r : Regexp) → {s s' : ScanState} → {n m depth : Nat} →
    Ready o n s → s.cursor.remaining ≤ m → r.Legal o depth s.groups → Follows (r.course o s.groups) s s' →
    EndsRegexp s' →
    (do
      branch o.variant (atom o (.schema d) n depth) n
      alternatives (branch o.variant (atom o (.schema d) n depth) n) m).Finds s () s'
  | .branch b, s, s', n, m, depth, hs, _, hl, hf, hend =>
    finds_bind.mpr ⟨(), s', branch_complete o d b hs hs.fuel hl hf hend.endsBranch, alternatives_of_end hend.not_bar⟩
  | .bar b r, s, s', n, m, depth, hs, hm, hl, hf, hend => by
    rw [Regexp.course, List.append_assoc] at hf
    obtain ⟨t, hbf, hrest⟩ := follows_append.mp hf
    obtain ⟨_, hcopy, hrf⟩ := follows_append.mp hrest
    obtain ⟨hbar, rfl⟩ := (follows_copies (by decide)).mp hcopy
    have hlt := remaining_lt (reads_of_copies '|') (List.cons_ne_nil _ _) hcopy
    have hle := follows_remaining_le hbf
    have ht := (hs.afterBranch hbf).copied hcopy
    have hgroups : t.copied.groups = b.after s.groups := by
      rw [follows_groups hcopy, groupsAfter_copies, groups_of_branch hbf]
    obtain ⟨m, rfl⟩ := Nat.exists_eq_add_one.mpr (show 0 < m by omega)
    have hr := regexp_complete o d r (m := m) ht (by omega) (hgroups ▸ hl.2) (hgroups ▸ hrf) hend
    refine finds_bind.mpr ⟨(), t, branch_complete o d b hs hs.fuel hl.1 hbf (.inr (.inr hbar)), ?_⟩
    rw [alternatives, finds_isAt_bind, if_pos (beq_iff_eq.mpr hbar), finds_copy_bind]
    exact hr

end

end Scan

/-! ## Whole expressions -/

/-- The fragments of a pattern. -/
def Grammar.Regexp.fragments (o : Options) (r : Regexp) : List Fragment := written (r.course o {})

section

variable {o : Options} {d : Dialect} {units : List CodeUnit} {r : Regexp}

theorem ready_start (o : Options) (units : List CodeUnit) :
    Scan.Ready o (ScanState.ofUnits o units).cursor.remaining (ScanState.ofUnits o units).advance where
  options := rfl
  inClass := rfl
  fuel := Nat.le_of_lt (Cursor.remaining_advance rfl)
  valid := nofun

/-- What a conversion that has gone through a tree has come to. -/
structure Conversion.Of (c : Conversion) (o : Options) (d : Dialect) (r : Regexp) : Prop where
  fragments : c.fragments = r.fragments o
  dialect : c.dialect = d
  variant : c.variant = o.variant
  multiLine : c.multiLine = o.multiLine
  captureCount : c.captureCount = (r.after {}).opened

theorem conversion_of_follows {s' : ScanState} (hf : Follows (r.course o {}) (ScanState.ofUnits o units).advance s') :
    Conversion.Of ⟨s'.output.toList, d, o.variant, o.multiLine, s'.opened, s'.warnings.toList⟩ o d r where
  fragments := follows_output hf
  dialect := rfl
  variant := rfl
  multiLine := rfl
  captureCount := congrArg Groups.opened ((follows_groups hf).trans (r.passed_course o {}).2.2)

/-- A whole pattern is an expression that ends where the text does. -/
theorem Scan.finds_pattern {atoms : Atoms} {n : Nat} {s s' : ScanState} :
    (Scan.pattern o atoms n).Finds s () s' ↔
      (Scan.expression o atoms n 0).Finds s.advance () s' ∧ s'.cursor.current = none := by
  rw [Scan.pattern, finds_advance_bind, finds_bind]
  constructor
  · rintro ⟨_, t, hexpr, hend⟩
    rw [finds_current_bind] at hend
    split at hend
    · exact (finds_fail.mp hend).elim
    · next hnone =>
      obtain ⟨_, rfl⟩ := finds_pure.mp hend
      exact ⟨hexpr, by simpa using hnone⟩
  · rintro ⟨hexpr, hend⟩
    refine ⟨(), s', hexpr, ?_⟩
    rw [finds_current_bind, hend]
    exact finds_pure.mpr ⟨rfl, rfl⟩

/-- A conversion succeeds as its scan does, and keeps what the scan has gathered. -/
theorem convertPattern_eq_ok {atoms : Atoms} {c : Conversion} :
    convertPattern o atoms units = .ok c ↔
      ∃ s', (Scan.expression o atoms (ScanState.ofUnits o units).cursor.remaining 0).Finds
          (ScanState.ofUnits o units).advance () s' ∧ s'.cursor.current = none ∧
        c = ⟨s'.output.toList, atoms.dialect, o.variant, o.multiLine, s'.opened, s'.warnings.toList⟩ := by
  have hiff : ∀ s', (ScanState.ofUnits o units).scan (Scan.pattern o atoms) = (.ok (), s') ↔ _ :=
    fun _ => Scan.finds_pattern
  unfold convertPattern
  constructor
  · intro h
    split at h
    · next s' hrun =>
      obtain ⟨hexpr, hend⟩ := (hiff s').mp hrun
      exact ⟨s', hexpr, hend, (Except.ok.inj h).symm⟩
    · cases h
  · rintro ⟨s', hexpr, hend, rfl⟩
    rw [(hiff s').mpr ⟨hexpr, hend⟩]

/-- A conversion that succeeds has a syntax tree of its expression. -/
theorem convertPattern_sound {c : Conversion} (h : convertPattern o (.schema d) units = .ok c) :
    ∃ r : Regexp, r.IsSyntaxOf o units := by
  obtain ⟨s', hexpr, hend, _⟩ := convertPattern_eq_ok.mp h
  obtain ⟨r, hr, hf⟩ := Scan.regexp_sound Scan.atom_sound (ready_start o units) hexpr
  refine ⟨r, hr, ?_⟩
  rw [← (r.passed_course o {}).1]
  exact follows_to_end_iff.mp ⟨s', hf, hend⟩

/-- A scan of an expression with a syntax tree follows the tree to the end. -/
theorem scan_complete (h : r.IsSyntaxOf o units) :
    ∃ s', (ScanState.ofUnits o units).scan (Scan.pattern o (.schema d)) = (.ok (), s') ∧
      Follows (r.course o {}) (ScanState.ofUnits o units).advance s' := by
  obtain ⟨hr, hspells⟩ := h
  rw [← (r.passed_course o {}).1] at hspells
  obtain ⟨s', hf, hend⟩ := follows_to_end_iff.mpr hspells
  have hready := ready_start o units
  have hexpr := Scan.regexp_complete o d r hready hready.fuel hr hf (.inl hend)
  exact ⟨s', Scan.finds_pattern.mpr ⟨hexpr, hend⟩, hf⟩

/-- An expression with a syntax tree is converted, to the fragments of the tree. -/
theorem convertPattern_complete (h : r.IsSyntaxOf o units) :
    ∃ c : Conversion, convertPattern o (.schema d) units = .ok c ∧ c.Of o d r := by
  obtain ⟨s', hscan, hf⟩ := scan_complete (d := d) h
  refine ⟨_, ?_, conversion_of_follows hf⟩
  rw [convertPattern, hscan]
  rfl

theorem convertPattern_isOk_iff :
    (∃ c, convertPattern o (.schema d) units = .ok c) ↔ ∃ r : Regexp, r.IsSyntaxOf o units := by
  constructor
  · rintro ⟨c, h⟩
    exact convertPattern_sound h
  · rintro ⟨r, hr⟩
    obtain ⟨c, h, _⟩ := convertPattern_complete (d := d) hr
    exact ⟨c, h⟩

/-- A conversion is the one of any syntax tree of its expression. -/
theorem convertPattern_of {c : Conversion} (h : convertPattern o (.schema d) units = .ok c)
    (hr : r.IsSyntaxOf o units) :
    c.Of o d r := by
  obtain ⟨c', h', hc⟩ := convertPattern_complete (d := d) hr
  rw [h] at h'
  cases h'
  exact hc

end

end XmlPattern
