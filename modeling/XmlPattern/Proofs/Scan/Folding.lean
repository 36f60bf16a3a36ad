import XmlPattern.Proofs.Scan.Alignment
import XmlPattern.Proofs.Scan.Patterns

/-!
# Scanning with and without blanks

Blanks are folded by the cursor, unit by unit, as the scanners move it and tell it of classes. Each scanner, run with
folding on an expression and without on what is stripped of blanks outside brackets, stays in step with itself: whatever
stands between a backslash and its letter, in a name, within a surrogate pair, or behind a bracket. The fuel of the two
runs differs; each has enough.

- `classExpr_lockstep`, `atom_lockstep`, `regexp_lockstep`: the scanners of classes, atoms and branches stay in step.
- `pattern_lockstep`: so do those of whole expressions.
-/

namespace XmlPattern

open Grammar

namespace Scan

variable {K : List Nat} {d : Nat} {s t : ScanState} {n m : Nat} {o o' : Options}

/-- Whatever two scans have found, they are aligned where so many brackets are open and nothing has begun. -/
abbrev AlignedIn (K : List Nat) (d : Nat) {α : Type} : α → ScanState → ScanState → Prop :=
  fun _ s t => s.Aligned K ⟨d, .plain⟩ t

/-! ## Fuel -/

/-- Both of two scans have come nearer to the end. -/
def Nearer (s t s' t' : ScanState) : Prop :=
  s'.cursor.remaining < s.cursor.remaining ∧ t'.cursor.remaining < t.cursor.remaining

theorem nearer_advance {u v : CodeUnit} (hu : s.cursor.current = some u) (hv : t.cursor.current = some v) :
    Nearer s t s.advance t.advance :=
  ⟨ScanState.remaining_advance hu, ScanState.remaining_advance hv⟩

theorem Nearer.advance {s' t' : ScanState} (h : Nearer s t s' t') : Nearer s t s'.advance t'.advance :=
  ⟨Nat.lt_of_le_of_lt s'.cursor.remaining_advance_le h.1, Nat.lt_of_le_of_lt t'.cursor.remaining_advance_le h.2⟩

/-- Coming nearer to the end takes fuel that is no longer needed. -/
theorem Nearer.within {s' t' : ScanState} (h : Nearer s t s' t') (hw : Within (n + 1) (m + 1) s t) : Within n m s' t' :=
  ⟨Nat.le_of_lt_succ (Nat.lt_of_lt_of_le h.1 hw.1), Nat.le_of_lt_succ (Nat.lt_of_lt_of_le h.2 hw.2)⟩

theorem Within.copied (hw : Within n m s.advance t.advance) : Within n m s.copied t.copied := by
  rwa [Within, ScanState.cursor_copied, ScanState.cursor_copied]

/-- What has come nearer to the end stays nearer. -/
theorem Lockstep.nearer_of {α : Type} {E : Diagnostic → Diagnostic → Prop} {p q : Scan α} {s' t' : ScanState}
    {Q : α → ScanState → ScanState → Prop} (h : Lockstep E p q s' t' Q) (hn : Nearer s t s' t') :
    Lockstep E p q s' t' fun a u v => Q a u v ∧ Nearer s t u v :=
  (h.within (n := s'.cursor.remaining) (m := t'.cursor.remaining) ⟨Nat.le_refl _, Nat.le_refl _⟩).mono
    fun _ _ _ h => ⟨h.1, Nat.lt_of_le_of_lt h.2.1 hn.1, Nat.lt_of_le_of_lt h.2.2 hn.2⟩

/-- Either both scans are at the end, or both have fuel for the unit they are on. -/
theorem Within.cases (hw : Within n m s t) (h : t.cursor.current = s.cursor.current) :
    s.cursor.current = none ∨ ∃ u n' m', n = n' + 1 ∧ m = m' + 1 ∧ s.cursor.current = some u ∧
      Within n' m' s.advance t.advance := by
  cases hu : s.cursor.current with
  | none => exact .inl rfl
  | some u =>
    have hnear := nearer_advance hu (h.trans hu)
    obtain ⟨n, rfl⟩ := Nat.exists_eq_succ_of_ne_zero
      (Nat.ne_of_gt (Nat.lt_of_lt_of_le (Nat.zero_lt_of_lt hnear.1) hw.1))
    obtain ⟨m, rfl⟩ := Nat.exists_eq_succ_of_ne_zero
      (Nat.ne_of_gt (Nat.lt_of_lt_of_le (Nat.zero_lt_of_lt hnear.2) hw.2))
    exact .inr ⟨u, n, m, rfl, rfl, rfl, hnear.within hw⟩

theorem Within.advance (hw : Within n m s t) : Within n m s.advance t.advance :=
  ⟨Nat.le_trans s.cursor.remaining_advance_le hw.1, Nat.le_trans t.cursor.remaining_advance_le hw.2⟩

/-- What begins by passing a unit comes nearer to the end. -/
theorem Lockstep.nearer {α : Type} {E : Diagnostic → Diagnostic → Prop} {f g : Unit → Scan α}
    {Q : α → ScanState → ScanState → Prop} {u v : CodeUnit}
    (h : Lockstep E (Scan.advance >>= f) (Scan.advance >>= g) s t Q)
    (hu : s.cursor.current = some u) (hv : t.cursor.current = some v) :
    Lockstep E (Scan.advance >>= f) (Scan.advance >>= g) s t fun a s' t' => Q a s' t' ∧ Nearer s t s' t' :=
  have hafter : Lockstep E (f ()) (g ()) s.advance t.advance Q := h
  hafter.nearer_of (nearer_advance hu hv)

theorem lockstep_of_failure {α : Type} {p q : Scan α} {pl : Place} {r : Reason} {Q : α → ScanState → ScanState → Prop}
    (h : s.Aligned K pl t) (hp : p.run s = (.error (s.diagnostic r), s)) (hq : q.run t = (.error (t.diagnostic r), t)) :
    Lockstep (Diagnostic.Corresponds K) p q s t Q := by
  unfold Lockstep
  rw [hp, hq]
  exact .error (h.corresponds r)

theorem lockstep_copy {c : Char} (h : s.Aligned K ⟨d, .plain⟩ t) (hc : s.cursor.current = some (unit c))
    (hlt : c.toNat < 0x80) (hp : c ∉ Place.signs) :
    Lockstep (Diagnostic.Corresponds K) copy copy s t (AlignedIn K d) :=
  lockstep_of_run run_copy run_copy (h.copied hc hlt hp)

/-! ## Quantifiers -/

theorem not_sign_of_isDigit {c : Char} (h : c.isDigit = true) : c ∉ Place.signs :=
  fun hc => Place.not_mem_signs_of_isDigit h (List.mem_cons_of_mem _ hc)

theorem digits_lockstep (h : s.Aligned K ⟨d, .plain⟩ t) (hw : Within n m s t) :
    Lockstep (Diagnostic.Corresponds K) (digits n) (digits m) s t (AlignedIn K d) := by
  induction n using Nat.strongRecOn generalizing m s t with
  | _ n ih =>
    rcases hw.cases h.current with hu | ⟨u, n, m, rfl, rfl, hu, hw⟩
    · exact lockstep_of_failure h (run_digits_of_end _ hu) (run_digits_of_end _ (h.current.trans hu))
    · simp only [digits, lockstep_ascii_bind, h.current, hu, Option.bind_some]
      cases ha : u.toAscii? with
      | none => exact .of_fail (h.corresponds _)
      | some c =>
        dsimp only
        by_cases hc : c.isDigit = true
        · have hnext : s.advance.Aligned K ⟨d, .plain⟩ t.advance :=
            h.pass (ScanState.unmarked_of_ascii (by rw [hu]; exact ha) (not_sign_of_isDigit hc))
          simp only [hc, if_true, lockstep_advance_bind, lockstep_isAt_bind, hnext.current]
          split
          · exact .of_pure hnext
          · exact (ih n (Nat.lt_succ_self n) hnext hw).bind fun ds s' t' h' => .of_pure h'
        · simp only [hc]
          exact .of_fail_bind (h.corresponds _)

theorem bounds_lockstep (h : s.Aligned K ⟨d, .plain⟩ t) (hw : Within n m s t) :
    Lockstep (Diagnostic.Corresponds K) (bounds n) (bounds m) s t (AlignedIn K d) := by
  unfold bounds
  refine ((digits_lockstep h hw).within hw).bind fun lower s t hst => ?_
  obtain ⟨h, hw⟩ := hst
  rw [lockstep_write_bind, lockstep_isAt_bind]
  replace h := h.write (.verbatim (boundText lower))
  rw [h.current]
  split
  · next hc =>
    refine ((lockstep_copy h (beq_iff_eq.mp hc) (by decide) (by decide)).within hw).bind fun _ s t hst => ?_
    obtain ⟨h, hw⟩ := hst
    rw [lockstep_isAt_bind, h.current]
    split
    · exact .of_pure h
    · refine (digits_lockstep h hw).bind fun upper s t h => ?_
      rw [lockstep_write_bind]
      replace h := h.write (.verbatim (boundText upper))
      split
      · exact .of_fail (h.corresponds _)
      · exact .of_pure h
  · exact .of_pure h

theorem lazyMark_lockstep (v : Variant) (h : s.Aligned K ⟨d, .plain⟩ t) :
    Lockstep (Diagnostic.Corresponds K) (lazyMark v) (lazyMark v) s t (AlignedIn K d) := by
  unfold lazyMark
  rw [lockstep_isAt_bind, h.current]
  split
  · next hc =>
    rw [Bool.and_eq_true, beq_iff_eq] at hc
    exact lockstep_copy h hc.2 (by decide) (by decide)
  · exact .of_pure h

theorem expect_lockstep {pl : Place} (c : Char) (h : s.Aligned K pl t) :
    Lockstep (Diagnostic.Corresponds K) (expect c) (expect c) s t fun _ s' t' =>
      s'.cursor.current = some (unit c) ∧ s'.Aligned K pl t' := by
  unfold expect
  rw [lockstep_isAt_bind, h.current]
  split
  · next hc => exact .of_pure ⟨beq_iff_eq.mp hc, h⟩
  · exact .of_fail (h.corresponds _)

theorem quantifier_lockstep (v : Variant) (h : s.Aligned K ⟨d, .plain⟩ t) (hw : Within n m s t) :
    Lockstep (Diagnostic.Corresponds K) (quantifier v n) (quantifier v m) s t (AlignedIn K d) := by
  have hsign : ∀ c : Char, c ∈ ['*', '?', '+'] → s.cursor.current.bind CodeUnit.toAscii? = some c →
      Lockstep (Diagnostic.Corresponds K) (do copy; lazyMark v) (do copy; lazyMark v) s t (AlignedIn K d) := by
    intro c hc ha
    obtain ⟨hlt, hcur⟩ := ascii_eq_some.mp ha
    have hp : ∀ c ∈ ['*', '?', '+'], c ∉ Place.signs := List.all_iff_forall_prop.mp (by decide)
    exact (lockstep_copy h hcur hlt (hp c hc)).bind fun _ _ _ h => lazyMark_lockstep v h
  unfold quantifier
  rw [lockstep_ascii_bind, h.current]
  dsimp only
  split
  · next hc => exact hsign '*' (by decide) hc
  · next hc => exact hsign '?' (by decide) hc
  · next hc => exact hsign '+' (by decide) hc
  · next hc =>
    refine ((lockstep_copy h (ascii_eq_some.mp hc).2 (by decide) (by decide)).within hw).bind fun _ s t hst => ?_
    obtain ⟨h, hw⟩ := hst
    refine (bounds_lockstep h hw).bind fun _ s t h => ?_
    refine (expect_lockstep '\x7d' h).bind fun _ s t hst => ?_
    obtain ⟨hc, h⟩ := hst
    exact (lockstep_copy h hc (by decide) (by decide)).bind fun _ _ _ h => lazyMark_lockstep v h
  · exact .of_pure h

/-! ## Escapes -/

theorem character_lockstep (h : s.Aligned K ⟨d, .plain⟩ t) (hw : Within n m s.advance t.advance) (hu : s.Unmarked) :
    Lockstep (Diagnostic.Corresponds K) character character s t fun _ s' t' =>
      (s'.Unmarked ∧ s'.Aligned K ⟨d, .plain⟩ t') ∧ Within n m s'.advance t'.advance := by
  unfold character
  simp only [lockstep_current_bind, h.current]
  cases hc : s.cursor.current with
  | none => exact .of_pure ⟨⟨hu, h⟩, hw⟩
  | some u =>
    dsimp only
    split
    · have hnext := h.pass hu
      simp only [lockstep_advance_bind, lockstep_current_bind, hnext.current]
      cases hv : s.advance.cursor.current with
      | none => exact .of_fail (hnext.corresponds _)
      | some v =>
        dsimp only
        split
        · next hlow =>
          refine .of_pure ⟨⟨?_, hnext⟩, hw.advance⟩
          have hsurrogate : v.isSurrogate = true := by rw [CodeUnit.isSurrogate_eq, hlow, Bool.or_true]
          rw [ScanState.Unmarked, hv, Option.bind_some, CodeUnit.toAscii?_of_isSurrogate hsurrogate]
          rintro _ ⟨⟩
        · exact .of_fail (hnext.corresponds _)
    · split
      · exact .of_fail (h.corresponds _)
      · exact .of_pure ⟨⟨hu, h⟩, hw⟩

theorem braced_lockstep (h : s.Aligned K ⟨d, .name⟩ t) (hw : Within n m s t) :
    Lockstep (Diagnostic.Corresponds K) (braced n) (braced m) s t fun _ s' t' =>
      s'.cursor.current = some (unit '\x7d') ∧ s'.Aligned K ⟨d, .name⟩ t' := by
  induction n using Nat.strongRecOn generalizing m s t with
  | _ n ih =>
    rcases hw.cases h.current with hu | ⟨u, n, m, rfl, rfl, hu, hw⟩
    · exact lockstep_of_failure h (run_braced_of_end _ hu) (run_braced_of_end _ (h.current.trans hu))
    · simp only [braced, lockstep_current_bind, h.current, hu]
      by_cases hc : u = unit '\x7d'
      · simp only [hc, beq_self_eq_true, if_true]
        exact .of_pure ⟨hc ▸ hu, h⟩
      · have hnext := h.advance hu (Place.step_name hc) rfl
        simp only [beq_eq_false_iff_ne.mpr hc, Bool.false_eq_true, if_false, lockstep_advance_bind]
        exact (ih n (Nat.lt_succ_self n) hnext hw).bind fun _ _ _ h => .of_pure h

theorem namedChars_lockstep {pl : Place} (v : Variant) (name : List Char) (h : s.Aligned K pl t) :
    Lockstep (Diagnostic.Corresponds K) (namedChars v name) (namedChars v name) s t fun _ s' t' =>
      s'.cursor.current = s.cursor.current ∧ s'.Aligned K pl t' := by
  unfold namedChars
  split
  · next block =>
    unfold blockChars
    split
    · exact .of_pure ⟨rfl, h⟩
    · split
      · exact .of_pure ⟨rfl, h.warn _⟩
      · exact .of_fail_bind (h.corresponds _)
  · split
    · exact .of_pure ⟨rfl, h⟩
    · exact .of_fail (h.corresponds _)

theorem propertyEscape_lockstep {c : Char} (h : s.Aligned K ⟨d, .escape⟩ t) (hc : s.cursor.current = some (unit c))
    (hp : c = 'p' ∨ c = 'P') (hw : Within n m s t) (negated : Bool) :
    Lockstep (Diagnostic.Corresponds K) (propertyEscape o n negated)
      (propertyEscape { o with foldBlanks := false } m negated) s t (AlignedIn K d) := by
  unfold propertyEscape
  replace h := h.advance hc (Place.step_property hp) rfl
  simp only [lockstep_advance_bind]
  refine ((expect_lockstep '\x7b' h).within hw.advance).bind fun _ s t hst => ?_
  obtain ⟨⟨hc, h⟩, hw⟩ := hst
  rw [lockstep_advance_bind]
  refine (braced_lockstep (h.advance hc (Place.step_brace d) rfl) hw.advance).bind fun name s t hst => ?_
  obtain ⟨hc, h⟩ := hst
  refine (namedChars_lockstep o.variant _ h).bind fun chars s t hst => ?_
  obtain ⟨hc', h⟩ := hst
  rw [lockstep_advance_bind]
  exact .of_pure (h.advance (hc'.trans hc) (Place.step_brace_close d) rfl)

theorem escape_lockstep (h : s.Aligned K ⟨d, .escape⟩ t) (hw : Within n m s t) :
    Lockstep (Diagnostic.Corresponds K) (escape o n) (escape { o with foldBlanks := false } m) s t (AlignedIn K d) := by
  unfold escape
  rw [lockstep_ascii_bind, h.current]
  dsimp only
  split
  · exact .of_fail (h.corresponds _)
  · next hc => exact propertyEscape_lockstep h (ascii_eq_some.mp hc).2 (.inl rfl) hw false
  · next hc => exact propertyEscape_lockstep h (ascii_eq_some.mp hc).2 (.inr rfl) hw true
  · next letter hp hP hc =>
    obtain ⟨hlt, hcur⟩ := ascii_eq_some.mp hc
    have hstep : Place.step ⟨d, .escape⟩ (unit letter) = ⟨d, .plain⟩ := by
      apply Place.step_letter
      rw [CodeUnit.toAscii?_eq_some.mpr ⟨hlt, rfl⟩]
      rintro _ ⟨⟩
      exact ⟨hp, hP⟩
    have hnext := h.advance hcur hstep rfl
    split
    · exact .of_pure hnext
    · exact .of_pure hnext
    · exact .of_fail (h.corresponds _)

/-! ## Class expressions -/

theorem member_lockstep (h : s.Aligned K ⟨d, .plain⟩ t) (hw : Within n m s.advance t.advance)
    (hc : s.cursor.current ≠ some (unit ']')) :
    Lockstep (Diagnostic.Corresponds K) (member o n) (member { o with foldBlanks := false } m) s t fun _ s' t' =>
      s'.Aligned K ⟨d, .plain⟩ t' ∧ Within n m s' t' := by
  unfold member
  rw [lockstep_ascii_bind, h.current]
  split
  · next ha =>
    rw [lockstep_advance_bind]
    exact (escape_lockstep (h.advance (ascii_eq_some.mp ha).2 (Place.step_backslash d) rfl) hw).within hw
  · exact .of_fail (h.corresponds _)
  · exact .of_fail (h.corresponds _)
  · next hb ho _ =>
    have hu : s.Unmarked := by
      intro c ha
      simp only [Place.signs, List.mem_cons, List.not_mem_nil, or_false]
      rintro (rfl | rfl | rfl)
      · exact hb ha
      · exact ho ha
      · exact hc (ascii_eq_some.mp ha).2
    exact (character_lockstep h hw hu).bind fun c s t hst => .of_pure ⟨hst.1.2.pass hst.1.1, hst.2⟩

/-- Two scanners of what a class lists are in step wherever a member may begin, and stop where the list ends. -/
def MembersInStep (K : List Nat) (d n m : Nat) (p q : Bool → CharSet → Scan CharSet) : Prop :=
  ∀ {s t : ScanState} (first : Bool) (c : CharSet), s.Aligned K ⟨d + 1, .plain⟩ t → Within n m s t →
    Lockstep (Diagnostic.Corresponds K) (p first c) (q first c) s t fun _ s' t' =>
      EndsMembers s' ∧ s'.Aligned K ⟨d + 1, .plain⟩ t'

theorem afterItem_lockstep (hpq : MembersInStep K d n m (members o n) (members { o with foldBlanks := false } m))
    (h : s.Aligned K ⟨d + 1, .plain⟩ t) (hw : Within n m s t) (c : CharSet) (lower : Member) :
    Lockstep (Diagnostic.Corresponds K) (afterItem o n c lower) (afterItem { o with foldBlanks := false } m c lower) s t
      fun _ s' t' => EndsMembers s' ∧ s'.Aligned K ⟨d + 1, .plain⟩ t' := by
  unfold afterItem
  rw [lockstep_isAt_bind, h.current]
  split
  · next hc =>
    have hu := beq_iff_eq.mp hc
    have hnext := h.cursor.next hu (Nat.succ_pos d)
    simp only [lockstep_next_bind, hnext]
    split
    · next hb => exact .of_pure ⟨.inr ⟨hu, beq_iff_eq.mp hb⟩, h⟩
    · replace h := h.pass (ScanState.unmarked_of_current hu (by decide) (by decide))
      replace hw := hw.advance
      simp only [lockstep_advance_bind, lockstep_isAt_bind, h.current]
      split
      · next hc => exact .of_pure ⟨.inl (beq_iff_eq.mp hc), h⟩
      · next hc =>
        refine (member_lockstep h hw.advance fun hc' => hc (beq_iff_eq.mpr hc')).bind fun upper s t hst => ?_
        obtain ⟨h, hw⟩ := hst
        split
        · split
          · exact .of_fail_bind (h.corresponds _)
          · exact hpq _ _ h hw
        · exact .of_fail (h.corresponds _)
  · exact hpq _ _ h hw

theorem members_lockstep : MembersInStep K d n m (members o n) (members { o with foldBlanks := false } m) := by
  induction n using Nat.strongRecOn generalizing m with
  | _ n ih =>
    intro s t first c h hw
    rcases hw.cases h.current with hu | ⟨u, n, m, rfl, rfl, hu, hw⟩
    · exact lockstep_of_failure h (run_members_of_end _ _ _ hu) (run_members_of_end _ _ _ (h.current.trans hu))
    · have hrest : MembersInStep K d n m (members o n) (members { o with foldBlanks := false } m) :=
        ih n (Nat.lt_succ_self n)
      simp only [members, lockstep_current_bind, h.current, hu]
      split
      · next hc =>
        rw [beq_iff_eq.mp hc] at hu
        exact .of_pure ⟨.inl hu, h⟩
      · next hclose =>
        split
        · next hc =>
          obtain rfl := beq_iff_eq.mp hc
          have hnext := h.cursor.next hu (Nat.succ_pos d)
          simp only [lockstep_next_bind, hnext]
          split
          · next hb =>
            rw [Bool.and_eq_true, beq_iff_eq] at hb
            exact .of_pure ⟨.inr ⟨hu, hb.2⟩, h⟩
          · split
            · exact .of_fail_bind (h.corresponds _)
            · rw [lockstep_advance_bind]
              exact hrest _ _ (h.pass (ScanState.unmarked_of_current hu (by decide) (by decide))) hw
        · have hc : s.cursor.current ≠ some (unit ']') := by
            rw [hu]
            rintro ⟨⟩
            exact hclose rfl
          exact (member_lockstep h hw hc).bind fun lower _ _ hst => afterItem_lockstep hrest hst.1 hst.2 c lower

/-- Two scanners are in step wherever a class expression begins. -/
def ClassesInStep (K : List Nat) (n m : Nat) (p q : Scan CharSet) : Prop :=
  ∀ {d : Nat} {s t : ScanState}, s.Aligned K ⟨d, .plain⟩ t → Within n m s t → s.cursor.current = some (unit '[') →
    Lockstep (Diagnostic.Corresponds K) p q s t (AlignedIn K d)

theorem subtraction_lockstep {p q : Scan CharSet} (hpq : ClassesInStep K n m p q) (c : CharSet)
    (h : s.Aligned K ⟨d + 1, .plain⟩ t) (hw : Within n m s t) (hu : s.cursor.current = some (unit '-'))
    (hnext : s.cursor.next = some (unit '[')) :
    Lockstep (Diagnostic.Corresponds K) (subtraction p c) (subtraction q c) s t fun _ s' t' =>
      s'.cursor.current = some (unit ']') ∧ s'.Aligned K ⟨d + 1, .plain⟩ t' := by
  unfold subtraction
  rw [lockstep_advance_bind]
  have hcur : s.advance.cursor.current = some (unit '[') :=
    (Cursor.current_advance_of_inClass (by rw [h.cursor.inClass]; simp) hu).trans hnext
  refine (hpq (h.pass (ScanState.unmarked_of_current hu (by decide) (by decide))) hw.advance hcur).bind
    fun taken s t h => ?_
  exact (expect_lockstep ']' h).bind fun _ _ _ h => .of_pure h

theorem classRest_lockstep (hclass : ClassesInStep K n m (classExpr o n) (classExpr { o with foldBlanks := false } m))
    (h : s.Aligned K ⟨d + 1, .plain⟩ t) (hw : Within n m s t) (negated : Bool) :
    Lockstep (Diagnostic.Corresponds K) (classRest o n (decide (0 < d)) negated)
      (classRest { o with foldBlanks := false } m (decide (0 < d)) negated) s t (AlignedIn K d) := by
  unfold classRest
  simp only [lockstep_isAt_bind, h.current]
  split
  · exact .of_fail_bind (h.corresponds _)
  · refine ((members_lockstep true ∅ h hw).within hw).bind fun listed s t hst => ?_
    obtain ⟨⟨he, h⟩, hw⟩ := hst
    rw [lockstep_isAt_bind, h.current]
    split
    · next hc =>
      obtain ⟨hu, hnext⟩ := he.resolve_left (by rw [beq_iff_eq.mp hc]; decide)
      refine (subtraction_lockstep hclass _ h hw hu hnext).bind fun chars s t hst => ?_
      obtain ⟨hu, h⟩ := hst
      exact .of_pure (h.turn hu (Place.step_close d) rfl)
    · next hc =>
      have hu := he.resolve_right fun h => hc (beq_iff_eq.mpr h.1)
      exact .of_pure (h.turn hu (Place.step_close d) rfl)

theorem classExpr_succ_lockstep
    (hclass : ClassesInStep K n m (classExpr o n) (classExpr { o with foldBlanks := false } m))
    (h : s.Aligned K ⟨d, .plain⟩ t) (hw : Within (n + 1) (m + 1) s t) (hu : s.cursor.current = some (unit '[')) :
    Lockstep (Diagnostic.Corresponds K) (classExpr o (n + 1)) (classExpr { o with foldBlanks := false } (m + 1)) s t
      fun _ s' t' => s'.Aligned K ⟨d, .plain⟩ t' ∧ Nearer s t s' t' := by
  have hnear : Nearer s t (s.setInClass true).advance (t.setInClass true).advance :=
    nearer_advance (s := s.setInClass true) (t := t.setInClass true) hu (h.current.trans hu)
  have hw : Within n m (s.setInClass true).advance (t.setInClass true).advance := hnear.within hw
  simp only [classExpr, lockstep_inClass_bind, lockstep_setInClass_bind, lockstep_advance_bind, lockstep_isAt_bind]
  rw [h.cursor.inClass, h.cursor.inClass']
  replace h := h.turn (b := true) hu (Place.step_open d) (by simp)
  rw [h.current]
  split
  · next hc =>
    rw [lockstep_advance_bind]
    replace h := h.pass (ScanState.unmarked_of_current (beq_iff_eq.mp hc) (by decide) (by decide))
    exact (classRest_lockstep hclass h hw.advance _).nearer_of hnear.advance
  · exact (classRest_lockstep hclass h hw _).nearer_of hnear

theorem classExpr_lockstep : ClassesInStep K n m (classExpr o n) (classExpr { o with foldBlanks := false } m) := by
  induction n using Nat.strongRecOn generalizing m with
  | _ n ih =>
    intro d s t h hw hu
    rcases hw.cases h.current with hu' | ⟨u, n, m, rfl, rfl, _, _⟩
    · cases hu.symm.trans hu'
    · exact (classExpr_succ_lockstep (ih n (Nat.lt_succ_self n)) h hw hu).mono fun _ _ _ h => h.1

/-! ## Back-references -/

theorem referenceNumber_lockstep {pl : Place} {u : CodeUnit} (number : Nat) (h : s.Aligned K pl t) (hw : Within n m s t)
    (hu : s.cursor.current = some u) (hstep : pl.step u = ⟨pl.depth, .plain⟩) :
    Lockstep (Diagnostic.Corresponds K) (referenceNumber n number) (referenceNumber m number) s t
      (AlignedIn K pl.depth) := by
  induction n using Nat.strongRecOn generalizing m pl u s t number with
  | _ n ih =>
    rcases hw.cases h.current with hu' | ⟨u, n, m, rfl, rfl, _, hw⟩
    · cases hu.symm.trans hu'
    · replace h := h.advance hu hstep rfl
      simp only [referenceNumber, lockstep_advance_bind, lockstep_ascii_bind]
      rw [h.current]
      split
      · next c hc =>
        rw [lockstep_opened_bind, h.opened]
        split
        · next hd =>
          rw [Bool.and_eq_true] at hd
          obtain ⟨hlt, hcur⟩ := ascii_eq_some.mp hc
          have hplain : Place.step ⟨pl.depth, .plain⟩ (CodeUnit.ofBasic c) = ⟨pl.depth, .plain⟩ := by
            apply Place.step_plain
            rw [CodeUnit.toAscii?_eq_some.mpr ⟨hlt, rfl⟩]
            rintro _ ⟨⟩
            exact not_sign_of_isDigit hd.1
          have hrest := ih n (Nat.lt_succ_self n) (number * 10 + (c.toNat - '0'.toNat)) h hw hcur hplain
          exact hrest
        · exact .of_pure h
      · exact .of_pure h

theorem backReference_lockstep {c : Char} (h : s.Aligned K ⟨d, .escape⟩ t) (hw : Within n m s t)
    (hc : s.cursor.current = some (unit c)) (hd : c.isDigit = true) :
    Lockstep (Diagnostic.Corresponds K) (backReference o n c) (backReference { o with foldBlanks := false } m c) s t
      (AlignedIn K d) := by
  have hstep : Place.step ⟨d, .escape⟩ (unit c) = ⟨d, .plain⟩ := by
    apply Place.step_letter
    rw [CodeUnit.toAscii?_eq_some.mpr ⟨isDigit_lt hd, rfl⟩]
    rintro _ ⟨⟩
    constructor <;> rintro rfl <;> cases hd
  unfold backReference
  refine (referenceNumber_lockstep _ h hw hc hstep).bind fun number s t h => ?_
  rw [lockstep_isClosed_bind, h.closed]
  split
  · exact lockstep_of_run rfl rfl (h.write _)
  · rw [lockstep_opened_bind, h.opened]
    exact .of_fail_bind (h.corresponds _)

/-! ## Atoms -/

theorem memberFragment_fold (b : Bool) (x : Member) :
    memberFragment { o with foldBlanks := b } x = memberFragment o x := by
  cases x <;> rfl

theorem schemaEscape_lockstep (h : s.Aligned K ⟨d, .plain⟩ t) (hw : Within n m s.advance t.advance)
    (hu : s.cursor.current = some (unit '\\')) :
    Lockstep (Diagnostic.Corresponds K) (schemaEscape o n) (schemaEscape { o with foldBlanks := false } m) s t
      (AlignedIn K d) := by
  have hwrite : ∀ {s t : ScanState}, s.Aligned K ⟨d, .escape⟩ t → Within n m s t →
      Lockstep (Diagnostic.Corresponds K) (do write (memberFragment o (← escape o n)))
        (do write (memberFragment { o with foldBlanks := false } (← escape { o with foldBlanks := false } m))) s t
        (AlignedIn K d) := by
    intro s t h hw
    refine (escape_lockstep h hw).bind fun x s t h => ?_
    rw [memberFragment_fold]
    exact lockstep_of_run rfl rfl (h.write _)
  replace h := h.advance hu (Place.step_backslash d) rfl
  simp only [schemaEscape, lockstep_advance_bind, lockstep_ascii_bind]
  rw [h.current]
  split
  · next c hc =>
    split
    · next hd =>
      simp only [Bool.and_eq_true] at hd
      exact backReference_lockstep h hw (ascii_eq_some.mp hc).2 hd.1.2
    · exact hwrite h hw
  · exact hwrite h hw

theorem plainCharacter_lockstep (h : s.Aligned K ⟨d, .plain⟩ t) (hw : Within n m s.advance t.advance)
    (hu : s.Unmarked) :
    Lockstep (Diagnostic.Corresponds K) (plainCharacter o) (plainCharacter { o with foldBlanks := false }) s t
      fun _ s' t' => s'.Aligned K ⟨d, .plain⟩ t' ∧ Within n m s' t' := by
  unfold plainCharacter
  refine (character_lockstep h hw hu).bind fun c s t hst => ?_
  obtain ⟨⟨hu, h⟩, hw⟩ := hst
  rw [lockstep_advance_bind, memberFragment_fold]
  exact lockstep_of_run rfl rfl ⟨(h.pass hu).write _, hw⟩

/-- Two scanners are in step wherever nothing has begun outside brackets. -/
def InStep (K : List Nat) (n m : Nat) (p q : Scan Unit) : Prop :=
  ∀ {s t : ScanState}, s.Aligned K {} t → Within n m s t → Lockstep (Diagnostic.Corresponds K) p q s t (AlignedIn K 0)

variable {p q : Scan Unit}

theorem groupBody_lockstep {close close' : Scan Unit} (hpq : InStep K n m p q) (h : s.Aligned K {} t)
    (hw : Within n m s t)
    (hclose : ∀ {s t : ScanState}, s.Aligned K {} t → s.cursor.current = some (unit ')') →
      Lockstep (Diagnostic.Corresponds K) close close' s t fun _ s' t' =>
        s'.cursor.current = some (unit ')') ∧ s'.Aligned K {} t') :
    Lockstep (Diagnostic.Corresponds K) (groupBody p close) (groupBody q close') s t (AlignedIn K 0) := by
  unfold groupBody
  refine (hpq h hw).bind fun _ s t h => ?_
  refine (expect_lockstep ')' h).bind fun _ s t hst => ?_
  obtain ⟨hu, h⟩ := hst
  refine (hclose h hu).bind fun _ s t hst => ?_
  obtain ⟨hu, h⟩ := hst
  exact lockstep_copy h hu (by decide) (by decide)

theorem capturingGroup_lockstep (hpq : InStep K n m p q) (h : s.Aligned K {} t) (hw : Within n m s t) :
    Lockstep (Diagnostic.Corresponds K) (capturingGroup p) (capturingGroup q) s t (AlignedIn K 0) := by
  unfold capturingGroup writeText
  rw [lockstep_openGroup_bind, lockstep_write_bind, h.opened]
  refine groupBody_lockstep hpq (h.openGroup.write _) hw fun h hu => ?_
  exact lockstep_of_run rfl rfl ⟨hu, h.closeGroup _⟩

theorem group_lockstep (v : Variant) (hpq : InStep K n m p q) (h : s.Aligned K {} t)
    (hw : Within n m s.advance t.advance) (hu : s.cursor.current = some (unit '(')) :
    Lockstep (Diagnostic.Corresponds K) (group v p) (group v q) s t (AlignedIn K 0) := by
  replace h := h.pass (ScanState.unmarked_of_current hu (by decide) (by decide))
  simp only [group, lockstep_advance_bind, lockstep_isAt_bind, h.current]
  split
  · next hc =>
    rw [Bool.and_eq_true, beq_iff_eq] at hc
    rw [lockstep_advance_bind]
    replace h := h.pass (ScanState.unmarked_of_current hc.2 (by decide) (by decide))
    refine ((expect_lockstep ':' h).within hw.advance).bind fun _ s t hst => ?_
    obtain ⟨⟨hu, h⟩, hw⟩ := hst
    replace h := h.pass (ScanState.unmarked_of_current hu (by decide) (by decide))
    unfold writeText
    rw [lockstep_advance_bind, lockstep_write_bind]
    refine groupBody_lockstep hpq (h.write _) hw.advance fun h hu => ?_
    exact .of_pure ⟨hu, h⟩
  · exact capturingGroup_lockstep hpq h hw

/-- Two scanners for atoms are in step wherever one may begin, and come nearer to the end if they have found one. -/
def AtomsInStep (K : List Nat) (n m : Nat) (p q : Scan Bool) : Prop :=
  ∀ {s t : ScanState}, s.Aligned K {} t → Within n m s t →
    Lockstep (Diagnostic.Corresponds K) p q s t fun b s' t' => s'.Aligned K {} t' ∧ (b = true → Nearer s t s' t')

theorem plainCharacter_nearer {u : CodeUnit} (h : s.Aligned K {} t) (hu : s.cursor.current = some u)
    (hsign : ∀ c ∈ u.toAscii?, c ∉ Place.signs) :
    Lockstep (Diagnostic.Corresponds K) (plainCharacter o) (plainCharacter { o with foldBlanks := false }) s t
      fun _ s' t' => s'.Aligned K {} t' ∧ Nearer s t s' t' := by
  have hnear := nearer_advance hu (h.current.trans hu)
  have hunmarked : s.Unmarked := by rwa [ScanState.Unmarked, hu]
  refine (plainCharacter_lockstep h (n := s.advance.cursor.remaining) (m := t.advance.cursor.remaining)
    ⟨Nat.le_refl _, Nat.le_refl _⟩ hunmarked).mono fun _ _ _ h => ⟨h.1, ?_⟩
  exact ⟨Nat.lt_of_le_of_lt h.2.1 hnear.1, Nat.lt_of_le_of_lt h.2.2 hnear.2⟩

/-- Scans that come nearer to the end have found an atom. -/
theorem Lockstep.found {r r' : Scan Unit} (hr : Lockstep (Diagnostic.Corresponds K) r r' s t fun _ s' t' =>
      s'.Aligned K {} t' ∧ Nearer s t s' t') :
    Lockstep (Diagnostic.Corresponds K) (do r; return true) (do r'; return true) s t fun b s' t' =>
      s'.Aligned K {} t' ∧ (b = true → Nearer s t s' t') :=
  hr.bind fun _ _ _ h => .of_pure ⟨h.1, fun _ => h.2⟩

theorem not_sign_of_not_operator {c : Char} (hback : c ≠ '\\') (hopen : c ≠ '[') (hc : ¬ isSchemaOperator c = true) :
    c ∉ Place.signs := by
  simp only [Place.signs, List.mem_cons, List.not_mem_nil, or_false]
  rintro (rfl | rfl | rfl)
  · exact hback rfl
  · exact hopen rfl
  · exact hc (by decide)

theorem schemaAtom_lockstep (hpq : InStep K n m p q) :
    AtomsInStep K (n + 1) (m + 1) (schemaAtom o n p) (schemaAtom { o with foldBlanks := false } m q) := by
  intro s t h hw
  unfold schemaAtom
  simp only [lockstep_current_bind, h.current]
  cases hu : s.cursor.current with
  | none => exact .of_pure ⟨h, fun he => absurd he Bool.false_ne_true⟩
  | some u =>
    have hv := h.current.trans hu
    have hnear := nearer_advance hu hv
    have hw' := hnear.within hw
    have hcur : ∀ {c : Char}, u.toAscii? = some c → c.toNat < 0x80 ∧ s.cursor.current = some (unit c) := fun hc =>
      ascii_eq_some.mp (by rw [hu]; exact hc)
    dsimp only
    split
    · next hc => exact ((group_lockstep o.variant hpq h hw' (hcur hc).2).nearer hu hv).found
    · next hc => exact ((schemaEscape_lockstep h hw' (hcur hc).2).nearer hu hv).found
    · next hc =>
      refine (classExpr_succ_lockstep classExpr_lockstep h hw (hcur hc).2).bind fun chars s t hst => ?_
      obtain ⟨h, hn⟩ := hst
      rw [memberFragment_fold, lockstep_write_bind]
      exact .of_pure ⟨h.write _, fun _ => hn⟩
    · next hc =>
      rw [lockstep_advance_bind, lockstep_write_bind, memberFragment_fold]
      exact .of_pure
        ⟨(h.pass (ScanState.unmarked_of_current (hcur hc).2 (by decide) (by decide))).write _, fun _ => hnear⟩
    · next c _ hback hopen _ hc =>
      split
      · exact .of_pure ⟨h, fun he => absurd he Bool.false_ne_true⟩
      · next hoperator =>
        have hsign := not_sign_of_not_operator hback hopen hoperator
        split
        · obtain ⟨hlt, hcur⟩ := hcur hc
          refine Lockstep.found (lockstep_of_run run_copy run_copy ⟨h.copied hcur hlt hsign, ?_⟩)
          rwa [Nearer, ScanState.cursor_copied, ScanState.cursor_copied]
        · refine (plainCharacter_nearer h hu ?_).found
          rw [hc]
          rintro _ ⟨⟩
          exact hsign
    · next hc =>
      refine (plainCharacter_nearer h hu ?_).found
      rw [hc]
      rintro _ ⟨⟩

/-! ## Patterns -/

variable {e : Dialect} {depth k l : Nat}

theorem branch_lockstep
    (hatom : AtomsInStep K n m (atom o (.schema e) n depth) (atom { o with foldBlanks := false } (.schema e) m depth))
    (h : s.Aligned K {} t) (hw : Within n m s t) (hk : Within k l s t) :
    Lockstep (Diagnostic.Corresponds K) (branch o.variant (atom o (.schema e) n depth) k)
      (branch o.variant (atom { o with foldBlanks := false } (.schema e) m depth) l) s t (AlignedIn K 0) := by
  induction k using Nat.strongRecOn generalizing l s t with
  | _ k ih =>
    rcases hk.cases h.current with hu | ⟨u, k, l, rfl, rfl, hu, _⟩
    · exact lockstep_of_run (branch_of_end (.inl hu))
        (branch_of_end (o := { o with foldBlanks := false }) (.inl (h.current.trans hu))) h
    · unfold branch
      refine ((hatom h hw).within hw).bind fun b s' t' hst => ?_
      obtain ⟨⟨h, hn⟩, hw⟩ := hst
      split
      · next hb =>
        have hk := (hn hb).within hk
        refine (((quantifier_lockstep o.variant h hk).within hk).within hw).bind fun _ s t hst => ?_
        obtain ⟨⟨h, hk⟩, hw⟩ := hst
        exact ih k (Nat.lt_succ_self k) h hw hk
      · exact .of_pure h

theorem alternatives_lockstep {p q : Scan Unit} (hpq : InStep K n m p q) (h : s.Aligned K {} t) (hw : Within n m s t)
    (hk : Within k l s t) :
    Lockstep (Diagnostic.Corresponds K) (alternatives p k) (alternatives q l) s t (AlignedIn K 0) := by
  induction k using Nat.strongRecOn generalizing l s t with
  | _ k ih =>
    by_cases hbar : s.cursor.current = some (unit '|')
    · rcases hk.cases h.current with hu | ⟨u, k, l, rfl, rfl, _, hk⟩
      · cases hbar.symm.trans hu
      · unfold alternatives
        rw [lockstep_isAt_bind, h.current, hbar]
        simp only [beq_self_eq_true, if_true, lockstep_copy_bind]
        replace h := h.copied hbar (by decide) (by decide)
        replace hk := hk.copied
        refine (((hpq h hw.advance.copied).within hk).within hw.advance.copied).bind fun _ s t hst => ?_
        obtain ⟨⟨h, hk⟩, hw⟩ := hst
        exact ih k (Nat.lt_succ_self k) h hw hk
    · exact lockstep_of_run (alternatives_of_end hbar) (alternatives_of_end (h.current ▸ hbar)) h

theorem regexp_lockstep
    (hatom : AtomsInStep K n m (atom o (.schema e) n depth) (atom { o with foldBlanks := false } (.schema e) m depth)) :
    InStep K n m (expression o (.schema e) n depth)
      (expression { o with foldBlanks := false } (.schema e) m depth) := by
  intro s t h hw
  refine ((branch_lockstep hatom h hw hw).within hw).bind fun _ s t hst => ?_
  obtain ⟨h, hw⟩ := hst
  exact alternatives_lockstep (fun h hw => branch_lockstep hatom h hw hw) h hw hw

theorem descend_lockstep {pl : Place} (depth : Nat) (h : s.Aligned K pl t) :
    Lockstep (Diagnostic.Corresponds K) (descend depth) (descend depth) s t fun _ s' t' => s'.Aligned K pl t' := by
  unfold Lockstep
  rw [run_descend, run_descend, h.maxDepth]
  split
  · exact .error (h.corresponds _)
  · exact .ok h

theorem atom_lockstep :
    AtomsInStep K n m (atom o (.schema e) n depth) (atom { o with foldBlanks := false } (.schema e) m depth) := by
  induction n using Nat.strongRecOn generalizing m depth with
  | _ n ih =>
    intro s t h hw
    rcases hw.cases h.current with hu | ⟨u, n, m, rfl, rfl, _, _⟩
    · exact lockstep_of_run (atom_of_end (.inl hu)) (atom_of_end (.inl (h.current.trans hu)))
        ⟨h, fun he => absurd he Bool.false_ne_true⟩
    · rw [atom_schema, atom_schema]
      refine schemaAtom_lockstep (fun h hw => ?_) h hw
      refine ((descend_lockstep depth h).within hw).bind fun _ s t hst => ?_
      obtain ⟨h, hw⟩ := hst
      exact regexp_lockstep (ih n (Nat.lt_succ_self n)) h hw

/-- Whole patterns stay in step. -/
theorem pattern_lockstep (o : Options) (e : Dialect) (units : List CodeUnit) {n m : Nat}
    (hw : Within n m (ScanState.ofUnits { o with foldBlanks := true } units)
      (ScanState.ofUnits { o with foldBlanks := false } (stripped units))) :
    Lockstep (Diagnostic.Corresponds (keptOffsets units)) (pattern { o with foldBlanks := true } (.schema e) n)
      (pattern { o with foldBlanks := false } (.schema e) m) (ScanState.ofUnits { o with foldBlanks := true } units)
      (ScanState.ofUnits { o with foldBlanks := false } (stripped units)) (AlignedIn (keptOffsets units) 0) := by
  unfold pattern
  rw [lockstep_advance_bind]
  refine (regexp_lockstep (o := { o with foldBlanks := true }) atom_lockstep (ScanState.aligned_start o units)
    hw.advance).bind fun _ s t h => ?_
  rw [lockstep_current_bind, h.current]
  split
  · exact .of_fail (h.corresponds _)
  · exact .of_pure h

end Scan

end XmlPattern
