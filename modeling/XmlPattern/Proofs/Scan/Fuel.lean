import XmlPattern.Proofs.Scan.SameEnd

/-!
# Fuel that is enough

A scanner with as much fuel as there are advances left ends as it does with one more: every round of its loops takes a
unit, and at the end of the expression it does what it does without fuel.

- `staysOrTakes_atom`: atoms are found by the units they take.
- `pattern_more`: one more for whole expressions.
- `pattern_fuel`: any two that are enough.
-/

namespace XmlPattern

open Grammar

namespace Scan

variable {s t : ScanState} {n : Nat} {o : Options}

/-! ## Quantifiers -/

theorem digits_more (hn : s.cursor.remaining ≤ n) : SameEnd (digits n) (digits (n + 1)) s := by
  induction n generalizing s with
  | zero =>
    have hend := current_of_remaining hn
    exact .of_run (run_digits_of_end _ hend) (run_digits_of_end _ hend)
  | succ n ih =>
    refine .after rfl ?_
    split
    · next c hc =>
      have hlt := ScanState.remaining_advance (ascii_eq_some.mp hc).2
      split
      · refine .after rfl (.after rfl (.after rfl ?_))
        split
        · exact .refl _ _
        · exact (ih (by omega)).before _
      · exact .of_fail_bind
    · exact .refl _ _

theorem bounds_more (hn : s.cursor.remaining ≤ n) : SameEnd (bounds n) (bounds (n + 1)) s := by
  refine (digits_more hn).bind fun lower t ht => .after rfl (.after rfl ?_)
  have hle := ht.remaining_le
  split
  · refine .after run_copy (.after rfl ?_)
    split
    · exact .refl _ _
    · refine (digits_more ?_).before _
      rw [ScanState.cursor_copied]
      exact Nat.le_trans (Cursor.remaining_advance_le _) (Nat.le_trans hle hn)
  · exact .refl _ _

theorem quantifier_more (v : Variant) (hn : s.cursor.remaining ≤ n) :
    SameEnd (quantifier v n) (quantifier v (n + 1)) s := by
  refine .after rfl ?_
  split
  · exact .refl _ _
  · exact .refl _ _
  · exact .refl _ _
  · refine .after run_copy ((bounds_more ?_).before _)
    rw [ScanState.cursor_copied]
    exact Nat.le_trans (Cursor.remaining_advance_le _) hn
  · exact .refl _ _

/-! ## Escapes -/

theorem braced_more (hn : s.cursor.remaining ≤ n) : SameEnd (braced n) (braced (n + 1)) s := by
  induction n generalizing s with
  | zero =>
    have hend := current_of_remaining hn
    exact .of_run (run_braced_of_end _ hend) (run_braced_of_end _ hend)
  | succ n ih =>
    refine .after rfl ?_
    cases hu : s.cursor.current with
    | none => exact .refl _ _
    | some u =>
      have hlt := ScanState.remaining_advance hu
      dsimp only
      split
      · exact .refl _ _
      · exact .after rfl ((ih (by omega)).before _)

theorem propertyEscape_more (negated : Bool) (hn : s.cursor.remaining ≤ n) :
    SameEnd (propertyEscape o n negated) (propertyEscape o (n + 1) negated) s := by
  refine .after rfl (.behind _ fun _ t ht => .after rfl ((braced_more ?_).before _))
  have hadvance := s.cursor.remaining_advance_le
  have hle : t.cursor.remaining ≤ s.cursor.advance.remaining := ht.remaining_le
  exact Nat.le_trans t.cursor.remaining_advance_le (by omega)

theorem escape_more (hn : s.cursor.remaining ≤ n) : SameEnd (escape o n) (escape o (n + 1)) s := by
  refine .after rfl ?_
  split
  · exact .refl _ _
  · exact propertyEscape_more false hn
  · exact propertyEscape_more true hn
  · exact .refl _ _

/-! ## Class expressions -/

/-- An escape has passed a backslash before it needs fuel. -/
theorem member_more (hn : s.cursor.remaining ≤ n + 1) : SameEnd (member o n) (member o (n + 1)) s := by
  refine .after rfl ?_
  split
  · next hc =>
    have hlt := ScanState.remaining_advance (ascii_eq_some.mp hc).2
    exact .after rfl (escape_more (by omega))
  · exact .refl _ _
  · exact .refl _ _
  · exact .refl _ _

theorem afterItem_more
    (hrest : ∀ cs, SameEndWithin n (members o n false cs) (members o (n + 1) false cs)) (cs : CharSet)
    (lower : Member) : SameEndWithin n (afterItem o n cs lower) (afterItem o (n + 1) cs lower) := by
  intro s hn
  refine .after rfl ?_
  split
  · refine .after rfl ?_
    split
    · exact .refl _ _
    · have hle : s.advance.cursor.remaining ≤ n := Nat.le_trans s.cursor.remaining_advance_le hn
      refine .after rfl (.after rfl ?_)
      split
      · exact .refl _ _
      · refine (member_more (by omega)).bind fun upper t ht => ?_
        have hle' := ht.remaining_le
        split
        · split
          · exact .of_fail_bind
          · exact hrest _ (by omega)
        · exact .refl _ _
  · exact hrest _ hn

theorem members_more (first : Bool) (cs : CharSet) :
    SameEndWithin n (members o n first cs) (members o (n + 1) first cs) := by
  induction n generalizing first cs with
  | zero =>
    intro s hn
    have hend := current_of_remaining hn
    exact .of_run (run_members_of_end _ _ _ hend) (run_members_of_end _ _ _ hend)
  | succ n ih =>
    intro s hn
    refine .after rfl ?_
    cases hu : s.cursor.current with
    | none => exact .refl _ _
    | some u =>
      have hlt := ScanState.remaining_advance hu
      dsimp only
      split
      · exact .refl _ _
      · split
        · refine .after rfl ?_
          split
          · exact .refl _ _
          · split
            · exact .of_fail_bind
            · exact .after rfl (ih _ _ (by omega))
        · refine (member_more (by omega)).bind fun lower t ht => ?_
          have hlt' := advances_member hu ht
          exact afterItem_more (ih false) cs lower (by omega)

/-- Where no advance is left the cursor does not move. -/
theorem advance_of_remaining (h : s.cursor.remaining ≤ 0) : s.advance = s := by
  obtain ⟨options, ⟨passed, rest, atEnd, folding, inClass⟩, output, opened, closed, warnings⟩ := s
  cases rest with
  | cons u rest => simp [Cursor.remaining] at h
  | nil =>
    cases atEnd with
    | false => simp [Cursor.remaining] at h
    | true => rfl

/-- Where no advance is left a class expression does not end, whatever the fuel. -/
theorem run_classExpr_of_end (h : s.cursor.remaining ≤ 0) :
    ∃ t, (classExpr o n).run s = (.error (s.diagnostic (.expected ']')), t) := by
  cases n with
  | zero => exact ⟨s, rfl⟩
  | succ n =>
    have hadvance : (s.setInClass true).advance = s.setInClass true := advance_of_remaining h
    have hend : (s.setInClass true).cursor.current = none := current_of_remaining (s := s.setInClass true) h
    have hrest : (classRest o n s.cursor.inClass false).run (s.setInClass true) =
        (.error (s.diagnostic (.expected ']')), s.setInClass true) := by
      refine (run_bind_of_run rfl).trans ?_
      rw [hend]
      exact run_bind_eq_error.mpr (.inl (run_members_of_end _ _ _ hend))
    refine ⟨s.setInClass true, ?_⟩
    rw [run_classExpr, hadvance, hend, if_neg nofun]
    exact hrest

/-- A cursor that has moved on is on a unit, unless no advance is left. -/
theorem remaining_of_advance (h : s.advance.cursor.current = none) : s.advance.cursor.remaining ≤ 0 := by
  have hend : s.advance.cursor.atEnd = true := by
    unfold Cursor.current at h
    split at h
    · next hend => exact hend
    · cases h
  have hrest : s.advance.cursor.rest = [] := Cursor.take_rest_of_end hend
  simp [Cursor.remaining, hend, hrest]

theorem subtraction_more {p q : Scan CharSet} (cs : CharSet)
    (hpq : ∀ {s : ScanState}, s.cursor.remaining ≤ n → (s.cursor.current = none → s.cursor.remaining ≤ 0) →
      SameEnd p q s) :
    SameEndWithin n (subtraction p cs) (subtraction q cs) := by
  intro s hn
  exact .after rfl ((hpq (Nat.le_trans s.cursor.remaining_advance_le hn) remaining_of_advance).before _)

theorem classExpr_more (hn : s.cursor.remaining ≤ n) (hend : s.cursor.current = none → s.cursor.remaining ≤ 0) :
    SameEnd (classExpr o n) (classExpr o (n + 1)) s := by
  induction n generalizing s with
  | zero =>
    obtain ⟨t, ht⟩ := run_classExpr_of_end (o := o) (n := 1) hn
    unfold SameEnd Lockstep
    rw [ht]
    exact .error rfl
  | succ n ih =>
    cases hu : s.cursor.current with
    | none =>
      obtain ⟨t, ht⟩ := run_classExpr_of_end (o := o) (n := n + 1) (hend hu)
      obtain ⟨t', ht'⟩ := run_classExpr_of_end (o := o) (n := n + 1 + 1) (hend hu)
      unfold SameEnd Lockstep
      rw [ht, ht']
      exact .error rfl
    | some u =>
      have hlt : (s.setInClass true).advance.cursor.remaining < s.cursor.remaining :=
        ScanState.remaining_advance (s := s.setInClass true) hu
      have hrest : ∀ negated, SameEndWithin n (classRest o n s.cursor.inClass negated)
          (classRest o (n + 1) s.cursor.inClass negated) := by
        intro negated t hn
        refine .after rfl ?_
        split
        · exact .of_fail_bind
        · refine (members_more true ∅ hn).bind fun listed v hv => .after rfl ?_
          split
          · exact (subtraction_more _ ih (Nat.le_trans hv.remaining_le hn)).before _
          · exact .refl _ _
      refine .after rfl (.after rfl (.after rfl (.after rfl ?_)))
      split
      · exact .after rfl (hrest _ (Nat.le_trans (Cursor.remaining_advance_le _) (by omega)))
      · exact hrest _ (by omega)

/-! ## Back-references -/

theorem referenceNumber_more {u : CodeUnit} (number : Nat) (hu : s.cursor.current = some u)
    (hn : s.cursor.remaining ≤ n) :
    SameEnd (referenceNumber n number) (referenceNumber (n + 1) number) s := by
  induction n generalizing s u number with
  | zero =>
    have hpos := Cursor.remaining_pos hu
    omega
  | succ n ih =>
    have hlt := ScanState.remaining_advance hu
    refine .after rfl (.after rfl ?_)
    split
    · next c hc =>
      refine .after rfl ?_
      split
      · exact ih _ (ascii_eq_some.mp hc).2 (by omega)
      · exact .refl _ _
    · exact .refl _ _

theorem backReference_more {u : CodeUnit} (first : Char) (hu : s.cursor.current = some u)
    (hn : s.cursor.remaining ≤ n) :
    SameEnd (backReference o n first) (backReference o (n + 1) first) s :=
  (referenceNumber_more _ hu hn).before _

/-! ## Schema atoms -/

theorem schemaEscape_more {u : CodeUnit} (hu : s.cursor.current = some u) (hn : s.cursor.remaining ≤ n + 1) :
    SameEnd (schemaEscape o n) (schemaEscape o (n + 1)) s := by
  have hlt := ScanState.remaining_advance hu
  refine .after rfl (.after rfl ?_)
  split
  · next c hc =>
    split
    · exact backReference_more c (ascii_eq_some.mp hc).2 (by omega)
    · exact (escape_more (by omega)).before _
  · exact (escape_more (by omega)).before _

section

variable {p q : Scan Unit} (hpq : SameEndWithin n p q)

include hpq

theorem groupBody_more (close : Scan Unit) : SameEndWithin n (groupBody p close) (groupBody q close) :=
  fun _ hn => (hpq hn).before _

theorem group_more (v : Variant) {u : CodeUnit} (hu : s.cursor.current = some u) (hn : s.cursor.remaining ≤ n + 1) :
    SameEnd (group v p) (group v q) s := by
  have hlt := ScanState.remaining_advance hu
  refine .after rfl (.after rfl ?_)
  split
  · refine .after rfl (.behind _ fun _ t ht => .after rfl (.after rfl (groupBody_more hpq _ ?_)))
    have hle := ht.remaining_le
    have hadvance := s.advance.cursor.remaining_advance_le
    have hadvance' := t.cursor.remaining_advance_le
    exact Nat.le_trans hadvance' (Nat.le_trans hle (Nat.le_trans hadvance (by omega)))
  · exact .after rfl (.after rfl (groupBody_more hpq _ (s := s.advance.openGroup.write _)
      (show s.advance.cursor.remaining ≤ n by omega)))

theorem schemaAtom_more : SameEndWithin (n + 1) (schemaAtom o n p) (schemaAtom o (n + 1) q) := by
  intro s hn
  refine .after rfl ?_
  cases hu : s.cursor.current with
  | none => exact .refl _ _
  | some u =>
    dsimp only
    split
    · exact (group_more hpq o.variant hu hn).before _
    · exact (schemaEscape_more hu hn).before _
    · refine (classExpr_more hn fun he => ?_).before _
      rw [hu] at he
      cases he
    · exact .refl _ _
    · exact .refl _ _
    · exact .refl _ _

end

/-! ## Native atoms -/

theorem remaining_copied_le (s : ScanState) : s.copied.cursor.remaining ≤ s.cursor.remaining := by
  rw [ScanState.cursor_copied]
  exact s.cursor.remaining_advance_le

theorem remaining_copied {u : CodeUnit} (hu : s.cursor.current = some u) :
    s.copied.cursor.remaining < s.cursor.remaining := by
  rw [ScanState.cursor_copied]
  exact ScanState.remaining_advance hu

theorem copyDigits_more : SameEndWithin n (copyDigits n) (copyDigits (n + 1)) := by
  induction n with
  | zero =>
    intro s hn
    refine .of_run rfl ((run_bind_of_run rfl).trans ?_)
    rw [current_of_remaining hn]
    rfl
  | succ n ih =>
    intro s hn
    refine .after rfl ?_
    split
    · next c hc =>
      have hlt := remaining_copied (ascii_eq_some.mp hc).2
      split
      · exact .after run_copy (ih (by omega))
      · exact .refl _ _
    · exact .refl _ _

theorem copyBraced_more : SameEndWithin n (copyBraced n) (copyBraced (n + 1)) := by
  induction n with
  | zero => exact fun s hn => .of_remaining hn rfl
  | succ n ih =>
    intro s hn
    refine .after rfl ?_
    cases hu : s.cursor.current with
    | none => exact .refl _ _
    | some u =>
      dsimp only
      split
      · exact .refl _ _
      · refine .behind _ fun _ t ht => ih ?_
        have hlt := advances_copyCharacter hu ht
        omega

theorem copyOperand_more (letter : Char) : SameEndWithin n (copyOperand n letter) (copyOperand (n + 1) letter) := by
  intro s hn
  unfold copyOperand
  split
  · refine .after rfl ?_
    split
    · exact copyBraced_more hn
    · exact .refl _ _
  · split
    · exact copyDigits_more hn
    · exact .refl _ _

/-- An escape has passed a backslash before it needs fuel. -/
theorem copyEscape_more {u : CodeUnit} (hu : s.cursor.current = some u) (hn : s.cursor.remaining ≤ n + 1) :
    SameEnd (copyEscape n) (copyEscape (n + 1)) s := by
  have hlt := remaining_copied hu
  refine .after run_copy (.after rfl ?_)
  split
  · exact .of_fail_bind
  · refine .after rfl (.behind _ fun _ t ht => ?_)
    have hle := ht.remaining_le
    split
    · exact copyOperand_more _ (by omega)
    · exact .refl _ _

theorem copyClassRest_more (outer : Bool) (inner : Nat) :
    SameEndWithin n (copyClassRest outer n inner) (copyClassRest outer (n + 1) inner) := by
  induction n generalizing inner with
  | zero => exact fun s hn => .of_remaining hn rfl
  | succ n ih =>
    intro s hn
    refine .after rfl ?_
    cases hu : s.cursor.current with
    | none => exact .refl _ _
    | some u =>
      have hlt := remaining_copied hu
      dsimp only
      split
      · refine (copyEscape_more hu hn).bind fun _ t ht => ih _ ?_
        have hlt := (advances_copy hu).bind _ ht
        omega
      · exact .after run_copy (ih _ (by omega))
      · exact .refl _ _
      · exact .after run_copy (ih _ (by omega))
      · refine .behind _ fun _ t ht => ih _ ?_
        have hlt := advances_copyCharacter hu ht
        omega

theorem copyClass_more {u : CodeUnit} (hu : s.cursor.current = some u) (hn : s.cursor.remaining ≤ n + 1) :
    SameEnd (copyClass n) (copyClass (n + 1)) s := by
  have hlt : (s.setInClass true).copied.cursor.remaining < s.cursor.remaining :=
    remaining_copied (s := s.setInClass true) hu
  have hrest : ∀ {t : ScanState}, t.cursor.remaining ≤ n → SameEnd (do
      if ← isAt ']' then
        copy
        copyClassRest s.cursor.inClass n 0
      else copyClassRest s.cursor.inClass n 0) (do
      if ← isAt ']' then
        copy
        copyClassRest s.cursor.inClass (n + 1) 0
      else copyClassRest s.cursor.inClass (n + 1) 0) t := by
    intro t hn
    have hle := remaining_copied_le t
    refine .after rfl ?_
    split
    · exact .after run_copy (copyClassRest_more _ _ (by omega))
    · exact copyClassRest_more _ _ hn
  refine .after rfl (.after rfl (.after run_copy (.after rfl ?_)))
  split
  · have hle := remaining_copied_le (s.setInClass true).copied
    exact .after run_copy (hrest (by omega))
  · exact hrest (by omega)

theorem copyGroupHead_more : SameEndWithin n (copyGroupHead n) (copyGroupHead (n + 1)) := by
  induction n with
  | zero => exact fun s hn => .of_remaining hn rfl
  | succ n ih =>
    intro s hn
    refine .after rfl ?_
    cases hu : s.cursor.current with
    | none => exact .refl _ _
    | some u =>
      have hmore : SameEnd (do copyCharacter; copyGroupHead n) (do copyCharacter; copyGroupHead (n + 1)) s := by
        refine .behind _ fun _ t ht => ih ?_
        have hlt := advances_copyCharacter hu ht
        omega
      dsimp only
      split
      · exact .refl _ _
      · exact .refl _ _
      · exact .refl _ _
      · exact .refl _ _
      · exact .refl _ _
      · refine .after rfl ?_
        split
        · exact .refl _ _
        · exact hmore
      · exact hmore

section

variable {p q : Scan Unit} (hpq : SameEndWithin n p q)

include hpq

theorem copyGroup_more {u : CodeUnit} (hu : s.cursor.current = some u) (hn : s.cursor.remaining ≤ n + 1) :
    SameEnd (copyGroup n p) (copyGroup (n + 1) q) s := by
  have hlt := remaining_copied hu
  refine .after run_copy (.after rfl ?_)
  split
  · have hle := remaining_copied_le s.copied
    refine .after run_copy ((copyGroupHead_more (by omega)).bind fun b t ht => ?_)
    have hle' := ht.remaining_le
    split
    · exact groupBody_more hpq _ (by omega)
    · exact .refl _ _
  · exact .after rfl (groupBody_more hpq _ (s := s.copied.openGroup) (show s.copied.cursor.remaining ≤ n by omega))

theorem nativeAtom_more : SameEndWithin (n + 1) (nativeAtom n p) (nativeAtom (n + 1) q) := by
  intro s hn
  refine .after rfl ?_
  cases hu : s.cursor.current with
  | none => exact .refl _ _
  | some u =>
    dsimp only
    split
    · exact (copyGroup_more hpq hu hn).before _
    · exact (copyClass_more hu hn).before _
    · exact (copyEscape_more hu hn).before _
    · exact .refl _ _
    · exact .refl _ _

end

/-! ## Patterns -/

/-- A scanner of atoms finds none at the end, and has taken a unit when it finds one. -/
structure FindsByUnits (atom : Scan Bool) : Prop where
  atEnd {s : ScanState} : s.cursor.current = none → atom.run s = (.ok false, s)
  advances {s t : ScanState} : atom.Finds s true t → t.cursor.remaining < s.cursor.remaining

theorem branch_more (v : Variant) {p q : Scan Bool} (hp : FindsByUnits p) (hq : FindsByUnits q) {m : Nat}
    (hpq : SameEndWithin m p q) (hn : s.cursor.remaining ≤ n) (hm : s.cursor.remaining ≤ m) :
    SameEnd (branch v p n) (branch v q (n + 1)) s := by
  induction n generalizing s with
  | zero =>
    exact .of_run rfl ((run_bind_of_run (hq.atEnd (current_of_remaining hn))).trans rfl)
  | succ n ih =>
    refine (hpq hm).bind fun found t ht => ?_
    cases found with
    | false => exact .refl _ _
    | true =>
      have hlt := hp.advances ht
      refine (quantifier_more v (by omega)).bind fun _ u hu => ?_
      have hle := hu.remaining_le
      exact ih (by omega) (by omega)

theorem alternatives_more {p q : Scan Unit} {m : Nat} (hpq : SameEndWithin m p q) (hn : s.cursor.remaining ≤ n)
    (hm : s.cursor.remaining ≤ m) : SameEnd (alternatives p n) (alternatives q (n + 1)) s := by
  induction n generalizing s with
  | zero =>
    refine .of_run rfl ((run_bind_of_run rfl).trans ?_)
    rw [current_of_remaining hn]
    rfl
  | succ n ih =>
    refine .after rfl ?_
    split
    · next hc =>
      have hlt := remaining_copied (beq_iff_eq.mp hc)
      refine .after run_copy ((hpq (by omega)).bind fun _ t ht => ?_)
      have hle := ht.remaining_le
      exact ih (by omega) (by omega)
    · exact .refl _ _

theorem regexp_more (v : Variant) {p q : Scan Bool} (hp : FindsByUnits p) (hq : FindsByUnits q)
    (hpq : SameEndWithin n p q) : SameEndWithin n (regexp v p n) (regexp v q (n + 1)) := by
  intro s hn
  refine (branch_more v hp hq hpq hn hn).bind fun _ t ht => ?_
  have hle := Nat.le_trans ht.remaining_le hn
  exact alternatives_more (fun u hu => branch_more v hp hq hpq hu hu) hle hle

/-- From a state a scanner finds nothing and leaves everything as it is, or takes a unit and finds something. -/
def StaysOrTakes (p : Scan Bool) (s : ScanState) : Prop :=
  p.run s = (.ok false, s) ∨ ∃ q : Scan Unit, Advances q s ∧ p.run s = (do q; return true : Scan Bool).run s

namespace StaysOrTakes

variable {p : Scan Bool}

theorem of_run_eq {p' : Scan Bool} (h : p.run s = p'.run s) (h' : StaysOrTakes p' s) : StaysOrTakes p s := by
  rwa [StaysOrTakes, h]

theorem of_takes {q : Scan Unit} (hq : Advances q s) : StaysOrTakes (do q; return true) s := .inr ⟨q, hq, rfl⟩

theorem of_takes_bind {α : Type} {q : Scan α} {f : α → Scan Unit} (hq : Advances q s) :
    StaysOrTakes (do f (← q); return true) s := .inr ⟨q >>= f, hq.bind f, (run_bind_assoc s).symm⟩

theorem eq_of_false (h : StaysOrTakes p s) (hf : p.Finds s false t) : t = s := by
  rcases h with h | ⟨q, _, h⟩
  · exact (Prod.mk.inj (h.symm.trans hf)).2.symm
  · obtain ⟨_, _, _, hf⟩ := finds_bind.mp (h.symm.trans hf)
    cases (finds_pure.mp hf).1

theorem advances_of_true (h : StaysOrTakes p s) (hf : p.Finds s true t) : t.cursor.remaining < s.cursor.remaining := by
  rcases h with h | ⟨q, hq, h⟩
  · cases h.symm.trans hf
  · exact hq.bind _ (h.symm.trans hf)

end StaysOrTakes

theorem staysOrTakes_schemaAtom (nested : Scan Unit) (s : ScanState) : StaysOrTakes (schemaAtom o n nested) s := by
  refine .of_run_eq (run_bind_of_run rfl) ?_
  cases hu : s.cursor.current with
  | none => exact .inl rfl
  | some u =>
    dsimp only
    split
    · exact .of_takes ((advances_advance hu).bind _)
    · exact .of_takes ((advances_advance hu).bind _)
    · exact .of_takes_bind (advances_classExpr hu)
    · exact .of_takes_bind (advances_advance hu)
    · split
      · exact .inl rfl
      · split
        · exact .of_takes (advances_copy hu)
        · exact .of_takes (advances_plainCharacter hu)
    · exact .of_takes (advances_plainCharacter hu)

theorem staysOrTakes_nativeAtom (nested : Scan Unit) (s : ScanState) : StaysOrTakes (nativeAtom n nested) s := by
  refine .of_run_eq (run_bind_of_run rfl) ?_
  cases hu : s.cursor.current with
  | none => exact .inl rfl
  | some u =>
    have hclass : Advances (copyClass n) s := by
      intro a t h
      rw [copyClass, finds_inClass_bind, finds_setInClass_bind] at h
      exact (advances_copy (s := s.setInClass true) hu).bind _ h
    dsimp only
    split
    · exact .of_takes ((advances_copy hu).bind _)
    · exact .of_takes hclass
    · exact .of_takes ((advances_copy hu).bind _)
    · split
      · exact .inl rfl
      · split
        · exact .of_takes (advances_copy hu)
        · exact .of_takes (advances_copyCharacter hu)
    · exact .of_takes (advances_copyCharacter hu)

theorem staysOrTakes_atom (atoms : Atoms) (depth : Nat) (s : ScanState) : StaysOrTakes (atom o atoms n depth) s := by
  cases n with
  | zero => exact .inl rfl
  | succ n =>
    cases atoms with
    | schema d => exact staysOrTakes_schemaAtom _ s
    | native => exact staysOrTakes_nativeAtom _ s

theorem atom_atEnd (atoms : Atoms) (depth : Nat) (h : s.cursor.current = none) :
    (atom o atoms n depth).run s = (.ok false, s) := by
  cases n with
  | zero => rfl
  | succ n =>
    cases atoms with
    | schema d =>
      refine (run_bind_of_run rfl).trans ?_
      rw [h]
      rfl
    | native =>
      refine (run_bind_of_run rfl).trans ?_
      rw [h]
      rfl

theorem atom_finds (atoms : Atoms) (depth : Nat) : FindsByUnits (atom o atoms n depth) :=
  ⟨atom_atEnd atoms depth, (staysOrTakes_atom atoms depth _).advances_of_true⟩

theorem atom_more (atoms : Atoms) (depth : Nat) :
    SameEndWithin n (atom o atoms n depth) (atom o atoms (n + 1) depth) := by
  induction n generalizing depth with
  | zero =>
    intro s hn
    exact .of_run rfl ((atom_finds atoms depth).atEnd (current_of_remaining hn))
  | succ n ih =>
    have hnested : SameEndWithin n (enclosed o atoms n depth) (enclosed o atoms (n + 1) depth) := by
      intro s hn
      refine .behind _ fun _ t ht => ?_
      exact regexp_more _ (atom_finds atoms _) (atom_finds atoms _) (ih _) (Nat.le_trans ht.remaining_le hn)
    cases atoms with
    | schema d => exact schemaAtom_more hnested
    | native => exact nativeAtom_more hnested

theorem pattern_more (atoms : Atoms) : SameEndWithin n (pattern o atoms n) (pattern o atoms (n + 1)) := by
  intro s hn
  refine .after rfl ((regexp_more _ (atom_finds atoms 0) (atom_finds atoms 0) (atom_more atoms 0) ?_).before _)
  exact Nat.le_trans s.cursor.remaining_advance_le hn

/-- Fuel that is enough is as good as any other. -/
theorem pattern_fuel (atoms : Atoms) {m : Nat} (hnm : n ≤ m) (hn : s.cursor.remaining ≤ n) :
    SameEnd (pattern o atoms n) (pattern o atoms m) s := by
  obtain ⟨k, rfl⟩ := Nat.exists_eq_add_of_le hnm
  induction k with
  | zero => exact .refl _ _
  | succ k ih => exact (ih (by omega)).trans (pattern_more atoms (by omega))

end Scan

end XmlPattern
