import XmlPattern.Proofs.Scan.Classes
import XmlPattern.Proofs.Scan.Ensures

/-!
# What every scan keeps

An `Invariant` is a property of the cursor, indexed by how many groups are open around it, with what it takes to carry
it past a unit, a character, a name in braces and an opening parenthesis. Every scanner of the grammar then keeps it,
whatever the atoms are and however much fuel there is.

- `keeps_classExpr`, `keeps_schemaAtom`, `keeps_nativeAtom`: classes and atoms keep an invariant.
- `keeps_pattern`: so do whole expressions.
-/

namespace XmlPattern

open Grammar

namespace Scan

variable {α β : Type}

/--
A property of where a scan stands, under its options and with so many groups open, that a scan keeps unless it fails,
and then for a cause of one kind.
-/
structure Invariant (R : Reason → Prop) (I : Nat → Options → Cursor → Prop) : Prop where
  inClass {d : Nat} {o : Options} {c : Cursor} (b : Bool) : I d o c → I d o { c with inClass := b }
  advance {d : Nat} {o : Options} {c : Cursor} :
    I d o c → (∀ u ∈ c.current, u.isSurrogate = false) → I d o c.advance
  character {d : Nat} {s : ScanState} :
    I d s.options s.cursor → Ensures R character s fun _ t => I d t.options t.cursor.advance
  braced {d : Nat} {s : ScanState} (fuel : Nat) : I d s.options s.cursor → Ensures R (braced fuel) s fun _ t =>
    t.cursor.current = some (unit '\x7d') ∧ I d t.options t.cursor
  enter {d : Nat} {o : Options} {c : Cursor} : I d o c → c.current = some (unit '(') → I (d + 1) o c.advance
  leave {d : Nat} {o : Options} {c : Cursor} : I (d + 1) o c → I d o c
  descend {d : Nat} {s : ScanState} : I (d + 1) s.options s.cursor → Ensures R (descend d) s fun _ t => t = s
  cause {r : Reason} : r ∉ [.nestingTooDeep, .invalidSurrogatePair] → R r

variable {R : Reason → Prop} {I : Nat → Options → Cursor → Prop}

/-- The property holds of a state. -/
abbrev Holds (I : Nat → Options → Cursor → Prop) (d : Nat) (s : ScanState) : Prop := I d s.options s.cursor

/-- The scanner keeps the property while so many groups are open. -/
def Keeps (R : Reason → Prop) (I : Nat → Options → Cursor → Prop) (d : Nat) (p : Scan α) : Prop :=
  ∀ ⦃s⦄, Holds I d s → Ensures R p s fun _ t => Holds I d t

/-- The scanner leaves the cursor where it is. -/
def Stays (R : Reason → Prop) (p : Scan α) : Prop :=
  ∀ s, Ensures R p s fun _ t => t.options = s.options ∧ t.cursor = s.cursor

variable {s t : ScanState} {d : Nat} {o : Options} {n : Nat} (hI : Invariant R I)

include hI

namespace Invariant

theorem setInClass (b : Bool) (h : Holds I d s) : Holds I d (s.setInClass b) := hI.inClass b h

/-- A unit that stands for itself may be passed. -/
theorem pass {c : Char} (h : Holds I d s) (hc : s.cursor.current = some (unit c)) (hlt : c.toNat < 0x10000) :
    Holds I d s.advance := by
  refine hI.advance h fun u hu => ?_
  rw [hc] at hu
  obtain rfl := Option.some.inj hu
  exact CodeUnit.isSurrogate_ofBasic hlt

theorem copied {c : Char} (h : Holds I d s) (hc : s.cursor.current = some (unit c)) (hlt : c.toNat < 0x10000) :
    Holds I d s.copied := by
  rw [ScanState.copied_of_current hc hlt]
  exact hI.pass h hc hlt

/-- A unit of ASCII may be passed. -/
theorem passAscii {c : Char} (h : Holds I d s) (hc : s.cursor.current.bind CodeUnit.toAscii? = some c) :
    Holds I d s.advance := by
  obtain ⟨hlt, hc⟩ := ascii_eq_some.mp hc
  exact hI.pass h hc (by omega)

theorem copiedAscii {c : Char} (h : Holds I d s) (hc : s.cursor.current.bind CodeUnit.toAscii? = some c) :
    Holds I d s.copied := by
  obtain ⟨hlt, hc⟩ := ascii_eq_some.mp hc
  exact hI.copied h hc (by omega)

end Invariant

theorem keeps_expect (c : Char) (h : Holds I d s) :
    Ensures R (expect c) s fun _ t => Holds I d t ∧ t.cursor.current = some (unit c) := by
  refine (Ensures.expect (hI.cause (by simp))).mono fun _ t ht => ?_
  obtain ⟨rfl, hc⟩ := ht
  exact ⟨h, hc⟩

/-! ## Quantifiers -/

theorem keeps_digits : Keeps R I d (digits n) := by
  induction n with
  | zero => exact fun s _ => .of_fail (hI.cause (by simp))
  | succ n ih =>
    intro s h
    simp only [digits, ensures_ascii_bind]
    split
    · next c hc =>
      have hnext := hI.passAscii h hc
      split
      · simp only [ensures_advance_bind, ensures_isAt_bind]
        split
        · exact .of_pure hnext
        · exact (ih hnext).bind fun _ _ h => .of_pure h
      · exact .of_fail_bind (hI.cause (by simp))
    · exact .of_fail (hI.cause (by simp))

theorem keeps_bounds : Keeps R I d (bounds n) := by
  intro s h
  unfold bounds
  refine (keeps_digits hI h).bind fun lower s h => ?_
  simp only [ensures_write_bind, ensures_isAt_bind]
  split
  · next hc =>
    simp only [ensures_copy_bind, ensures_isAt_bind]
    have hnext : Holds I d (s.write (.verbatim (boundText lower))).copied :=
      hI.copied (s := s.write (.verbatim (boundText lower))) h (beq_iff_eq.mp hc) (by decide)
    split
    · exact .of_pure hnext
    · refine (keeps_digits hI hnext).bind fun upper s h => ?_
      rw [ensures_write_bind]
      split
      · exact .of_fail (hI.cause (by simp))
      · exact .of_pure h
  · exact .of_pure h

theorem keeps_lazyMark (v : Variant) : Keeps R I d (lazyMark v) := by
  intro s h
  unfold lazyMark
  rw [ensures_isAt_bind]
  split
  · next hc =>
    rw [Bool.and_eq_true, beq_iff_eq] at hc
    exact .of_run run_copy (hI.copied h hc.2 (by decide))
  · exact .of_pure h

theorem keeps_quantifier (v : Variant) : Keeps R I d (quantifier v n) := by
  intro s h
  simp only [quantifier, ensures_ascii_bind]
  split
  · next hc => exact ensures_copy_bind.mpr (keeps_lazyMark hI v (hI.copiedAscii h hc))
  · next hc => exact ensures_copy_bind.mpr (keeps_lazyMark hI v (hI.copiedAscii h hc))
  · next hc => exact ensures_copy_bind.mpr (keeps_lazyMark hI v (hI.copiedAscii h hc))
  · next hc =>
    rw [ensures_copy_bind]
    refine (keeps_bounds hI (hI.copiedAscii h hc)).bind fun _ s h => ?_
    refine (keeps_expect hI '\x7d' h).bind fun _ s h => ?_
    exact ensures_copy_bind.mpr (keeps_lazyMark hI v (hI.copied h.1 h.2 (by decide)))
  · exact .of_pure h

/-! ## Escapes -/

theorem stays_namedChars (v : Variant) (name : List Char) : Stays R (namedChars v name) := by
  intro s
  unfold namedChars
  split
  · unfold blockChars
    split
    · exact .of_pure ⟨rfl, rfl⟩
    · split
      · exact ensures_warn_bind.mpr (.of_pure ⟨rfl, rfl⟩)
      · exact .of_fail_bind (hI.cause (by simp))
  · split
    · exact .of_pure ⟨rfl, rfl⟩
    · exact .of_fail (hI.cause (by simp))

/-- A category or block escape keeps the property from its letter on. -/
theorem keeps_propertyEscape {c : Char} (negated : Bool) (h : Holds I d s)
    (hc : s.cursor.current.bind CodeUnit.toAscii? = some c) :
    Ensures R (propertyEscape o n negated) s fun _ t => Holds I d t := by
  unfold propertyEscape
  rw [ensures_advance_bind]
  refine (keeps_expect hI _ (hI.passAscii h hc)).bind fun _ s h => ?_
  rw [ensures_advance_bind]
  refine (hI.braced n (hI.pass h.1 h.2 (by decide))).bind fun name s h => ?_
  refine (stays_namedChars hI o.variant _ s).bind fun chars t ht => ?_
  rw [ensures_advance_bind]
  refine .of_pure (hI.pass (c := '\x7d') ?_ ?_ (by decide))
  · rw [Holds, ht.1, ht.2]
    exact h.2
  · rw [ht.2]
    exact h.1

theorem keeps_escape : Keeps R I d (escape o n) := by
  intro s h
  simp only [escape, ensures_ascii_bind]
  split
  · exact .of_fail (hI.cause (by simp))
  · next hc => exact keeps_propertyEscape hI false h hc
  · next hc => exact keeps_propertyEscape hI true h hc
  · next hc =>
    split
    · exact ensures_advance_bind.mpr (.of_pure (hI.passAscii h hc))
    · exact ensures_advance_bind.mpr (.of_pure (hI.passAscii h hc))
    · exact .of_fail (hI.cause (by simp))

/-! ## Class expressions -/

theorem keeps_member : Keeps R I d (member o n) := by
  intro s h
  simp only [member, ensures_ascii_bind]
  split
  · next hc => exact ensures_advance_bind.mpr (keeps_escape hI (hI.passAscii h hc))
  · exact .of_fail (hI.cause (by simp))
  · exact .of_fail (hI.cause (by simp))
  · refine (hI.character h).bind fun c t h => ?_
    exact ensures_advance_bind.mpr (.of_pure h)

/-- What a list of members ensures. -/
def KeepsToEnd (R : Reason → Prop) (I : Nat → Options → Cursor → Prop) (d : Nat) (p : Scan CharSet) : Prop :=
  ∀ ⦃s⦄, Holds I d s → Ensures R p s fun _ t => EndsMembers t ∧ Holds I d t

theorem keeps_afterItem (hrest : ∀ cs, KeepsToEnd R I d (members o n false cs)) (cs : CharSet) (lower : Member) :
    KeepsToEnd R I d (afterItem o n cs lower) := by
  intro s h
  unfold afterItem
  rw [ensures_isAt_bind]
  split
  · next hc =>
    have hhyphen := beq_iff_eq.mp hc
    simp only [ensures_next_bind]
    split
    · next hnext => exact .of_pure ⟨.inr ⟨hhyphen, beq_iff_eq.mp hnext⟩, h⟩
    · have hnext := hI.pass h hhyphen (by decide)
      simp only [ensures_advance_bind, ensures_isAt_bind]
      split
      · next hc => exact .of_pure ⟨.inl (beq_iff_eq.mp hc), hnext⟩
      · refine (keeps_member hI hnext).bind fun upper s h => ?_
        split
        · split
          · exact .of_fail_bind (hI.cause (by simp))
          · exact hrest _ h
        · exact .of_fail (hI.cause (by simp))
  · exact hrest _ h

theorem keeps_members (first : Bool) (cs : CharSet) : KeepsToEnd R I d (members o n first cs) := by
  induction n generalizing first cs with
  | zero => exact fun s _ => .of_fail (hI.cause (by simp))
  | succ n ih =>
    intro s h
    simp only [members, ensures_current_bind]
    cases hu : s.cursor.current with
    | none => exact .of_fail (hI.cause (by simp))
    | some u =>
      dsimp only
      split
      · next hc => exact .of_pure ⟨.inl (by rw [hu, beq_iff_eq.mp hc]), h⟩
      · split
        · next hc =>
          rw [beq_iff_eq.mp hc] at hu
          rw [ensures_next_bind]
          split
          · next hnext =>
            rw [Bool.and_eq_true, beq_iff_eq] at hnext
            exact .of_pure ⟨.inr ⟨hu, hnext.2⟩, h⟩
          · split
            · exact .of_fail_bind (hI.cause (by simp))
            · exact ensures_advance_bind.mpr (ih _ _ (hI.pass h hu (by decide)))
        · exact (keeps_member hI h).bind fun lower t h => keeps_afterItem hI (ih false) cs lower h

/-- A class expression keeps the property from its bracket on. -/
def KeepsFromBracket (R : Reason → Prop) (I : Nat → Options → Cursor → Prop) (d : Nat) (p : Scan CharSet) : Prop :=
  ∀ ⦃s⦄, Holds I d s → s.cursor.current = some (unit '[') → Ensures R p s fun _ t => Holds I d t

theorem keeps_subtraction {p : Scan CharSet} (hp : KeepsFromBracket R I d p) (cs : CharSet) (h : Holds I d s)
    (hc : s.cursor.current = some (unit '-')) (hnext : s.cursor.next = some (unit '[')) :
    Ensures R (subtraction p cs) s fun _ t => Holds I d t ∧ t.cursor.current = some (unit ']') := by
  unfold subtraction
  rw [ensures_advance_bind]
  have hopen : s.advance.cursor.current = some (unit '[') := Cursor.current_advance_of_next hnext (by decide)
  refine (hp (hI.pass h hc (by decide)) hopen).bind fun taken s h => ?_
  exact (keeps_expect hI ']' h).bind fun _ _ h => .of_pure h

theorem keeps_classRest (hclass : KeepsFromBracket R I d (classExpr o n)) (outer negated : Bool) :
    Keeps R I d (classRest o n outer negated) := by
  intro s h
  simp only [classRest, ensures_isAt_bind]
  split
  · exact .of_fail_bind (hI.cause (by simp))
  · refine (keeps_members hI true ∅ h).bind fun listed s h => ?_
    obtain ⟨hend, h⟩ := h
    have hleave : ∀ {t : ScanState} (chars : CharSet), Holds I d t → t.cursor.current = some (unit ']') →
        Ensures R (do setInClass outer; advance; return chars) t fun _ u => Holds I d u := by
      intro t chars h hc
      rw [ensures_setInClass_bind, ensures_advance_bind]
      exact .of_pure (hI.pass (hI.setInClass outer h) hc (by decide))
    rw [ensures_isAt_bind]
    split
    · next hc =>
      obtain ⟨hc, hnext⟩ := hend.resolve_left (by rw [beq_iff_eq.mp hc]; decide)
      exact (keeps_subtraction hI hclass _ h hc hnext).bind fun chars s h => hleave chars h.1 h.2
    · next hc =>
      rw [ensures_pure_bind]
      exact hleave _ h (hend.resolve_right fun he => hc (beq_iff_eq.mpr he.1))

theorem keeps_classExpr : KeepsFromBracket R I d (classExpr o n) := by
  induction n with
  | zero => exact fun s _ _ => .of_fail (hI.cause (by simp))
  | succ n ih =>
    intro s h hc
    have hnext : Holds I d (s.setInClass true).advance := hI.pass (hI.setInClass true h) hc (by decide)
    unfold Ensures
    rw [run_classExpr]
    by_cases hcaret : (s.setInClass true).advance.cursor.current = some (unit '^')
    · rw [if_pos hcaret]
      exact keeps_classRest hI ih _ _ (hI.pass hnext hcaret (by decide))
    · rw [if_neg hcaret]
      exact keeps_classRest hI ih _ _ hnext

/-! ## Back-references -/

theorem keeps_referenceNumber {c : Char} (number : Nat) (h : Holds I d s)
    (hc : s.cursor.current.bind CodeUnit.toAscii? = some c) :
    Ensures R (referenceNumber n number) s fun _ t => Holds I d t := by
  induction n generalizing s c number with
  | zero => exact .of_pure h
  | succ n ih =>
    have hnext := hI.passAscii h hc
    simp only [referenceNumber, ensures_advance_bind, ensures_ascii_bind]
    split
    · next hc =>
      rw [ensures_opened_bind]
      split
      · exact ih _ hnext hc
      · exact .of_pure hnext
    · exact .of_pure hnext

theorem keeps_backReference {c : Char} (h : Holds I d s) (hc : s.cursor.current.bind CodeUnit.toAscii? = some c) :
    Ensures R (backReference o n c) s fun _ t => Holds I d t := by
  unfold backReference
  refine (keeps_referenceNumber hI _ h hc).bind fun number s h => ?_
  rw [ensures_isClosed_bind]
  split
  · exact .of_run rfl h
  · rw [ensures_opened_bind]
    exact .of_fail_bind (hI.cause (by simp))

/-! ## Schema atoms -/

theorem keeps_schemaEscape (h : Holds I d s) (hc : s.cursor.current = some (unit '\\')) :
    Ensures R (schemaEscape o n) s fun _ t => Holds I d t := by
  have hnext := hI.pass h hc (by decide)
  have hwrite : Ensures R (do write (memberFragment o (← escape o n))) s.advance fun _ t => Holds I d t :=
    (keeps_escape hI hnext).bind fun x t h => .of_run rfl h
  simp only [schemaEscape, ensures_advance_bind, ensures_ascii_bind]
  split
  · next hc =>
    split
    · exact keeps_backReference hI hnext hc
    · exact hwrite
  · exact hwrite

theorem keeps_plainCharacter : Keeps R I d (plainCharacter o) := by
  intro s h
  refine (hI.character h).bind fun c t h => ?_
  exact ensures_advance_bind.mpr (.of_run rfl h)

variable {nested : Scan Unit} (hin : Keeps R I (d + 1) nested)

include hin

theorem keeps_groupBody {close : Scan Unit} (hclose : Stays R close) (h : Holds I (d + 1) s) :
    Ensures R (groupBody nested close) s fun _ t => Holds I d t := by
  unfold groupBody
  refine (hin h).bind fun _ s h => ?_
  refine (keeps_expect hI ')' h).bind fun _ s h => ?_
  refine (hclose s).bind fun _ t ht => ?_
  have hleft : Holds I d t := by
    rw [Holds, ht.1, ht.2]
    exact hI.leave h.1
  exact .of_run run_copy (hI.copied hleft (by rw [ht.2]; exact h.2) (by decide))

theorem keeps_group (v : Variant) (h : Holds I d s) (hc : s.cursor.current = some (unit '(')) :
    Ensures R (group v nested) s fun _ t => Holds I d t := by
  have henter : Holds I (d + 1) s.advance := hI.enter h hc
  simp only [group, ensures_advance_bind, ensures_isAt_bind]
  split
  · next hq =>
    rw [Bool.and_eq_true, beq_iff_eq] at hq
    rw [ensures_advance_bind]
    refine (keeps_expect hI ':' (hI.pass henter hq.2 (by decide))).bind fun _ s h => ?_
    exact keeps_groupBody hI hin (fun _ => .of_pure ⟨rfl, rfl⟩) (s := s.advance.write _) (hI.pass h.1 h.2 (by decide))
  · exact keeps_groupBody hI hin (fun _ => .of_run rfl ⟨rfl, rfl⟩) (s := s.advance.openGroup.write _) henter

theorem keeps_schemaAtom : Keeps R I d (schemaAtom o n nested) := by
  intro s h
  simp only [schemaAtom, ensures_current_bind]
  cases hu : s.cursor.current with
  | none => exact .of_pure h
  | some u =>
    dsimp only
    split
    · next hc => exact .found (keeps_group hI hin o.variant h (current_of_ascii hu hc))
    · next hc => exact .found (keeps_schemaEscape hI h (current_of_ascii hu hc))
    · next hc =>
      refine (keeps_classExpr hI h (current_of_ascii hu hc)).bind fun chars s h => ?_
      exact ensures_write_bind.mpr (.of_pure h)
    · next hc =>
      exact ensures_advance_bind.mpr
        (ensures_write_bind.mpr (.of_pure (hI.pass h (current_of_ascii hu hc) (by decide))))
    · next hc =>
      split
      · exact .of_pure h
      · split
        · exact .found (.of_run run_copy (hI.copiedAscii h (by rw [hu]; exact hc)))
        · exact .found (keeps_plainCharacter hI h)
    · exact .found (keeps_plainCharacter hI h)

omit hin

/-! ## Native atoms -/

theorem keeps_copyCharacter : Keeps R I d copyCharacter := by
  intro s h
  refine (hI.character h).bind fun c t h => ?_
  exact ensures_write_bind.mpr (.of_run rfl h)

theorem keeps_copyDigits : Keeps R I d (copyDigits n) := by
  induction n with
  | zero => exact fun s h => .of_pure h
  | succ n ih =>
    intro s h
    simp only [copyDigits, ensures_ascii_bind]
    split
    · next hc =>
      split
      · exact ensures_copy_bind.mpr (ih (hI.copiedAscii h hc))
      · exact .of_pure h
    · exact .of_pure h

theorem keeps_copyBraced : Keeps R I d (copyBraced n) := by
  induction n with
  | zero => exact fun s _ => .of_fail (hI.cause (by simp))
  | succ n ih =>
    intro s h
    simp only [copyBraced, ensures_current_bind]
    cases hu : s.cursor.current with
    | none => exact .of_fail (hI.cause (by simp))
    | some u =>
      dsimp only
      split
      · next hc => exact .of_run run_copy (hI.copied h (c := '\x7d') (by rw [hu, beq_iff_eq.mp hc]) (by decide))
      · exact (keeps_copyCharacter hI h).bind fun _ _ h => ih h

theorem keeps_copyCharacters (count : Nat) : Keeps R I d (copyCharacters count) := by
  induction count with
  | zero => exact fun s h => .of_pure h
  | succ n ih =>
    intro s h
    simp only [copyCharacters, ensures_current_bind]
    split
    · exact .of_fail_bind (hI.cause (by simp))
    · exact (keeps_copyCharacter hI h).bind fun _ _ h => ih h

theorem keeps_copyOperand (letter : Char) : Keeps R I d (copyOperand n letter) := by
  intro s h
  unfold copyOperand
  split
  · rw [ensures_isAt_bind]
    split
    · exact keeps_copyBraced hI h
    · exact keeps_copyCharacters hI _ h
  · split
    · exact keeps_copyDigits hI h
    · exact .of_pure h

theorem keeps_copyEscape (h : Holds I d s) (hc : s.cursor.current = some (unit '\\')) :
    Ensures R (copyEscape n) s fun _ t => Holds I d t := by
  have hnext : Holds I d s.copied := hI.copied h hc (by decide)
  simp only [copyEscape, ensures_copy_bind, ensures_current_bind]
  split
  · exact .of_fail_bind (hI.cause (by simp))
  · rw [ensures_ascii_bind]
    refine (keeps_copyCharacter hI hnext).bind fun _ t h => ?_
    split
    · exact keeps_copyOperand hI _ h
    · exact .of_pure h

theorem keeps_copyClassRest (outer : Bool) (inner : Nat) : Keeps R I d (copyClassRest outer n inner) := by
  induction n generalizing inner with
  | zero => exact fun s _ => .of_fail (hI.cause (by simp))
  | succ n ih =>
    intro s h
    simp only [copyClassRest, ensures_current_bind]
    cases hu : s.cursor.current with
    | none => exact .of_fail (hI.cause (by simp))
    | some u =>
      dsimp only
      split
      · next hc => exact (keeps_copyEscape hI h (current_of_ascii hu hc)).bind fun _ _ h => ih _ h
      · next hc => exact ensures_copy_bind.mpr (ih _ (hI.copied h (current_of_ascii hu hc) (by decide)))
      · next hc =>
        rw [ensures_setInClass_bind]
        exact .of_run run_copy (hI.copied (hI.setInClass outer h) (current_of_ascii hu hc) (by decide))
      · next hc => exact ensures_copy_bind.mpr (ih _ (hI.copied h (current_of_ascii hu hc) (by decide)))
      · exact (keeps_copyCharacter hI h).bind fun _ _ h => ih _ h

theorem keeps_copyClass (h : Holds I d s) (hc : s.cursor.current = some (unit '[')) :
    Ensures R (copyClass n) s fun _ t => Holds I d t := by
  have hopened : Holds I d (s.setInClass true).copied := hI.copied (hI.setInClass true h) hc (by decide)
  have hrest : ∀ {t : ScanState}, Holds I d t → Ensures R (do
      if ← isAt ']' then
        copy
        copyClassRest s.cursor.inClass n 0
      else copyClassRest s.cursor.inClass n 0) t fun _ u => Holds I d u := by
    intro t h
    rw [ensures_isAt_bind]
    split
    · next hc =>
      rw [ensures_copy_bind]
      exact keeps_copyClassRest hI _ _ (hI.copied h (beq_iff_eq.mp hc) (by decide))
    · exact keeps_copyClassRest hI _ _ h
  unfold copyClass
  rw [ensures_inClass_bind, ensures_setInClass_bind, ensures_copy_bind, ensures_isAt_bind]
  split
  · next hc =>
    rw [ensures_copy_bind]
    exact hrest (hI.copied hopened (beq_iff_eq.mp hc) (by decide))
  · exact hrest hopened

theorem keeps_copyGroupHead : Keeps R I d (copyGroupHead n) := by
  induction n with
  | zero => exact fun s _ => .of_fail (hI.cause (by simp))
  | succ n ih =>
    intro s h
    have hlast : ∀ {s : ScanState} {c : Char} {b : Bool}, Holds I d s →
        s.cursor.current.bind CodeUnit.toAscii? = some c →
        Ensures R (do copy; return b) s fun _ t => Holds I d t := fun h hc =>
      .found (.of_run run_copy (hI.copiedAscii h hc))
    have hmore : Ensures R (do copyCharacter; copyGroupHead n) s fun _ t => Holds I d t :=
      (keeps_copyCharacter hI h).bind fun _ _ h => ih h
    simp only [copyGroupHead, ensures_current_bind]
    cases hu : s.cursor.current with
    | none => exact .of_fail (hI.cause (by simp))
    | some u =>
      have hascii : ∀ {c : Char}, u.toAscii? = some c → s.cursor.current.bind CodeUnit.toAscii? = some c := by
        intro c hc
        rw [hu]
        exact hc
      dsimp only
      split
      · next hc => exact hlast h (hascii hc)
      · next hc => exact hlast h (hascii hc)
      · next hc => exact hlast h (hascii hc)
      · next hc => exact hlast h (hascii hc)
      · next hc => exact hlast h (hascii hc)
      · next hc =>
        rw [ensures_next_bind]
        split
        · next hnext =>
          rw [ensures_copy_bind]
          have hcopied := hI.copiedAscii h (hascii hc)
          obtain ⟨c, hc, hcurrent⟩ := current_of_lookBehind hnext
          have hascii : ∀ c ∈ ['=', '!'], c.toNat < 0x80 := List.all_iff_forall_prop.mp (by decide)
          exact hlast hcopied (ascii_of_current hcurrent (hascii c hc))
        · exact hmore
      · exact hmore

include hin

theorem keeps_copyGroup (h : Holds I d s) (hc : s.cursor.current = some (unit '(')) :
    Ensures R (copyGroup n nested) s fun _ t => Holds I d t := by
  have henter : Holds I (d + 1) s.copied := by
    rw [ScanState.copied_of_current hc (by decide)]
    exact hI.enter h hc
  simp only [copyGroup, ensures_copy_bind, ensures_isAt_bind]
  split
  · next hq =>
    rw [ensures_copy_bind]
    refine (keeps_copyGroupHead hI (hI.copied henter (beq_iff_eq.mp hq) (by decide))).bind fun b s h => ?_
    split
    · exact keeps_groupBody hI hin (fun _ => .of_pure ⟨rfl, rfl⟩) h
    · exact .of_pure (hI.leave h)
  · rw [ensures_openGroup_bind]
    exact keeps_groupBody hI hin (fun _ => .of_run rfl ⟨rfl, rfl⟩) (s := s.copied.openGroup) henter

theorem keeps_nativeAtom : Keeps R I d (nativeAtom n nested) := by
  intro s h
  simp only [nativeAtom, ensures_current_bind]
  cases hu : s.cursor.current with
  | none => exact .of_pure h
  | some u =>
    dsimp only
    split
    · next hc => exact .found (keeps_copyGroup hI hin h (current_of_ascii hu hc))
    · next hc => exact .found (keeps_copyClass hI h (current_of_ascii hu hc))
    · next hc => exact .found (keeps_copyEscape hI h (current_of_ascii hu hc))
    · next hc =>
      split
      · exact .of_pure h
      · split
        · exact .found (.of_run run_copy (hI.copiedAscii h (by rw [hu]; exact hc)))
        · exact .found (keeps_copyCharacter hI h)
    · exact .found (keeps_copyCharacter hI h)

omit hin

/-! ## Patterns -/

theorem keeps_branch {v : Variant} {atom : Scan Bool} (hatom : Keeps R I d atom) : Keeps R I d (branch v atom n) := by
  induction n with
  | zero => exact fun s h => .of_pure h
  | succ n ih =>
    intro s h
    refine (hatom h).bind fun found s h => ?_
    split
    · exact (keeps_quantifier hI v h).bind fun _ _ h => ih h
    · exact .of_pure h

theorem keeps_alternatives {branch : Scan Unit} (hbranch : Keeps R I d branch) :
    Keeps R I d (alternatives branch n) := by
  induction n with
  | zero => exact fun s h => .of_pure h
  | succ n ih =>
    intro s h
    simp only [alternatives, ensures_isAt_bind]
    split
    · next hc =>
      rw [ensures_copy_bind]
      exact (hbranch (hI.copied h (beq_iff_eq.mp hc) (by decide))).bind fun _ _ h => ih h
    · exact .of_pure h

theorem keeps_regexp {v : Variant} {atom : Scan Bool} (hatom : Keeps R I d atom) : Keeps R I d (regexp v atom n) :=
  fun _ h => (keeps_branch hI hatom h).bind fun _ _ h => keeps_alternatives hI (keeps_branch hI hatom) h

theorem keeps_atom (atoms : Atoms) (d : Nat) : Keeps R I d (atom o atoms n d) := by
  induction n generalizing d with
  | zero => exact fun s h => .of_pure h
  | succ n ih =>
    have hnested : Keeps R I (d + 1) (enclosed o atoms n d) := by
      intro s h
      refine (hI.descend h).bind fun _ t ht => ?_
      obtain rfl := ht
      exact keeps_regexp hI (ih (d + 1)) h
    cases atoms with
    | schema e => exact keeps_schemaAtom hI hnested
    | native => exact keeps_nativeAtom hI hnested

theorem keeps_expression (atoms : Atoms) (d : Nat) : Keeps R I d (expression o atoms n d) :=
  keeps_regexp hI (keeps_atom hI atoms d)

/-- A whole pattern keeps the property from behind its first advance on. -/
theorem keeps_pattern (atoms : Atoms) (h : Holds I 0 s.advance) :
    Ensures R (pattern o atoms n) s fun _ t => Holds I 0 t := by
  unfold pattern
  rw [ensures_advance_bind]
  refine (keeps_expression hI atoms 0 h).bind fun _ t h => ?_
  rw [ensures_current_bind]
  split
  · exact .of_fail (hI.cause (by simp))
  · exact .of_pure h

end Scan

end XmlPattern
