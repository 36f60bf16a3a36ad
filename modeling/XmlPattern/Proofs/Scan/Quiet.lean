import XmlPattern.Proofs.Scan.Event
import XmlPattern.Scan.Grammar

/-!
# Scanners that leave groups and classes alone

Few commands open or close a group, or enter or leave a class, and most scanners carry out none of them. That is told
from a program by its syntax, and what such a program keeps is told once for all of them.

- `Scan.Quiet`: no command of a scanner opens or closes a group, nor, but where that is allowed, enters or leaves a
  class.
- `groups_run`, `inClass_run`: what a quiet scanner keeps, whichever way it ends.
- `quiet_classExpr`, `quiet_copyClass`: classes are read without a group.
-/

namespace XmlPattern

variable {α β : Type} {modes : Bool}

/-- A command opens and closes no group, and enters and leaves no class unless it may. -/
def Command.Quiet (modes : Bool) : Command α → Prop
  | .setInClass _ => modes = true
  | .openGroup | .closeGroup _ => False
  | _ => True

namespace Scan

/-- All commands of a scanner are quiet. -/
def Quiet (modes : Bool) : {α : Type} → Scan α → Prop
  | _, done _ => True
  | _, command c => c.Quiet modes
  | _, andThen p f => Quiet modes p ∧ ∀ a, Quiet modes (f a)

variable {p : Scan α} {f : α → Scan β} {s : ScanState} {o : Options} {n : Nat}

/-! ## What a quiet scanner keeps -/

/-- What every quiet command keeps, every quiet scanner keeps. -/
theorem run_keeps_of_quiet {P : ScanState → Prop}
    (hP : ∀ {γ : Type} (c : Command γ) s, c.Quiet modes → P s → P (c.run s).2) (h : Quiet modes p) (hs : P s) :
    P (p.run s).2 := by
  induction p generalizing s with
  | done a => exact hs
  | command c => exact hP c s h hs
  | andThen p f ihp ihf =>
    have hp := ihp h.1 hs
    rw [run]
    generalize p.run s = x at hp
    obtain ⟨d | a, t⟩ := x
    · exact hp
    · exact ihf a (h.2 a) hp

theorem groups_command {c : Command α} (h : c.Quiet modes) (s : ScanState) : (c.run s).2.groups = s.groups := by
  cases c with
  | openGroup => exact h.elim
  | closeGroup number => exact h.elim
  | descend depth => rw [command_descend]
  | _ => rfl

theorem inClass_command {c : Command α} (h : c.Quiet false) (s : ScanState) :
    (c.run s).2.cursor.inClass = s.cursor.inClass := by
  cases c with
  | setInClass b => cases h
  | descend depth => rw [command_descend]
  | _ => rfl

theorem groups_run (h : Quiet modes p) (s : ScanState) : (p.run s).2.groups = s.groups :=
  run_keeps_of_quiet (P := fun t => t.groups = s.groups) (fun _ t hc ht => (groups_command hc t).trans ht) h rfl

theorem inClass_run (h : Quiet false p) (s : ScanState) : (p.run s).2.cursor.inClass = s.cursor.inClass :=
  run_keeps_of_quiet (P := fun t => t.cursor.inClass = s.cursor.inClass)
    (fun _ t hc ht => (inClass_command hc t).trans ht)
    h rfl

theorem groups_of_finds {a : α} {t : ScanState} (hp : Quiet modes p) (h : p.Finds s a t) : t.groups = s.groups := by
  rw [h.state_eq]
  exact groups_run hp s

theorem inClass_of_finds {a : α} {t : ScanState} (hp : Quiet false p) (h : p.Finds s a t) :
    t.cursor.inClass = s.cursor.inClass := by
  rw [h.state_eq]
  exact inClass_run hp s

/-! ## Commands and small scanners -/

@[simp]
theorem quiet_pure (a : α) : Quiet modes (pure a : Scan α) := trivial

@[simp]
theorem quiet_bind : Quiet modes (p >>= f) ↔ Quiet modes p ∧ ∀ a, Quiet modes (f a) := Iff.rfl

@[simp]
theorem quiet_ite {c : Prop} [Decidable c] {q : Scan α} :
    Quiet modes (if c then p else q) ↔ (c → Quiet modes p) ∧ (¬ c → Quiet modes q) := by
  split <;> simp [*]

@[simp]
theorem quiet_current : Quiet modes current := trivial

@[simp]
theorem quiet_next : Quiet modes next := trivial

@[simp]
theorem quiet_advance : Quiet modes advance := trivial

@[simp]
theorem quiet_inClass : Quiet modes inClass := trivial

@[simp]
theorem quiet_setInClass (b : Bool) : Quiet modes (setInClass b) ↔ modes = true := Iff.rfl

@[simp]
theorem quiet_write (fr : Fragment) : Quiet modes (write fr) := trivial

@[simp]
theorem quiet_opened : Quiet modes opened := trivial

@[simp]
theorem quiet_isClosed (number : Nat) : Quiet modes (isClosed number) := trivial

@[simp]
theorem quiet_warn (r : Reason) : Quiet modes (warn r) := trivial

@[simp]
theorem quiet_descend (depth : Nat) : Quiet modes (descend depth) := trivial

@[simp]
theorem quiet_fail (r : Reason) : Quiet modes (fail r : Scan α) := ⟨trivial, nofun⟩

@[simp]
theorem quiet_writeText (text : String) : Quiet modes (writeText text) := trivial

@[simp]
theorem quiet_ascii : Quiet modes ascii := by simp [ascii]

@[simp]
theorem quiet_isAt (c : Char) : Quiet modes (isAt c) := by simp [isAt]

@[simp]
theorem quiet_expect (c : Char) : Quiet modes (expect c) := by simp [expect]

@[simp]
theorem quiet_copy : Quiet modes copy := by simp [copy]

@[simp]
theorem quiet_character : Quiet modes character := by
  simp only [character, quiet_bind, quiet_current, true_and]
  intro u
  cases u with
  | none => trivial
  | some u =>
    simp only [quiet_ite, quiet_bind, quiet_advance, quiet_current, quiet_fail, quiet_pure, true_and,
      implies_true, and_true]
    intro _ _ v
    cases v <;> simp

/-! ## Quantifiers -/

@[simp]
theorem quiet_digits : Quiet modes (digits n) := by
  induction n with
  | zero => exact quiet_fail _
  | succ n ih =>
    simp only [digits, quiet_bind, quiet_ascii, true_and]
    intro c
    cases c <;> simp [ih]

@[simp]
theorem quiet_bounds : Quiet modes (bounds n) := by simp [bounds]

@[simp]
theorem quiet_quantifier (v : Variant) : Quiet modes (quantifier v n) := by
  simp only [quantifier, quiet_bind, quiet_ascii, true_and]
  intro c
  split <;> simp

/-! ## Escapes -/

@[simp]
theorem quiet_braced : Quiet modes (braced n) := by
  induction n with
  | zero => exact quiet_fail _
  | succ n ih =>
    simp only [braced, quiet_bind, quiet_current, true_and]
    intro u
    cases u <;> simp [ih]

@[simp]
theorem quiet_namedChars (v : Variant) (name : List Char) : Quiet modes (namedChars v name) := by
  unfold namedChars
  split
  · unfold blockChars
    split <;> simp
  · split <;> simp

@[simp]
theorem quiet_propertyEscape (negated : Bool) : Quiet modes (propertyEscape o n negated) := by simp [propertyEscape]

@[simp]
theorem quiet_escape : Quiet modes (escape o n) := by
  simp only [escape, quiet_bind, quiet_ascii, true_and]
  intro c
  split
  · simp
  · simp
  · simp
  · split <;> simp

@[simp]
theorem quiet_member : Quiet modes (member o n) := by
  simp only [member, quiet_bind, quiet_ascii, true_and]
  intro c
  split <;> simp

@[simp]
theorem quiet_members (first : Bool) (cs : CharSet) : Quiet modes (members o n first cs) := by
  induction n generalizing first cs with
  | zero => exact quiet_fail _
  | succ n ih =>
    simp only [members, quiet_bind, quiet_current, true_and]
    intro u
    cases u with
    | none => exact quiet_fail _
    | some u =>
      simp only [quiet_ite, quiet_bind, quiet_pure, quiet_next, quiet_fail, quiet_advance, quiet_member, quiet_isAt, ih,
        true_and, and_true, implies_true]
      intro _ _ lower _ _ _ _ _ _ _ upper
      cases lower <;> cases upper <;> simp [ih]

/-! ## Classes -/

theorem quiet_classExpr : Quiet true (classExpr o n) := by
  induction n with
  | zero => exact quiet_fail _
  | succ n ih => simp [classExpr, subtraction, ih]

/-! ## Schema atoms -/

@[simp]
theorem quiet_referenceNumber (number : Nat) : Quiet modes (referenceNumber n number) := by
  induction n generalizing number with
  | zero => exact quiet_pure _
  | succ n ih =>
    simp only [referenceNumber, quiet_bind, quiet_advance, quiet_ascii, true_and]
    intro _ c
    cases c <;> simp [ih]

@[simp]
theorem quiet_backReference (first : Char) : Quiet modes (backReference o n first) := by simp [backReference]

@[simp]
theorem quiet_schemaEscape : Quiet modes (schemaEscape o n) := by
  simp only [schemaEscape, quiet_bind, quiet_advance, quiet_ascii, true_and]
  intro _ c
  cases c <;> simp

@[simp]
theorem quiet_plainCharacter : Quiet modes (plainCharacter o) := by simp [plainCharacter]

/-! ## Native atoms -/

@[simp]
theorem quiet_copyCharacter : Quiet modes copyCharacter := by simp [copyCharacter]

@[simp]
theorem quiet_copyDigits : Quiet modes (copyDigits n) := by
  induction n with
  | zero => exact quiet_pure _
  | succ n ih =>
    simp only [copyDigits, quiet_bind, quiet_ascii, true_and]
    intro c
    cases c <;> simp [ih]

@[simp]
theorem quiet_copyBraced : Quiet modes (copyBraced n) := by
  induction n with
  | zero => exact quiet_fail _
  | succ n ih =>
    simp only [copyBraced, quiet_bind, quiet_current, true_and]
    intro u
    cases u <;> simp [ih]

@[simp]
theorem quiet_copyCharacters (count : Nat) : Quiet modes (copyCharacters count) := by
  induction count with
  | zero => exact quiet_pure _
  | succ count ih => simp [copyCharacters, ih]

@[simp]
theorem quiet_copyOperand (letter : Char) : Quiet modes (copyOperand n letter) := by
  unfold copyOperand
  split <;> simp

@[simp]
theorem quiet_copyEscape : Quiet modes (copyEscape n) := by
  simp only [copyEscape, quiet_bind, quiet_copy, quiet_current, quiet_ite, quiet_fail, quiet_ascii, quiet_copyCharacter,
    true_and]
  intro _ _
  refine ⟨fun _ _ letter _ => ?_, fun _ letter _ => ?_⟩
  · cases letter <;> simp
  · cases letter <;> simp

theorem quiet_copyClassRest (outer : Bool) (inner : Nat) : Quiet true (copyClassRest outer n inner) := by
  induction n generalizing inner with
  | zero => exact quiet_fail _
  | succ n ih =>
    simp only [copyClassRest, quiet_bind, quiet_current, true_and]
    intro u
    cases u with
    | none => exact quiet_fail _
    | some u =>
      dsimp only
      split <;> simp [ih]

theorem quiet_copyClass : Quiet true (copyClass n) := by simp [copyClass, quiet_copyClassRest]

@[simp]
theorem quiet_copyGroupHead : Quiet modes (copyGroupHead n) := by
  induction n with
  | zero => exact quiet_fail _
  | succ n ih =>
    simp only [copyGroupHead, quiet_bind, quiet_current, true_and]
    intro u
    cases u with
    | none => exact quiet_fail _
    | some u =>
      dsimp only
      split <;> simp [ih]

end Scan

end XmlPattern
