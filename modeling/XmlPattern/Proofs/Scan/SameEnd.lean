import XmlPattern.Proofs.Scan.Classes
import XmlPattern.Proofs.Scan.Ensures
import XmlPattern.Proofs.Scan.Lockstep

/-!
# Ending in the same way

Two scanners end in the same way if they find the same value and leave the same state, or fail with the same diagnostic.
Where the one takes less fuel than the other, what matters is how many advances are left, and that a scanner which
succeeds takes a unit.

- `SameEnd`: the relation, with rules for what comes one behind the other.
- `Advances`: a scanner takes a unit whenever it succeeds; so do those of members, of classes and of characters.
-/

namespace XmlPattern

open Grammar

namespace Scan

variable {α β : Type} {s t : ScanState} {n : Nat} {o : Options}

/-! ## The relation -/

/-- Two scanners find the same value and leave the same state, or fail with the same diagnostic. -/
def SameEnd (p q : Scan α) (s : ScanState) : Prop := Lockstep Eq p q s s fun _ t u => u = t

/-- They do wherever no more than so many advances are left. -/
def SameEndWithin (n : Nat) (p q : Scan α) : Prop := ∀ ⦃s : ScanState⦄, s.cursor.remaining ≤ n → SameEnd p q s

namespace SameEnd

variable {p q r : Scan α} {f g : α → Scan β}

theorem of_run {x : Except Diagnostic α × ScanState} (hp : p.run s = x) (hq : q.run s = x) : SameEnd p q s := by
  unfold SameEnd Lockstep
  rw [hp, hq]
  obtain ⟨d | a, t⟩ := x
  · exact .error rfl
  · exact .ok rfl

theorem refl (p : Scan α) (s : ScanState) : SameEnd p p s := of_run rfl rfl

/-- Where no advance is left, what a scanner does that looks at the cursor is what it does when it sees nothing. -/
theorem of_remaining {f : Option CodeUnit → Scan α} (hn : s.cursor.remaining ≤ 0) (h : p.run s = (f none).run s) :
    SameEnd p (do f (← current)) s := by
  refine of_run h ((run_bind_of_run rfl).trans ?_)
  rw [current_of_remaining hn]

theorem trans (h : SameEnd p q s) (h' : SameEnd q r s) : SameEnd p r s := by
  unfold SameEnd Lockstep at *
  generalize p.run s = x, q.run s = y, r.run s = z at h h'
  cases h with
  | ok ht =>
    cases h' with
    | ok hu => exact .ok (hu.trans ht)
  | error hd =>
    cases h' with
    | error he => exact .error (hd.trans he)

theorem bind (h : SameEnd p q s) (hk : ∀ a t, p.Finds s a t → SameEnd (f a) (g a) t) :
    SameEnd (p >>= f) (q >>= g) s := by
  unfold SameEnd Lockstep at h ⊢
  rw [run_bind, run_bind]
  cases hp : p.run s with
  | mk x t =>
    rw [hp] at h
    generalize q.run s = y at h
    cases h with
    | ok ht =>
      obtain rfl := ht
      exact hk _ _ hp
    | error hd => exact .error hd

/-- What is in front of two scanners does not matter. -/
theorem behind (p : Scan α) (hk : ∀ a t, p.Finds s a t → SameEnd (f a) (g a) t) : SameEnd (p >>= f) (p >>= g) s :=
  (refl p s).bind hk

/-- What is in front of two scanners is sure to succeed. -/
theorem after {p : Scan α} {a : α} {t : ScanState} (h : p.run s = (.ok a, t)) (hk : SameEnd (f a) (g a) t) :
    SameEnd (p >>= f) (p >>= g) s := by
  refine behind p fun b u hb => ?_
  obtain ⟨hab, rfl⟩ := Prod.mk.inj (h.symm.trans hb)
  rwa [← Except.ok.inj hab]

/-- Nothing comes to pass behind a failure. -/
theorem of_fail_bind {r : Reason} : SameEnd ((fail r : Scan α) >>= f) ((fail r : Scan α) >>= g) s :=
  behind _ fun _ _ h => (finds_fail.mp h).elim

/-- What is behind two scanners does not matter. -/
theorem before (h : SameEnd p q s) (f : α → Scan β) : SameEnd (p >>= f) (q >>= f) s := h.bind fun a t _ => refl (f a) t

end SameEnd

/-! ## Taking a unit -/

theorem Finds.remaining_le {p : Scan α} {a : α} (h : p.Finds s a t) : t.cursor.remaining ≤ s.cursor.remaining := by
  rw [h.state_eq]
  exact remaining_run_le p s

/-- Whenever the scanner succeeds it has taken a unit. -/
def Advances (p : Scan α) (s : ScanState) : Prop :=
  ∀ ⦃a t⦄, p.Finds s a t → t.cursor.remaining < s.cursor.remaining

theorem Advances.bind {p : Scan α} (h : Advances p s) (f : α → Scan β) : Advances (p >>= f) s := by
  intro b u hb
  obtain ⟨a, t, ha, hf⟩ := finds_bind.mp hb
  exact Nat.lt_of_le_of_lt hf.remaining_le (h ha)

section

variable {u : CodeUnit} (hu : s.cursor.current = some u)

include hu

theorem advances_advance : Advances advance s := by
  intro a t h
  rw [finds_advance.mp h]
  exact ScanState.remaining_advance hu

theorem advances_copy : Advances copy s := by
  intro a t h
  rw [finds_copy.mp h, ScanState.cursor_copied]
  exact ScanState.remaining_advance hu

theorem remaining_character {c : Char} (h : character.Finds s c t) :
    t.advance.cursor.remaining < s.cursor.remaining := by
  have hcharacter := ensures_character_of_advance (R := fun _ => True)
    (P := fun t => t.advance.cursor.remaining < s.cursor.remaining)
    (fun t ht => Nat.lt_of_le_of_lt t.advance.cursor.remaining_advance_le ht) trivial (ScanState.remaining_advance hu)
  exact hcharacter.of_finds h

theorem advances_copyCharacter : Advances copyCharacter s := by
  intro a t h
  obtain ⟨c, v, hc, h⟩ := finds_bind.mp h
  have hlt : v.advance.cursor.remaining < s.cursor.remaining := remaining_character hu hc
  rw [finds_advance.mp (finds_write_bind.mp h)]
  exact hlt

theorem advances_plainCharacter : Advances (plainCharacter o) s := by
  intro a t h
  obtain ⟨c, v, hc, h⟩ := finds_bind.mp h
  rw [finds_advance_bind] at h
  exact Nat.lt_of_le_of_lt h.remaining_le (remaining_character hu hc)

theorem advances_member : Advances (member o n) s := by
  intro a t h
  rw [member, finds_ascii_bind] at h
  split at h
  · exact (advances_advance hu).bind _ h
  · exact (finds_fail.mp h).elim
  · exact (finds_fail.mp h).elim
  · obtain ⟨c, v, hc, h⟩ := finds_bind.mp h
    rw [finds_advance_bind] at h
    exact Nat.lt_of_le_of_lt h.remaining_le (remaining_character hu hc)

theorem advances_classExpr : Advances (classExpr o n) s := by
  cases n with
  | zero => exact fun a t h => (finds_fail.mp h).elim
  | succ n =>
    intro a t h
    rw [classExpr, finds_inClass_bind, finds_setInClass_bind] at h
    exact (advances_advance (s := s.setInClass true) hu).bind _ h

end

end Scan

end XmlPattern
