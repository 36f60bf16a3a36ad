import XmlPattern.Proofs.Scan.Failing
import XmlPattern.Scan.Escape

/-!
# What scans ensure

`Ensures R p s Q` says how the scanner `p` ends from the state `s`: with a value and a state that `Q` relates, or with a
failure whose cause is of the kind `R`. It is proved along the scanner, command by command, much as `Lockstep` is for
two of them.

- `Ensures.bind`: what follows a scanner may rely on what it ensures.
-/

namespace XmlPattern

namespace Scan

variable {α β : Type}

/-- The scanner ends with a value and a state that are so related, or with a failure of such a cause. -/
def Ensures (R : Reason → Prop) (p : Scan α) (s : ScanState) (Q : α → ScanState → Prop) : Prop :=
  match p.run s with
  | (.ok a, t) => Q a t
  | (.error d, _) => R d.reason

variable {R : Reason → Prop} {p : Scan α} {f : α → Scan β} {s t : ScanState} {Q : α → ScanState → Prop}
  {Q' : β → ScanState → Prop}

namespace Ensures

theorem of_run {a : α} (h : p.run s = (.ok a, t)) (hq : Q a t) : Ensures R p s Q := by
  unfold Ensures
  rw [h]
  exact hq

theorem of_pure {a : α} (h : Q a s) : Ensures R (pure a) s Q := h

theorem of_fail {r : Reason} (h : R r) : Ensures R (fail r : Scan α) s Q := h

/-- Nothing comes to pass behind a failure. -/
theorem of_fail_bind {r : Reason} (h : R r) : Ensures R ((fail r : Scan α) >>= f) s Q' := h

/-- What follows a scanner may rely on what it ensures. -/
theorem bind {P : α → ScanState → Prop} (h : Ensures R p s P) (hf : ∀ a t, P a t → Ensures R (f a) t Q') :
    Ensures R (p >>= f) s Q' := by
  unfold Ensures at h ⊢
  rw [run_bind]
  generalize p.run s = x at h
  obtain ⟨a | d, t⟩ := x
  · exact h
  · exact hf d t h

theorem mono {P : α → ScanState → Prop} (h : Ensures R p s P) (hq : ∀ a t, P a t → Q a t) : Ensures R p s Q := by
  unfold Ensures at h ⊢
  generalize p.run s = x at h
  obtain ⟨d | a, t⟩ := x
  · exact h
  · exact hq a t h

/-- A value behind a scanner, such as that an atom has been found, does not matter to the state. -/
theorem found {p : Scan Unit} {P : ScanState → Prop} {a : α} (h : Ensures R p s fun _ t => P t) :
    Ensures R (do p; return a) s fun _ t => P t := h.bind fun _ _ h => .of_pure h

theorem of_finds {a : α} (h : Ensures R p s Q) (ha : p.Finds s a t) : Q a t := by
  unfold Ensures at h
  rw [show p.run s = (.ok a, t) from ha] at h
  exact h

theorem of_error {d : Diagnostic} (h : Ensures R p s Q) (hd : p.run s = (.error d, t)) : R d.reason := by
  unfold Ensures at h
  rw [hd] at h
  exact h

end Ensures

/-! ## Commands -/

section

variable {g : Unit → Scan β}

@[simp]
theorem ensures_pure_bind {a : α} : Ensures R ((pure a : Scan α) >>= f) s Q' ↔ Ensures R (f a) s Q' := Iff.rfl

@[simp]
theorem ensures_current_bind {f : Option CodeUnit → Scan β} :
    Ensures R (current >>= f) s Q' ↔ Ensures R (f s.cursor.current) s Q' := Iff.rfl

@[simp]
theorem ensures_next_bind {f : Option CodeUnit → Scan β} :
    Ensures R (next >>= f) s Q' ↔ Ensures R (f s.cursor.next) s Q' := Iff.rfl

@[simp]
theorem ensures_ascii_bind {f : Option Char → Scan β} :
    Ensures R (ascii >>= f) s Q' ↔ Ensures R (f (s.cursor.current.bind CodeUnit.toAscii?)) s Q' := Iff.rfl

@[simp]
theorem ensures_isAt_bind {c : Char} {f : Bool → Scan β} :
    Ensures R (isAt c >>= f) s Q' ↔ Ensures R (f (s.cursor.current == some (CodeUnit.ofBasic c))) s Q' := Iff.rfl

@[simp]
theorem ensures_advance_bind : Ensures R (advance >>= g) s Q' ↔ Ensures R (g ()) s.advance Q' := Iff.rfl

@[simp]
theorem ensures_inClass_bind {f : Bool → Scan β} :
    Ensures R (inClass >>= f) s Q' ↔ Ensures R (f s.cursor.inClass) s Q' := Iff.rfl

@[simp]
theorem ensures_setInClass_bind {b : Bool} :
    Ensures R (setInClass b >>= g) s Q' ↔ Ensures R (g ()) (s.setInClass b) Q' := Iff.rfl

@[simp]
theorem ensures_write_bind {fr : Fragment} :
    Ensures R (write fr >>= g) s Q' ↔ Ensures R (g ()) (s.write fr) Q' := Iff.rfl

@[simp]
theorem ensures_openGroup_bind {f : Nat → Scan β} :
    Ensures R (openGroup >>= f) s Q' ↔ Ensures R (f (s.opened + 1)) s.openGroup Q' := Iff.rfl

@[simp]
theorem ensures_opened_bind {f : Nat → Scan β} : Ensures R (opened >>= f) s Q' ↔ Ensures R (f s.opened) s Q' := Iff.rfl

@[simp]
theorem ensures_isClosed_bind {n : Nat} {f : Bool → Scan β} :
    Ensures R (isClosed n >>= f) s Q' ↔ Ensures R (f (s.closed.contains n)) s Q' := Iff.rfl

@[simp]
theorem ensures_warn_bind {r : Reason} : Ensures R (warn r >>= g) s Q' ↔ Ensures R (g ()) (s.warn r) Q' := Iff.rfl

@[simp]
theorem ensures_copy_bind : Ensures R (copy >>= g) s Q' ↔ Ensures R (g ()) s.copied Q' := by
  unfold Ensures
  rw [run_bind, run_copy]

theorem Ensures.expect {c : Char} (h : R (.expected c)) :
    Ensures R (expect c) s fun _ t => t = s ∧ s.cursor.current = some (CodeUnit.ofBasic c) := by
  unfold Scan.expect
  rw [ensures_isAt_bind]
  split
  · next hc => exact .of_pure ⟨rfl, beq_iff_eq.mp hc⟩
  · exact .of_fail h

theorem Ensures.descend {depth : Nat} (h : s.options.maxDepth ≤ depth → R .nestingTooDeep) :
    Ensures R (descend depth) s fun _ t => t = s := by
  unfold Ensures
  rw [run_descend]
  by_cases hd : s.options.maxDepth ≤ depth
  · rw [if_pos hd]
    exact h hd
  · rw [if_neg hd]

/-! ## Properties that every advance keeps -/

variable {P : ScanState → Prop}

theorem ensures_character_of_advance (hadvance : ∀ s, P s → P s.advance) (hR : R .invalidSurrogatePair) (h : P s) :
    Ensures R character s fun _ t => P t := by
  unfold character
  rw [ensures_current_bind]
  cases s.cursor.current with
  | none => exact .of_pure h
  | some u =>
    dsimp only
    split
    · rw [ensures_advance_bind, ensures_current_bind]
      cases s.advance.cursor.current with
      | none => exact .of_fail hR
      | some v =>
        dsimp only
        split
        · exact .of_pure (hadvance s h)
        · exact .of_fail hR
    · split
      · exact .of_fail hR
      · exact .of_pure h

theorem ensures_braced_of_advance {n : Nat} (hadvance : ∀ s, P s → P s.advance) (hR : R (.expected '\x7d')) (h : P s) :
    Ensures R (braced n) s fun _ t => t.cursor.current = some (CodeUnit.ofBasic '\x7d') ∧ P t := by
  induction n generalizing s with
  | zero => exact .of_fail hR
  | succ n ih =>
    unfold braced
    rw [ensures_current_bind]
    cases hu : s.cursor.current with
    | none => exact .of_fail hR
    | some u =>
      dsimp only
      split
      · next hc => exact .of_pure ⟨by rw [hu, beq_iff_eq.mp hc], h⟩
      · rw [ensures_advance_bind]
        exact (ih (hadvance s h)).bind fun _ _ h => .of_pure h

end

end Scan

end XmlPattern
