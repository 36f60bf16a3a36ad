import XmlPattern.Proofs.Scan.Event

/-!
# Two scans in step

`Lockstep E p q s t Q` says that the scanners `p` and `q`, from the states `s` and `t`, end alike: both find the same
value, in states that `Q` relates, or both fail, with diagnostics that `E` relates. It is proved along the scanners,
command by command, much as `Scan.Finds` is.

- `Lockstep.bind`: what follows two scanners in step may rely on what they have come to.
- `Lockstep.within`: no scan gets farther from the end, so that fuel that is enough stays enough.
-/

namespace XmlPattern

namespace Cursor

theorem remaining_take_le (skip : Bool) (passed rest : List CodeUnit) :
    ((take skip passed rest).2.1.length + if (take skip passed rest).2.2 then 0 else 1) ≤ rest.length := by
  induction rest generalizing passed with
  | nil => exact Nat.le_refl _
  | cons u rest ih =>
    unfold take
    split
    · exact Nat.le_succ_of_le (ih _)
    · exact Nat.le_refl _

theorem remaining_advance_le (c : Cursor) : c.advance.remaining ≤ c.remaining :=
  Nat.le_trans (remaining_take_le ..) (Nat.le_add_right _ _)

end Cursor

namespace Scan

variable {α β : Type}

/-- No scan gets farther from the end. -/
theorem remaining_run_le (p : Scan α) (s : ScanState) : (p.run s).2.cursor.remaining ≤ s.cursor.remaining :=
  cursor_run (P := fun c => c.remaining ≤ s.cursor.remaining) (fun c h => Nat.le_trans c.remaining_advance_le h)
    (fun _ _ h => h) p (Nat.le_refl _)

/-- Two runs find the same value and come to related states, or fail with related diagnostics. -/
inductive EndAlike (E : Diagnostic → Diagnostic → Prop) (Q : α → ScanState → ScanState → Prop) :
    Except Diagnostic α × ScanState → Except Diagnostic α × ScanState → Prop where
  | ok {a : α} {s t : ScanState} : Q a s t → EndAlike E Q (.ok a, s) (.ok a, t)
  | error {d e : Diagnostic} {s t : ScanState} : E d e → EndAlike E Q (.error d, s) (.error e, t)

/-- Two scanners end alike. -/
def Lockstep (E : Diagnostic → Diagnostic → Prop) (p q : Scan α) (s t : ScanState)
    (Q : α → ScanState → ScanState → Prop) : Prop :=
  EndAlike E Q (p.run s) (q.run t)

/-- So many advances are enough from the first state, and so many from the second. -/
def Within (n m : Nat) (s t : ScanState) : Prop := s.cursor.remaining ≤ n ∧ t.cursor.remaining ≤ m

variable {E : Diagnostic → Diagnostic → Prop} {p q : Scan α} {f g : α → Scan β} {s t : ScanState}
  {Q R : α → ScanState → ScanState → Prop} {Q' : β → ScanState → ScanState → Prop}

namespace Lockstep

theorem of_pure {a : α} (h : Q a s t) : Lockstep E (pure a) (pure a) s t Q := .ok h

theorem of_fail {r : Reason} (h : E (s.diagnostic r) (t.diagnostic r)) : Lockstep E (fail r) (fail r) s t Q := .error h

/-- Nothing comes to pass behind a failure. -/
theorem of_fail_bind {r : Reason} (h : E (s.diagnostic r) (t.diagnostic r)) :
    Lockstep E ((fail r : Scan α) >>= f) ((fail r : Scan α) >>= g) s t Q' := .error h

/-- What follows two scanners in step may rely on what they have come to. -/
theorem bind (h : Lockstep E p q s t R) (hk : ∀ a s' t', R a s' t' → Lockstep E (f a) (g a) s' t' Q') :
    Lockstep E (p >>= f) (q >>= g) s t Q' := by
  unfold Lockstep at h ⊢
  rw [run_bind, run_bind]
  generalize p.run s = x, q.run t = y at h
  cases h with
  | ok h => exact hk _ _ _ h
  | error h => exact .error h

theorem mono (h : Lockstep E p q s t R) (hq : ∀ a s' t', R a s' t' → Q a s' t') : Lockstep E p q s t Q := by
  unfold Lockstep at h ⊢
  generalize p.run s = x, q.run t = y at h
  cases h with
  | ok h => exact .ok (hq _ _ _ h)
  | error h => exact .error h

/-- Fuel that is enough stays enough. -/
theorem within {n m : Nat} (h : Lockstep E p q s t Q) (hw : Within n m s t) :
    Lockstep E p q s t fun a s' t' => Q a s' t' ∧ Within n m s' t' := by
  have hs := Nat.le_trans (remaining_run_le p s) hw.1
  have ht := Nat.le_trans (remaining_run_le q t) hw.2
  unfold Lockstep at h ⊢
  generalize p.run s = x, q.run t = y at h hs ht
  cases h with
  | ok h => exact .ok ⟨h, hs, ht⟩
  | error h => exact .error h

end Lockstep

/-! ## Commands -/

section

variable {h h' : Unit → Scan β}

@[simp]
theorem lockstep_pure_bind {a : α} :
    Lockstep E ((pure a : Scan α) >>= f) ((pure a : Scan α) >>= g) s t Q' ↔ Lockstep E (f a) (g a) s t Q' := Iff.rfl

@[simp]
theorem lockstep_current_bind {f g : Option CodeUnit → Scan β} :
    Lockstep E (current >>= f) (current >>= g) s t Q' ↔
      Lockstep E (f s.cursor.current) (g t.cursor.current) s t Q' := Iff.rfl

@[simp]
theorem lockstep_next_bind {f g : Option CodeUnit → Scan β} :
    Lockstep E (next >>= f) (next >>= g) s t Q' ↔ Lockstep E (f s.cursor.next) (g t.cursor.next) s t Q' := Iff.rfl

@[simp]
theorem lockstep_ascii_bind {f g : Option Char → Scan β} :
    Lockstep E (ascii >>= f) (ascii >>= g) s t Q' ↔
      Lockstep E (f (s.cursor.current.bind CodeUnit.toAscii?)) (g (t.cursor.current.bind CodeUnit.toAscii?)) s t Q' :=
  Iff.rfl

@[simp]
theorem lockstep_isAt_bind {c : Char} {f g : Bool → Scan β} :
    Lockstep E (isAt c >>= f) (isAt c >>= g) s t Q' ↔
      Lockstep E (f (s.cursor.current == some (CodeUnit.ofBasic c))) (g (t.cursor.current == some (CodeUnit.ofBasic c)))
        s t Q' := Iff.rfl

@[simp]
theorem lockstep_advance_bind :
    Lockstep E (advance >>= h) (advance >>= h') s t Q' ↔ Lockstep E (h ()) (h' ()) s.advance t.advance Q' := Iff.rfl

@[simp]
theorem lockstep_inClass_bind {f g : Bool → Scan β} :
    Lockstep E (inClass >>= f) (inClass >>= g) s t Q' ↔
      Lockstep E (f s.cursor.inClass) (g t.cursor.inClass) s t Q' := Iff.rfl

@[simp]
theorem lockstep_setInClass_bind {b b' : Bool} :
    Lockstep E (setInClass b >>= h) (setInClass b' >>= h') s t Q' ↔
      Lockstep E (h ()) (h' ()) (s.setInClass b) (t.setInClass b') Q' := Iff.rfl

@[simp]
theorem lockstep_write_bind {a b : Fragment} :
    Lockstep E (write a >>= h) (write b >>= h') s t Q' ↔ Lockstep E (h ()) (h' ()) (s.write a) (t.write b) Q' := Iff.rfl

@[simp]
theorem lockstep_openGroup_bind {f g : Nat → Scan β} :
    Lockstep E (openGroup >>= f) (openGroup >>= g) s t Q' ↔
      Lockstep E (f (s.opened + 1)) (g (t.opened + 1)) s.openGroup t.openGroup Q' := Iff.rfl

@[simp]
theorem lockstep_closeGroup_bind {i j : Nat} :
    Lockstep E (closeGroup i >>= h) (closeGroup j >>= h') s t Q' ↔
      Lockstep E (h ()) (h' ()) (s.closeGroup i) (t.closeGroup j) Q' := Iff.rfl

@[simp]
theorem lockstep_opened_bind {f g : Nat → Scan β} :
    Lockstep E (opened >>= f) (opened >>= g) s t Q' ↔ Lockstep E (f s.opened) (g t.opened) s t Q' := Iff.rfl

@[simp]
theorem lockstep_isClosed_bind {i j : Nat} {f g : Bool → Scan β} :
    Lockstep E (isClosed i >>= f) (isClosed j >>= g) s t Q' ↔
      Lockstep E (f (s.closed.contains i)) (g (t.closed.contains j)) s t Q' := Iff.rfl

@[simp]
theorem lockstep_warn_bind {a b : Reason} :
    Lockstep E (warn a >>= h) (warn b >>= h') s t Q' ↔ Lockstep E (h ()) (h' ()) (s.warn a) (t.warn b) Q' := Iff.rfl

@[simp]
theorem lockstep_copy_bind :
    Lockstep E (copy >>= h) (copy >>= h') s t Q' ↔ Lockstep E (h ()) (h' ()) s.copied t.copied Q' := by
  unfold Lockstep
  rw [run_bind, run_bind, run_copy, run_copy]

end

/-- A scanner that is sure to succeed. -/
theorem lockstep_of_run {a : α} {s' t' : ScanState} (hp : p.run s = (.ok a, s')) (hq : q.run t = (.ok a, t'))
    (h : Q a s' t') : Lockstep E p q s t Q := by
  unfold Lockstep
  rw [hp, hq]
  exact .ok h

end Scan

end XmlPattern
