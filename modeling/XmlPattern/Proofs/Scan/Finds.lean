import XmlPattern.Proofs.Text.Unit
import XmlPattern.Scan

/-!
# What scanners find

`p.Finds s a s'` says that the scanner `p` succeeds from the state `s` with the value `a` and leaves the state `s'`.
Each command is given by what it does at the front of a longer scanner (`finds_current_bind` and so on), so that a
scanner is carried out by rewriting from its first command on.

- `finds_bind`: a sequence finds what its second part finds, from where the first has stopped.
- `run_bind_eq_error`: a sequence fails where one of its parts does.
- `run_keeps`, `cursor_run`: what every command keeps, every scan keeps.
-/

namespace XmlPattern

namespace Cursor

theorem length_lt_take (skip : Bool) (passed rest : List CodeUnit) :
    passed.length < (take skip passed rest).1.length + if (take skip passed rest).2.2 then 1 else 0 := by
  induction rest generalizing passed with
  | nil => exact Nat.lt_succ_self _
  | cons u rest ih =>
    unfold take
    split
    · exact Nat.lt_trans (Nat.lt_succ_self _) (ih (u :: passed))
    · exact Nat.lt_succ_self _

theorem length_lt_advance (c : Cursor) : c.passed.length < c.advance.position := length_lt_take ..

/-- Moving on never moves back. -/
theorem position_le_advance (c : Cursor) : c.position ≤ c.advance.position := by
  have h := c.length_lt_advance
  unfold position at h ⊢
  split <;> omega

end Cursor

namespace ScanState

/-- The state once the current unit has been written as it stands and passed. -/
def copied (s : ScanState) : ScanState :=
  let u := s.cursor.current.getD 0
  (if u.isSurrogate then s else s.write (.verbatim [u.toBasic])).advance

theorem cursor_copied (s : ScanState) : s.copied.cursor = s.cursor.advance := by
  unfold copied
  dsimp only
  split <;> rfl

theorem copied_of_current {s : ScanState} {c : Char} (h : s.cursor.current = some (CodeUnit.ofBasic c))
    (hc : c.toNat < 0x10000) : s.copied = (s.write (.verbatim [c])).advance := by
  simp [copied, h, CodeUnit.isSurrogate_ofBasic hc, CodeUnit.toBasic_ofBasic hc]

end ScanState

namespace Scan

variable {α β : Type} {s s' : ScanState}

/-- The scanner succeeds from a state with a value, and leaves a state. -/
def Finds (p : Scan α) (s : ScanState) (a : α) (s' : ScanState) : Prop := p.run s = (.ok a, s')

/-- A scanner that succeeds has left the state that it leaves. -/
theorem Finds.state_eq {p : Scan α} {a : α} (h : p.Finds s a s') : s' = (p.run s).2 := (congrArg Prod.snd h).symm

@[simp]
theorem finds_pure {a b : α} : (pure a : Scan α).Finds s b s' ↔ b = a ∧ s' = s := by
  simp [Finds, eq_comm]

theorem finds_bind {p : Scan α} {f : α → Scan β} {b : β} :
    (p >>= f).Finds s b s' ↔ ∃ a t, p.Finds s a t ∧ (f a).Finds t b s' := by
  simp only [Finds, run_bind]
  cases hp : p.run s with
  | mk r t =>
    cases r with
    | ok a =>
      constructor
      · exact fun h => ⟨a, t, rfl, h⟩
      · rintro ⟨_, _, h, h'⟩
        cases h
        exact h'
    | error d =>
      constructor
      · exact fun h => by cases h
      · rintro ⟨_, _, h, _⟩
        cases h

/-- A sequence whose first part is known. -/
theorem finds_bind_of_run {p : Scan α} {f : α → Scan β} {a : α} {t : ScanState} {b : β} (h : p.run s = (.ok a, t)) :
    (p >>= f).Finds s b s' ↔ (f a).Finds t b s' := by
  simp only [Finds, run_bind, h]

@[simp]
theorem finds_fail {r : Reason} {a : α} : (fail r : Scan α).Finds s a s' ↔ False := by
  simp [Finds, run_fail]

@[simp]
theorem finds_fail_bind {r : Reason} {f : α → Scan β} {b : β} : ((fail r : Scan α) >>= f).Finds s b s' ↔ False := by
  simp [finds_bind]

@[simp]
theorem finds_pure_bind {a : α} {f : α → Scan β} {b : β} :
    ((pure a : Scan α) >>= f).Finds s b s' ↔ (f a).Finds s b s' :=
  finds_bind_of_run rfl

/-- A sequence whose first part has succeeded goes on with its second part. -/
theorem run_bind_of_run {p : Scan α} {f : α → Scan β} {a : α} {t : ScanState} (h : p.run s = (.ok a, t)) :
    (p >>= f).run s = (f a).run t := by
  rw [run_bind, h]

/-- What is in front of two scanners does not matter. -/
theorem run_bind_congr {p : Scan α} {f g : α → Scan β} (h : ∀ a t, (f a).run t = (g a).run t) (s : ScanState) :
    (p >>= f).run s = (p >>= g).run s := by
  rw [run_bind, run_bind]
  simp only [h]

/-- What is behind two scanners does not matter. -/
theorem run_bind_left {p q : Scan α} {f : α → Scan β} (h : p.run s = q.run s) : (p >>= f).run s = (q >>= f).run s := by
  rw [run_bind, run_bind, h]

theorem run_bind_assoc {γ : Type} {p : Scan α} {f : α → Scan β} {g : β → Scan γ} (s : ScanState) :
    ((p >>= f) >>= g).run s = (p >>= fun a => f a >>= g).run s := by
  rw [run_bind, run_bind, run_bind]
  obtain ⟨d | a, t⟩ := p.run s
  · rfl
  · exact (run_bind ..).symm

/-- A sequence fails where its first part does, or where its second part does once the first has succeeded. -/
theorem run_bind_eq_error {p : Scan α} {f : α → Scan β} {d : Diagnostic} {t : ScanState} :
    (p >>= f).run s = (.error d, t) ↔
      p.run s = (.error d, t) ∨ ∃ a u, p.Finds s a u ∧ (f a).run u = (.error d, t) := by
  simp only [run_bind, Finds]
  cases hp : p.run s with
  | mk r u =>
    cases r with
    | ok a =>
      constructor
      · intro h
        exact .inr ⟨a, u, rfl, h⟩
      · intro h
        rcases h with h | ⟨a', u', ha, h⟩
        · cases h
        · cases ha
          exact h
    | error e =>
      constructor
      · intro h
        cases h
        exact .inl rfl
      · intro h
        rcases h with h | ⟨a', u', ha, _⟩
        · cases h
          rfl
        · cases ha

/-! ## What every command keeps -/

theorem run_descend (depth : Nat) (s : ScanState) : (descend depth).run s =
    if s.options.maxDepth ≤ depth then (.error (s.diagnostic .nestingTooDeep), s) else (.ok (), s) := rfl

/-- Whether groups may nest so deep or not, the state stays. -/
theorem command_descend (depth : Nat) (s : ScanState) : ((Command.descend depth).run s).2 = s := by
  rw [Command.run]
  split <;> rfl

/-- What every command keeps, every scan keeps. -/
theorem run_keeps {P : ScanState → Prop} (hP : ∀ {γ : Type} (c : Command γ) s, P s → P (c.run s).2) (p : Scan α)
    (h : P s) : P (p.run s).2 := by
  induction p generalizing s with
  | done a => exact h
  | command c => exact hP c s h
  | andThen p f ihp ihf =>
    have hp := ihp h
    rw [run]
    generalize p.run s = x at hp
    obtain ⟨d | a, t⟩ := x
    · exact hp
    · exact ihf a hp

/-- A command leaves the cursor where it is, or moves it on, or tells it whether it is in a class. -/
theorem cursor_command {P : Cursor → Prop} (hadvance : ∀ c, P c → P c.advance)
    (hclass : ∀ c (b : Bool), P c → P { c with inClass := b }) (c : Command α) (h : P s.cursor) :
    P (c.run s).2.cursor := by
  cases c with
  | advance => exact hadvance _ h
  | setInClass b => exact hclass _ b h
  | descend depth => rwa [command_descend]
  | _ => exact h

/-- What a cursor keeps on its way, every scan keeps. -/
theorem cursor_run {P : Cursor → Prop} (hadvance : ∀ c, P c → P c.advance)
    (hclass : ∀ c (b : Bool), P c → P { c with inClass := b }) (p : Scan α) (h : P s.cursor) :
    P (p.run s).2.cursor :=
  run_keeps (P := fun s => P s.cursor) (fun c _ h => cursor_command hadvance hclass c h) p h

/-- A scan leaves the expression as it is. -/
theorem expression_run (p : Scan α) (s : ScanState) : (p.run s).2.cursor.expression = s.cursor.expression :=
  cursor_run (P := fun c => c.expression = s.cursor.expression) (fun c h => c.expression_advance.trans h)
    (fun _ _ h => h) p rfl

/-- A scan never goes back. -/
theorem position_run_le (p : Scan α) (s : ScanState) : s.cursor.position ≤ (p.run s).2.cursor.position :=
  cursor_run (P := fun c => s.cursor.position ≤ c.position) (fun c h => Nat.le_trans h c.position_le_advance)
    (fun _ _ h => h) p (Nat.le_refl _)

/-! ## Commands -/

section

variable {b : β}

@[simp]
theorem finds_current_bind {f : Option CodeUnit → Scan β} :
    (current >>= f).Finds s b s' ↔ (f s.cursor.current).Finds s b s' :=
  finds_bind_of_run rfl

@[simp]
theorem finds_next_bind {f : Option CodeUnit → Scan β} :
    (next >>= f).Finds s b s' ↔ (f s.cursor.next).Finds s b s' :=
  finds_bind_of_run rfl

@[simp]
theorem finds_advance_bind {f : Unit → Scan β} : (advance >>= f).Finds s b s' ↔ (f ()).Finds s.advance b s' :=
  finds_bind_of_run rfl

@[simp]
theorem finds_advance : advance.Finds s () s' ↔ s' = s.advance := by
  simp [Finds, advance, Command.run, eq_comm]

@[simp]
theorem finds_inClass_bind {f : Bool → Scan β} :
    (inClass >>= f).Finds s b s' ↔ (f s.cursor.inClass).Finds s b s' :=
  finds_bind_of_run rfl

@[simp]
theorem finds_setInClass_bind {c : Bool} {f : Unit → Scan β} :
    (setInClass c >>= f).Finds s b s' ↔ (f ()).Finds (s.setInClass c) b s' :=
  finds_bind_of_run rfl

@[simp]
theorem finds_write_bind {fr : Fragment} {f : Unit → Scan β} :
    (write fr >>= f).Finds s b s' ↔ (f ()).Finds (s.write fr) b s' :=
  finds_bind_of_run rfl

@[simp]
theorem finds_write {fr : Fragment} : (write fr).Finds s () s' ↔ s' = s.write fr := by
  simp [Finds, write, Command.run, eq_comm]

@[simp]
theorem finds_openGroup_bind {f : Nat → Scan β} :
    (openGroup >>= f).Finds s b s' ↔ (f (s.opened + 1)).Finds s.openGroup b s' :=
  finds_bind_of_run rfl

@[simp]
theorem finds_closeGroup_bind {n : Nat} {f : Unit → Scan β} :
    (closeGroup n >>= f).Finds s b s' ↔ (f ()).Finds (s.closeGroup n) b s' :=
  finds_bind_of_run rfl

@[simp]
theorem finds_closeGroup {n : Nat} : (closeGroup n).Finds s () s' ↔ s' = s.closeGroup n := by
  simp [Finds, closeGroup, Command.run, eq_comm]

@[simp]
theorem finds_opened_bind {f : Nat → Scan β} : (opened >>= f).Finds s b s' ↔ (f s.opened).Finds s b s' :=
  finds_bind_of_run rfl

@[simp]
theorem finds_isClosed_bind {n : Nat} {f : Bool → Scan β} :
    (isClosed n >>= f).Finds s b s' ↔ (f (s.closed.contains n)).Finds s b s' :=
  finds_bind_of_run rfl

@[simp]
theorem finds_warn_bind {r : Reason} {f : Unit → Scan β} :
    (warn r >>= f).Finds s b s' ↔ (f ()).Finds (s.warn r) b s' :=
  finds_bind_of_run rfl

@[simp]
theorem finds_descend_bind {depth : Nat} {f : Unit → Scan β} :
    (descend depth >>= f).Finds s b s' ↔ depth < s.options.maxDepth ∧ (f ()).Finds s b s' := by
  by_cases h : s.options.maxDepth ≤ depth
  · constructor
    · intro h'
      obtain ⟨_, _, h', _⟩ := finds_bind.mp h'
      rw [Finds, run_descend, if_pos h] at h'
      cases h'
    · exact fun h' => absurd h'.1 (Nat.not_lt.mpr h)
  · rw [finds_bind_of_run ((run_descend depth s).trans (if_neg h))]
    exact ⟨fun h' => ⟨Nat.lt_of_not_le h, h'⟩, fun h' => h'.2⟩

@[simp]
theorem finds_ascii_bind {f : Option Char → Scan β} :
    (ascii >>= f).Finds s b s' ↔ (f (s.cursor.current.bind CodeUnit.toAscii?)).Finds s b s' :=
  finds_bind_of_run rfl

@[simp]
theorem finds_isAt_bind {c : Char} {f : Bool → Scan β} :
    (isAt c >>= f).Finds s b s' ↔ (f (s.cursor.current == some (CodeUnit.ofBasic c))).Finds s b s' :=
  finds_bind_of_run rfl

theorem run_copy : copy.run s = (.ok (), s.copied) := by
  simp only [copy, ScanState.copied]
  cases hu : (s.cursor.current.getD 0).isSurrogate <;>
    simp [run_bind, current, Command.run, hu, write, advance]

@[simp]
theorem finds_copy_bind {f : Unit → Scan β} : (copy >>= f).Finds s b s' ↔ (f ()).Finds s.copied b s' :=
  finds_bind_of_run run_copy

@[simp]
theorem finds_copy : copy.Finds s () s' ↔ s' = s.copied := by
  simp [Finds, run_copy, eq_comm]

theorem finds_expect {c : Char} : (expect c).Finds s () s' ↔ s.cursor.current = some (CodeUnit.ofBasic c) ∧ s' = s := by
  simp only [expect, finds_isAt_bind]
  split
  · next h => simp [beq_iff_eq.mp h]
  · next h => simp [show s.cursor.current ≠ _ from fun h' => h (beq_iff_eq.mpr h')]

@[simp]
theorem finds_expect_bind {c : Char} {f : Unit → Scan β} :
    (expect c >>= f).Finds s b s' ↔ s.cursor.current = some (CodeUnit.ofBasic c) ∧ (f ()).Finds s b s' := by
  rw [finds_bind]
  constructor
  · rintro ⟨⟨⟩, t, h, h'⟩
    obtain ⟨hc, rfl⟩ := finds_expect.mp h
    exact ⟨hc, h'⟩
  · rintro ⟨hc, h'⟩
    exact ⟨(), s, finds_expect.mpr ⟨hc, rfl⟩, h'⟩

end

end Scan

end XmlPattern
