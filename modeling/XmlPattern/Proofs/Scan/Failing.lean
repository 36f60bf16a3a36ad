import XmlPattern.Proofs.Scan.Finds
import XmlPattern.Scan.Quantifier

/-!
# Scanners that fail

What can be said of a scan that fails: for which causes it can, and that it does where a part of it does that it comes
to.

- `FailsOnly.bind`: a sequence fails for the causes that its parts fail for.
- `fails_of_run`: a failure is stamped with the place that the scan has come to.
- `Calls.run_error`: a scan fails with each scan that it comes to.
-/

namespace XmlPattern.Scan

variable {α β : Type}

/-! ## Causes -/

/-- A scanner fails for causes of one kind alone. -/
def FailsOnly (R : Reason → Prop) (p : Scan α) : Prop := ∀ ⦃s d t⦄, p.run s = (.error d, t) → R d.reason

section

variable {R : Reason → Prop} {p : Scan α} {f : α → Scan β}

theorem FailsOnly.bind (hp : FailsOnly R p) (hf : ∀ a, FailsOnly R (f a)) : FailsOnly R (p >>= f) := by
  intro s d t h
  rcases run_bind_eq_error.mp h with h | ⟨a, u, _, h⟩
  · exact hp h
  · exact hf a h

/-- What never fails fails for no cause. -/
theorem FailsOnly.of_run {g : ScanState → α} {k : ScanState → ScanState} (h : ∀ s, p.run s = (.ok (g s), k s)) :
    FailsOnly R p := by
  intro s d t hd
  cases (h s).symm.trans hd

theorem failsOnly_pure (a : α) : FailsOnly R (pure a : Scan α) := .of_run fun _ => rfl

theorem failsOnly_fail {r : Reason} (h : R r) : FailsOnly R (fail r : Scan α) := by
  intro s d t hd
  cases hd
  exact h

end

theorem FailsOnly.mono {R R' : Reason → Prop} {p : Scan α} (h : FailsOnly R p) (hR : ∀ r, R r → R' r) :
    FailsOnly R' p :=
  fun _ _ _ hd => hR _ (h hd)

/-- Digits are all that a bound can lack. -/
theorem failsOnly_digits (fuel : Nat) : FailsOnly (· = .expectedDigit) (digits fuel) := by
  induction fuel with
  | zero => exact failsOnly_fail rfl
  | succ fuel ih =>
    refine .bind (.of_run fun _ => rfl) fun c => ?_
    cases c with
    | none => exact failsOnly_fail rfl
    | some c =>
      have hrest : FailsOnly (· = .expectedDigit) (do
          advance
          if (← isAt ',') || (← isAt '\x7d') then return [c]
          return c :: (← digits fuel)) := by
        refine .bind (.of_run fun _ => rfl) fun _ => .bind (.of_run fun _ => rfl) fun b =>
          .bind (.of_run fun _ => rfl) fun b' => ?_
        split
        · exact failsOnly_pure _
        · exact ih.bind fun _ => failsOnly_pure _
      dsimp only
      split
      · exact hrest
      · exact FailsOnly.bind (failsOnly_fail rfl) fun _ => hrest

/-! ## One cause -/

/-- The scanner fails from a state for a cause, and has come to another state then. -/
def Fails (p : Scan α) (r : Reason) (s t : ScanState) : Prop := p.run s = (.error (t.diagnostic r), t)

section

variable {p : Scan α} {f : α → Scan β} {r : Reason} {s t : ScanState}

theorem fails_pure {a : α} : ¬ (pure a : Scan α).Fails r s t := by
  intro h
  cases h

theorem fails_fail {r' : Reason} : (fail r' : Scan α).Fails r s t ↔ r' = r ∧ t = s := by
  constructor
  · intro h
    obtain ⟨hd, rfl⟩ := Prod.mk.inj h
    exact ⟨congrArg Diagnostic.reason (Except.error.inj hd), rfl⟩
  · rintro ⟨rfl, rfl⟩
    rfl

theorem fails_bind : (p >>= f).Fails r s t ↔ p.Fails r s t ∨ ∃ a u, p.Finds s a u ∧ (f a).Fails r u t :=
  run_bind_eq_error

/-- A sequence whose first part is known. -/
theorem fails_bind_of_run {a : α} {u : ScanState} (h : p.run s = (.ok a, u)) :
    (p >>= f).Fails r s t ↔ (f a).Fails r u t := by
  rw [Fails, run_bind_of_run h, Fails]

/-- A sequence whose first part does not fail for the cause. -/
theorem FailsOnly.fails_bind {R : Reason → Prop} (hp : FailsOnly R p) (hr : ¬ R r) :
    (p >>= f).Fails r s t ↔ ∃ a u, p.Finds s a u ∧ (f a).Fails r u t := by
  rw [Scan.fails_bind, or_iff_right]
  exact fun h => hr (hp h)

/-- A failure is stamped with the place that the scan has come to. -/
theorem fails_of_run {d : Diagnostic} (h : p.run s = (.error d, t)) : p.Fails d.reason s t := by
  induction p generalizing s with
  | done a => cases h
  | command c =>
    cases c with
    | fail r =>
      cases h
      rfl
    | descend depth =>
      have h := (run_descend depth s).symm.trans h
      split at h
      · next hdeep =>
        cases h
        exact if_pos hdeep
      · cases h
    | _ => cases h
  | andThen p f ihp ihf =>
    rcases run_bind_eq_error.mp h with h | ⟨a, u, ha, h⟩
    · exact Scan.fails_bind.mpr (.inl (ihp h))
    · exact Scan.fails_bind.mpr (.inr ⟨a, u, ha, ihf a h⟩)

/-- So its diagnostic is told by its cause and by where the scan ends. -/
theorem stamped_of_run {d : Diagnostic} (h : p.run s = (.error d, t)) : d = t.diagnostic d.reason :=
  Except.error.inj (congrArg Prod.fst (h.symm.trans (fails_of_run h)))

end

/-! ## Parts that a scan comes to -/

/-- A scan, on its way from a state, comes to carry out another scanner from another state. -/
inductive Calls : {α β : Type} → Scan α → ScanState → Scan β → ScanState → Prop where
  | here {α : Type} (p : Scan α) (s : ScanState) : Calls p s p s
  | first {α β γ : Type} {p : Scan α} (f : α → Scan β) {q : Scan γ} {s t : ScanState} :
      Calls p s q t → Calls (p >>= f) s q t
  | behind {α β γ : Type} {p : Scan α} {f : α → Scan β} {q : Scan γ} {a : α} {s t u : ScanState} :
      p.Finds s a u → Calls (f a) u q t → Calls (p >>= f) s q t

/-- A scan fails where one that it comes to does. -/
theorem Calls.run_error {p : Scan α} {q : Scan β} {s t u : ScanState} {d : Diagnostic} (h : Calls p s q t)
    (hq : q.run t = (.error d, u)) : p.run s = (.error d, u) := by
  induction h with
  | here => exact hq
  | first f _ ih => exact run_bind_eq_error.mpr (.inl (ih hq))
  | behind hp _ ih => exact run_bind_eq_error.mpr (.inr ⟨_, _, hp, ih hq⟩)

/-- What a cursor keeps on its way holds wherever a scan comes to carry out another scanner. -/
theorem Calls.cursor {P : Cursor → Prop} (hadvance : ∀ c, P c → P c.advance)
    (hclass : ∀ c (b : Bool), P c → P { c with inClass := b }) {p : Scan α} {q : Scan β} {s t : ScanState}
    (h : Calls p s q t) (hs : P s.cursor) : P t.cursor := by
  induction h with
  | here => exact hs
  | first f _ ih => exact ih hs
  | @behind _ _ _ p f q a s t u hp _ ih =>
    exact ih (hp.state_eq ▸ cursor_run hadvance hclass p hs)

end XmlPattern.Scan
