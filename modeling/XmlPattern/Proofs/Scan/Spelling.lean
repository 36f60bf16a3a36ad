import XmlPattern.Proofs.Scan.Event

/-!
# Passing an expression

A scan that takes all of an expression passes marks that the expression spells, and there is such a scan for whatever an
expression spells. Blanks that do not count are what `Cursor.take` leaves out.

- `spells_iff_take`: the next mark that an expression spells is what the cursor takes from it.
- `follows_to_end_iff`: events lead from the start of an expression to its end if it spells what they pass.
-/

namespace XmlPattern

open Grammar (Mark Spells)

namespace Cursor

/-- A cursor passes marks, in the mode of each, and is on the given unit then. -/
def Passes : List Mark → Cursor → Option CodeUnit → Prop
  | [], c, x => c.current = x
  | (u, b) :: ms, c, x => c.current = some u ∧ Passes ms { c with inClass := b }.advance x

theorem passes_mode {ms : List Mark} {c : Cursor} {b : Bool} {x : Option CodeUnit} :
    Passes ms { c with inClass := b } x ↔ Passes ms c x := by
  cases ms with
  | nil => rfl
  | cons m ms => rfl

theorem spells_iff_take {fold b : Bool} {ms : List Mark} {p us : List CodeUnit} :
    Spells fold b ms us ↔
      if (take (fold && !b) p us).2.2 then ms = []
      else ∃ b' ms', ms = ((take (fold && !b) p us).1.headD 0, b') :: ms' ∧
        Spells fold b' ms' (take (fold && !b) p us).2.1 := by
  induction us generalizing p with
  | nil =>
    constructor
    · intro h
      cases h
      rfl
    · intro h
      cases (show ms = [] from h)
      exact .nil
  | cons u us ih =>
    unfold take
    by_cases hu : ((fold && !b) && u.isBlank) = true
    · rw [if_pos hu]
      rw [Bool.and_eq_true, Bool.and_eq_true, Bool.not_eq_true'] at hu
      obtain ⟨⟨rfl, rfl⟩, hu⟩ := hu
      rw [← ih]
      constructor
      · intro h
        cases h with
        | blank _ _ h => exact h
        | unit hb _ => exact absurd (hb rfl rfl) (by rw [hu]; decide)
      · exact .blank rfl hu
    · rw [if_neg hu]
      simp only [Bool.false_eq_true, if_false, List.headD_cons]
      constructor
      · intro h
        cases h with
        | blank hf hb _ => exact absurd (by rw [hf, hb]; rfl) hu
        | unit _ h => exact ⟨_, _, rfl, h⟩
      · rintro ⟨b', ms', rfl, h⟩
        refine .unit (fun hf hb => ?_) h
        rw [hf, hb] at hu
        exact Bool.eq_false_iff.mpr hu

theorem spells_iff_advance {ms : List Mark} {c : Cursor} :
    Spells c.folding c.inClass ms c.rest ↔
      if c.advance.atEnd then ms = []
      else ∃ b' ms', ms = (c.advance.passed.headD 0, b') :: ms' ∧ Spells c.folding b' ms' c.advance.rest :=
  spells_iff_take

theorem passes_iff_spells {ms : List Mark} {c : Cursor} :
    Passes ms c.advance none ↔ Spells c.folding c.inClass ms c.rest := by
  induction ms generalizing c with
  | nil =>
    rw [spells_iff_advance]
    unfold Passes current
    cases c.advance.atEnd with
    | true =>
      rw [if_pos rfl]
      simp
    | false =>
      rw [if_neg Bool.false_ne_true]
      simp
  | cons m ms ih =>
    rw [spells_iff_advance]
    simp only [Passes, ih]
    unfold current
    cases c.advance.atEnd with
    | true =>
      rw [if_pos rfl]
      simp
    | false =>
      rw [if_neg Bool.false_ne_true, if_neg Bool.false_ne_true]
      constructor
      · rintro ⟨h₁, h₂⟩
        exact ⟨m.2, ms, by rw [Option.some.inj h₁], h₂⟩
      · rintro ⟨b', ms', h₁, h₂⟩
        cases h₁
        exact ⟨rfl, h₂⟩

end Cursor

theorem exists_follows_iff {es : List Event} {s : ScanState} {x : Option CodeUnit} :
    (∃ s', Follows es s s' ∧ s'.cursor.current = x) ↔ s.cursor.Passes (passed s.cursor.inClass es) x := by
  induction es generalizing s with
  | nil => simp [passed, Cursor.Passes]
  | cons e es ih =>
    cases e with
    | pass u => simp only [follows_pass, and_assoc, exists_and_left, ih, passed, Cursor.Passes]; rfl
    | mode b =>
      simp only [follows_mode, ih, passed]
      exact Cursor.passes_mode
    | write f => exact ih (s := s.write f)
    | opens => exact ih (s := s.openGroup)
    | closes n => exact ih (s := s.closeGroup n)
    | warns r => exact ih (s := s.warn r)

/-- Events lead from the start of an expression to its end if it spells what they pass. -/
theorem follows_to_end_iff {es : List Event} {o : Options} {units : List CodeUnit} :
    (∃ s', Follows es (ScanState.ofUnits o units).advance s' ∧ s'.cursor.current = none) ↔
      Spells o.foldBlanks false (passed false es) units := by
  rw [exists_follows_iff]
  exact Cursor.passes_iff_spells

end XmlPattern
