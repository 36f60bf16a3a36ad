import XmlPattern.Proofs.Scan.Spelling

/-!
# Where a scan comes to

Where the cursor is behind events depends on the marks that they pass and on nothing else. Inside a class expression
every unit counts, so that the cursor is behind the closing bracket once it has passed the units in front of it.

- `follows_cursor`: the cursor behind events.
- `Cursor.past_inside`: the cursor behind units inside a class expression, and the one that closes it.
-/

namespace XmlPattern

open Grammar (Mark inside)

namespace Cursor

/-- The cursor behind marks, each of which it has passed in its mode. -/
def past : List Mark → Cursor → Cursor
  | [], c => c
  | (_, b) :: ms, c => past ms { c with inClass := b }.advance

/-- The mode that a cursor is in does not matter to where it comes to. -/
theorem past_mode (ms : List Mark) (c : Cursor) (b b' : Bool) :
    { past ms { c with inClass := b } with inClass := b' } = { past ms c with inClass := b' } := by
  cases ms <;> rfl

/-! ## Inside a class expression -/

theorem advance_of_rest {c : Cursor} {u : CodeUnit} {rest : List CodeUnit} (h : c.rest = u :: rest)
    (hc : c.inClass = true) : c.advance = { c with passed := u :: c.passed, rest, atEnd := false } := by
  simp [advance, take, skipping, h, hc]

theorem rest_of_advance {c : Cursor} {u : CodeUnit} (hc : c.inClass = true) (h : c.advance.current = some u) :
    ∃ rest, c.rest = u :: rest := by
  cases hr : c.rest with
  | nil => simp [advance, current, take, hr] at h
  | cons v rest =>
    rw [advance_of_rest hr hc] at h
    obtain rfl : v = u := Option.some.inj h
    exact ⟨rest, rfl⟩

variable {c : Cursor} {u v : CodeUnit} {us : List CodeUnit} {outer : Bool}

/-- Inside a class expression a cursor passes the units that are in front of it. -/
theorem exists_passes_inside_iff :
    (∃ x, Passes (inside (u :: us) ++ [(v, outer)]) c x) ↔
      c.current = some u ∧ ∃ rest, c.rest = us ++ v :: rest := by
  induction us generalizing c u with
  | nil =>
    constructor
    · rintro ⟨x, hu, hv, _⟩
      exact ⟨hu, rest_of_advance (c := { c with inClass := true }) rfl hv⟩
    · rintro ⟨hu, rest, hrest⟩
      refine ⟨_, hu, ?_, rfl⟩
      rw [advance_of_rest (c := { c with inClass := true }) hrest rfl]
      rfl
  | cons w us ih =>
    have hstep : (∃ x, Passes (inside (u :: w :: us) ++ [(v, outer)]) c x) ↔
        c.current = some u ∧ ∃ x, Passes (inside (w :: us) ++ [(v, outer)]) { c with inClass := true }.advance x :=
      exists_and_left
    rw [hstep, ih]
    refine and_congr_right fun _ => ?_
    constructor
    · rintro ⟨hw, rest, hrest⟩
      obtain ⟨rest', hrest'⟩ := rest_of_advance (c := { c with inClass := true }) rfl hw
      rw [advance_of_rest (c := { c with inClass := true }) hrest' rfl] at hrest
      exact ⟨rest, hrest'.trans (congrArg (w :: ·) hrest)⟩
    · rintro ⟨rest, hrest⟩
      have hnext := advance_of_rest (c := { c with inClass := true }) (hrest.trans (List.cons_append ..)) rfl
      rw [hnext]
      exact ⟨rfl, rest, rfl⟩

/--
Behind a class expression the cursor has passed its units and its closing bracket, and is on the next unit that counts.
-/
theorem past_inside {rest : List CodeUnit} (hrest : c.rest = us ++ v :: rest) :
    past (inside (u :: us) ++ [(v, outer)]) c =
      { c with passed := v :: (us.reverse ++ c.passed), rest, inClass := outer }.advance := by
  induction us generalizing c u with
  | nil =>
    show { Cursor.advance { c with inClass := true } with inClass := outer }.advance = _
    rw [advance_of_rest (c := { c with inClass := true }) hrest rfl]
    rfl
  | cons w us ih =>
    have hnext := advance_of_rest (c := { c with inClass := true }) hrest rfl
    show past (inside (w :: us) ++ [(v, outer)]) { c with inClass := true }.advance = _
    rw [hnext, ih rfl]
    simp [advance, skipping]

end Cursor

/-- The cursor behind events. -/
def cursorAfter (c : Cursor) (es : List Event) : Cursor :=
  { c.past (passed c.inClass es) with inClass := modeAfter c.inClass es }

theorem cursorAfter_mode (c : Cursor) (b : Bool) (es : List Event) :
    cursorAfter c (.mode b :: es) = cursorAfter { c with inClass := b } es :=
  (Cursor.past_mode ..).symm

theorem follows_cursor {es : List Event} {s s' : ScanState} (h : Follows es s s') :
    s'.cursor = cursorAfter s.cursor es := by
  induction es generalizing s with
  | nil => rw [h]; rfl
  | cons e es ih =>
    have hrest := ih h.tail
    cases e with
    | mode b => exact hrest.trans (cursorAfter_mode ..).symm
    | pass _ | write _ | opens | closes _ | warns _ => exact hrest

end XmlPattern
