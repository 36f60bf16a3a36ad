import Mathlib.Logic.Relation
import XmlPattern.Cursor

/-!
# Moves of the cursor

A cursor may be moved on, told whether it is in a class, and moved back where there is a unit to move back to, in any
order. Wherever it comes to, its place is told by its position alone, and the two ways to move undo each other. Between
a unit that counts and the next one there is a run of blanks, which may be empty: a cursor passes it as a whole either
way.

- `take_gap`, `giveBack_gap`: a run of blanks is passed as a whole.
- `OnCourse.moves`, `Reached.onCourse`: what one move keeps, and so what a run keeps.
- `reached_place`: where a cursor is, and where it moves to.
- `reached_undo`: moving back undoes moving on, and moving on undoes moving back.
-/

namespace XmlPattern

namespace Cursor

/-! ## Runs of blanks -/

/-- The units are blanks that are passed over. -/
def IsGap (skip : Bool) (us : List CodeUnit) : Prop := ∀ u ∈ us, (skip && u.isBlank) = true

variable {skip : Bool} {gap passed rest : List CodeUnit} {u : CodeUnit}

/-- Units are a gap, or there is a first one behind a gap that counts. -/
theorem isGap_or_exists (skip : Bool) (us : List CodeUnit) :
    IsGap skip us ∨ ∃ gap u rest, us = gap ++ u :: rest ∧ IsGap skip gap ∧ (skip && u.isBlank) = false := by
  induction us with
  | nil => exact .inl nofun
  | cons u us ih =>
    cases hu : skip && u.isBlank with
    | false => exact .inr ⟨[], u, us, rfl, nofun, hu⟩
    | true =>
      rcases ih with hgap | ⟨gap, v, rest, rfl, hgap, hv⟩
      · exact .inl (List.forall_mem_cons.mpr ⟨hu, hgap⟩)
      · exact .inr ⟨u :: gap, v, rest, rfl, List.forall_mem_cons.mpr ⟨hu, hgap⟩, hv⟩

theorem take_gap (h : IsGap skip gap) (passed rest : List CodeUnit) :
    take skip passed (gap ++ rest) = take skip (gap.reverse ++ passed) rest := by
  induction gap generalizing passed with
  | nil => rfl
  | cons u gap ih =>
    obtain ⟨hu, hgap⟩ := List.forall_mem_cons.mp h
    rw [List.cons_append, take, if_pos hu, ih hgap, List.reverse_cons, List.append_assoc, List.singleton_append]

theorem giveBack_gap (h : IsGap skip gap) (passed rest : List CodeUnit) :
    giveBack skip (gap ++ passed) rest = giveBack skip passed (gap.reverse ++ rest) := by
  induction gap generalizing rest with
  | nil => rfl
  | cons u gap ih =>
    obtain ⟨hu, hgap⟩ := List.forall_mem_cons.mp h
    rw [List.cons_append, giveBack, if_pos hu, ih hgap, List.reverse_cons, List.append_assoc, List.singleton_append]

/-- Behind a gap the first unit that counts is taken. -/
theorem take_gap_unit (h : IsGap skip gap) (hu : (skip && u.isBlank) = false) :
    take skip passed (gap ++ u :: rest) = (u :: (gap.reverse ++ passed), rest, false) := by
  rw [take_gap h, take, if_neg (Bool.eq_false_iff.mp hu)]

/-- Behind a gap that nothing follows the end is reached. -/
theorem take_gap_end (h : IsGap skip gap) : take skip passed gap = (gap.reverse ++ passed, [], true) := by
  have htake := take_gap h passed []
  rwa [List.append_nil] at htake

/-- In front of a gap the last unit that counts is given back. -/
theorem giveBack_gap_unit (h : IsGap skip gap) (hu : (skip && u.isBlank) = false) :
    giveBack skip (gap ++ u :: passed) rest = (u :: passed, gap.reverse ++ rest) := by
  rw [giveBack_gap h, giveBack, if_neg (Bool.eq_false_iff.mp hu)]

theorem IsGap.reverse (h : IsGap skip gap) : IsGap skip gap.reverse := fun u hu => h u (List.mem_reverse.mp hu)

/-! ## Moves -/

/-- Whether a unit counts where the cursor is: blanks do not where they are passed over. -/
def counts (c : Cursor) (u : CodeUnit) : Bool := !(c.skipping && u.isBlank)

/-- A unit in front of the current one counts. -/
def HasEarlier (c : Cursor) : Prop := ∃ i u, i + 1 < c.position ∧ c.expression[i]? = some u ∧ c.counts u = true

/-- One move. A cursor moves back only where there is a unit to move back to. -/
inductive Moves : Cursor → Cursor → Prop where
  | advance (c : Cursor) : Moves c c.advance
  | setInClass (c : Cursor) (b : Bool) : Moves c { c with inClass := b }
  | retreat {c : Cursor} (h : c.HasEarlier) : Moves c c.retreat

/-- A cursor on an expression may come to be so. -/
def Reached (units : List CodeUnit) (folding : Bool) (c : Cursor) : Prop :=
  Relation.ReflTransGen Moves (ofUnits units folding) c

/-- What every move keeps: at the end no units are to come. -/
structure OnCourse (units : List CodeUnit) (folding : Bool) (c : Cursor) : Prop where
  expression : c.expression = units
  folding : c.folding = folding
  atEnd : c.atEnd = true → c.rest = []

variable {units : List CodeUnit} {folding : Bool} {c d : Cursor}

theorem counts_eq_true : c.counts u = true ↔ (c.skipping && u.isBlank) = false := by
  rw [counts, Bool.not_eq_true']

theorem counts_eq_false : c.counts u = false ↔ (c.skipping && u.isBlank) = true := by
  rw [counts, Bool.not_eq_false']

theorem onCourse_ofUnits (units : List CodeUnit) (folding : Bool) : OnCourse units folding (ofUnits units folding) :=
  ⟨expression_ofUnits .., rfl, nofun⟩

theorem atEnd_advance (c : Cursor) : c.advance.atEnd = true → c.advance.rest = [] := by
  rcases isGap_or_exists c.skipping c.rest with hgap | ⟨gap, u, rest, hrest, hgap, hu⟩
  · intro _
    rw [advance, take_gap_end hgap]
  · rw [advance, hrest, take_gap_unit hgap hu]
    nofun

theorem OnCourse.moves (h : OnCourse units folding c) (hm : Moves c d) : OnCourse units folding d := by
  cases hm with
  | advance => exact ⟨c.expression_advance.trans h.expression, h.folding, c.atEnd_advance⟩
  | setInClass b => exact ⟨h.expression, h.folding, h.atEnd⟩
  | retreat => exact ⟨c.expression_retreat.trans h.expression, h.folding, nofun⟩

theorem Reached.onCourse (h : Reached units folding c) : OnCourse units folding c := by
  induction h with
  | refl => exact onCourse_ofUnits units folding
  | tail _ hm ih => exact ih.moves hm

/-! ## Places -/

/-- An index is the first from another one on whose unit is of a kind. -/
def FirstFrom (units : List CodeUnit) (kind : CodeUnit → Bool) (q i : Nat) : Prop :=
  q ≤ i ∧ (∃ u, units[i]? = some u ∧ kind u = true) ∧ ∀ j u, q ≤ j → j < i → units[j]? = some u → kind u = false

/-- An index is the last whose unit is of a kind and in front of the one that a position is behind. -/
def LastBefore (units : List CodeUnit) (kind : CodeUnit → Bool) (q i : Nat) : Prop :=
  i + 1 < q ∧ (∃ u, units[i]? = some u ∧ kind u = true) ∧ ∀ j u, i < j → j + 1 < q → units[j]? = some u → kind u = false

namespace OnCourse

variable (h : OnCourse units folding c)

include h

theorem units_eq : units = c.passed.reverse ++ c.rest := h.expression.symm

theorem position_of_end (hend : c.atEnd = true) : c.position = units.length + 1 := by
  simp [h.units_eq, h.atEnd hend, position, hend]

theorem position_of_not_end (hend : c.atEnd = false) : c.position = c.passed.length ∧ c.position ≤ units.length := by
  simp [h.units_eq, position, hend]

theorem position_le : c.position ≤ units.length + 1 := by
  cases hend : c.atEnd with
  | true => exact Nat.le_of_eq (h.position_of_end hend)
  | false => exact Nat.le_succ_of_le (h.position_of_not_end hend).2

/-- The end is told by the position. -/
theorem atEnd_iff : c.atEnd = true ↔ c.position = units.length + 1 := by
  refine ⟨h.position_of_end, fun hposition => ?_⟩
  cases hend : c.atEnd with
  | true => rfl
  | false =>
    have hle := (h.position_of_not_end hend).2
    omega

/-- The current unit is the one that the position is behind. -/
theorem current_eq (hend : c.atEnd = false) (hpos : 0 < c.position) :
    ∃ u passed, c.passed = u :: passed ∧ c.current = some u ∧ units[c.position - 1]? = some u := by
  have hposition := (h.position_of_not_end hend).1
  cases hp : c.passed with
  | nil =>
    rw [hposition, hp] at hpos
    exact absurd hpos (Nat.lt_irrefl 0)
  | cons u passed =>
    refine ⟨u, passed, rfl, ?_, ?_⟩
    · rw [current, hend, hp]
      rfl
    · rw [hposition, h.units_eq, hp]
      simp

/-- What is to come begins at the position. -/
theorem getElem?_rest {j : Nat} (hj : c.position ≤ j) : units[j]? = c.rest[j - c.passed.length]? := by
  have hle : c.passed.length ≤ c.position := Nat.le_add_right _ _
  rw [h.units_eq, List.getElem?_append_right (by rw [List.length_reverse]; omega), List.length_reverse]

/-- Moving on leads to the first unit from the position on that counts, or to the end. -/
theorem advance_lands : (∃ i, FirstFrom units c.counts c.position i ∧ c.advance.position = i + 1) ∨
    (∀ j u, c.position ≤ j → units[j]? = some u → c.counts u = false) ∧ c.advance.atEnd = true := by
  rcases isGap_or_exists c.skipping c.rest with hgap | ⟨gap, u, rest, hrest, hgap, hu⟩
  · right
    refine ⟨fun j v hj hv => ?_, by rw [advance, take_gap_end hgap]⟩
    rw [h.getElem?_rest hj] at hv
    exact counts_eq_false.mpr (hgap v (List.mem_of_getElem? hv))
  · left
    have hend : c.atEnd = false := by
      refine Bool.eq_false_iff.mpr fun hend => ?_
      rw [h.atEnd hend] at hrest
      simp at hrest
    have hposition := (h.position_of_not_end hend).1
    refine ⟨c.position + gap.length, ⟨Nat.le_add_right _ _, ⟨u, ?_, counts_eq_true.mpr hu⟩, ?_⟩, ?_⟩
    · rw [h.getElem?_rest (Nat.le_add_right _ _), hrest, hposition]
      simp
    · intro j v hj hlt hv
      rw [h.getElem?_rest hj, hrest, List.getElem?_append_left (by omega)] at hv
      exact counts_eq_false.mpr (hgap v (List.mem_of_getElem? hv))
    · rw [advance, hrest, take_gap_unit hgap hu, hposition]
      simp [position, Nat.add_comm]

/--
From behind its first advance on, a cursor has units behind it and ahead of it, and moves back over those behind it.
-/
theorem exists_behind (hpos : 0 < c.position) : ∃ behind ahead, units = behind.reverse ++ ahead ∧
    c.position = behind.length + 1 ∧
    c.retreat = { c with
      passed := (giveBack c.skipping behind ahead).1, rest := (giveBack c.skipping behind ahead).2, atEnd := false } ∧
    (c.atEnd = true ∧ c.passed = behind ∧ ahead = [] ∨
      c.atEnd = false ∧ ∃ u, c.current = some u ∧ c.passed = u :: behind ∧ ahead = u :: c.rest) := by
  cases hend : c.atEnd with
  | true =>
    refine ⟨c.passed, c.rest, h.units_eq, ?_, ?_, .inl ⟨rfl, rfl, h.atEnd hend⟩⟩
    · rw [position, if_pos hend]
    · rw [retreat, if_pos hend]
  | false =>
    obtain ⟨u, passed, hpassed, hcurrent, _⟩ := h.current_eq hend hpos
    refine ⟨passed, u :: c.rest, ?_, ?_, ?_, .inr ⟨rfl, u, hcurrent, hpassed, rfl⟩⟩
    · simp [h.units_eq, hpassed]
    · rw [(h.position_of_not_end hend).1, hpassed, List.length_cons]
    · rw [retreat, if_neg (Bool.eq_false_iff.mp hend), hpassed]

/--
Where a unit counts in front of the current one, there is a last such unit, and moving back passes the gap behind it.
-/
theorem exists_earlier (hc : c.HasEarlier) :
    ∃ gap u passed ahead, IsGap c.skipping gap ∧ (c.skipping && u.isBlank) = false ∧
    units = passed.reverse ++ u :: (gap.reverse ++ ahead) ∧ c.position = passed.length + 1 + gap.length + 1 ∧
    c.retreat = { c with passed := u :: passed, rest := gap.reverse ++ ahead, atEnd := false } ∧
    (c.atEnd = true ∧ c.passed = gap ++ u :: passed ∧ ahead = [] ∨
      c.atEnd = false ∧ ∃ v, c.current = some v ∧ c.passed = v :: (gap ++ u :: passed) ∧ ahead = v :: c.rest) := by
  obtain ⟨i, w, hi, hw, hcounts⟩ := hc
  obtain ⟨behind, ahead, hunits, hposition, hretreat, hcases⟩ := h.exists_behind (Nat.zero_lt_of_lt hi)
  rcases isGap_or_exists c.skipping behind with hgap | ⟨gap, u, passed, rfl, hgap, hu⟩
  · rw [h.expression, hunits, List.getElem?_append_left (by rw [List.length_reverse]; omega)] at hw
    have hblank := hgap w (List.mem_reverse.mp (List.mem_of_getElem? hw))
    rw [counts_eq_true, hblank] at hcounts
    cases hcounts
  · rw [giveBack_gap_unit hgap hu] at hretreat
    refine ⟨gap, u, passed, ahead, hgap, hu, by simpa using hunits, ?_, hretreat, hcases⟩
    simp only [hposition, List.length_append, List.length_cons]
    omega

/-- Moving back leads to the last unit in front of the current one that counts. -/
theorem retreat_lands (hc : c.HasEarlier) :
    ∃ i, LastBefore units c.counts c.position i ∧ c.retreat.position = i + 1 := by
  obtain ⟨gap, u, passed, ahead, hgap, hu, hunits, hposition, hretreat, _⟩ := h.exists_earlier hc
  refine ⟨passed.length, ⟨by omega, ⟨u, by simp [hunits], counts_eq_true.mpr hu⟩, fun j v hj hlt hv => ?_⟩,
    by rw [hretreat]; rfl⟩
  obtain ⟨k, rfl⟩ := Nat.exists_eq_add_of_lt hj
  have hk : k < gap.length := by omega
  rw [hunits, List.getElem?_append_right (by simp; omega), List.length_reverse,
    show passed.length + k + 1 - passed.length = k + 1 by omega, List.getElem?_cons_succ,
    List.getElem?_append_left (by simpa using hk)] at hv
  exact counts_eq_false.mpr (hgap v (List.mem_reverse.mp (List.mem_of_getElem? hv)))

end OnCourse

/--
Wherever a run of moves brings a cursor, its position is at most one more than the length of the expression, and only so
at the end; it is on the unit that its position is behind, and reads NUL at the end and before the first unit. Moving on
leads to the first unit from its position on that counts, or to the end if none does; moving back leads to the last unit
in front of the current one that counts. All units count but blanks, and these too unless they fold.
-/
theorem reached_place (h : Reached units folding c) :
    c.position ≤ units.length + 1 ∧ (c.atEnd = true ↔ c.position = units.length + 1) ∧
      (c.atEnd = true ∨ c.position = 0 → c.current.getD 0 = 0) ∧
      (c.atEnd = false → 0 < c.position → ∃ u, units[c.position - 1]? = some u ∧ c.current = some u) ∧
      (∀ u, c.counts u = !(folding && !c.inClass && u.isBlank)) ∧
      ((∃ i, FirstFrom units c.counts c.position i ∧ c.advance.position = i + 1) ∨
        (∀ j u, c.position ≤ j → units[j]? = some u → c.counts u = false) ∧ c.advance.atEnd = true) ∧
      (c.HasEarlier → ∃ i, LastBefore units c.counts c.position i ∧ c.retreat.position = i + 1) := by
  have hcourse := h.onCourse
  refine ⟨hcourse.position_le, hcourse.atEnd_iff, ?_, fun hend hpos => ?_, fun u => ?_, hcourse.advance_lands,
    hcourse.retreat_lands⟩
  · rintro (hend | hpos)
    · rw [current, if_pos hend]
      rfl
    · have hpassed : c.passed = [] := List.eq_nil_of_length_eq_zero (by unfold position at hpos; omega)
      rw [current, hpassed]
      split <;> rfl
  · obtain ⟨u, _, _, hcurrent, hu⟩ := hcourse.current_eq hend hpos
    exact ⟨u, hu, hcurrent⟩
  · rw [counts, skipping, hcourse.folding]

/-- Behind a class that has been left on a blank, the cursor moves back to the bracket in front of the blank. -/
theorem reached_place_blank :
    let c : Cursor := ⟨CodeUnit.encode " [ x".toList, CodeUnit.encode "y".toList, false, true, false⟩
    Reached (CodeUnit.encode "x [ y".toList) true c ∧ c.HasEarlier ∧
      ∃ i, LastBefore (CodeUnit.encode "x [ y".toList) c.counts 4 i ∧ c.retreat.position = i + 1 := by
  intro c
  have hreached : Reached (CodeUnit.encode "x [ y".toList) true c :=
    .tail (.tail (.tail (.tail (.tail .refl (.advance _)) (.advance _)) (.setInClass _ true)) (.advance _))
      (.setInClass _ false)
  have hearlier : c.HasEarlier := ⟨2, 0x5B, by decide, by decide, by decide⟩
  obtain ⟨_, _, _, _, _, _, hretreat⟩ := reached_place hreached
  exact ⟨hreached, hearlier, hretreat hearlier⟩

/-! ## Undoing a move -/

/-- The cursor is on a unit that counts. -/
def Loaded (c : Cursor) : Prop := c.atEnd = false ∧ 0 < c.position ∧ ∀ u ∈ c.current, c.counts u = true

namespace OnCourse

variable (h : OnCourse units folding c)

include h

/-- From where a cursor has moved on to it may move back. -/
theorem hasEarlier_advance (hl : c.Loaded) : c.advance.HasEarlier := by
  obtain ⟨hend, hpos, hcounts⟩ := hl
  obtain ⟨u, _, _, hcurrent, hu⟩ := h.current_eq hend hpos
  refine ⟨c.position - 1, u, ?_, ?_, hcounts u hcurrent⟩
  · have hle := (h.position_of_not_end hend).2
    rcases h.advance_lands with ⟨i, ⟨hi, _⟩, hadvance⟩ | ⟨_, hadvance⟩
    · omega
    · rw [(h.moves (.advance c)).position_of_end hadvance]
      omega
  · rw [c.expression_advance, h.expression, hu]

/-- The gap that has been passed is given back, and the unit in front of it counts. -/
theorem retreat_advance (hl : c.Loaded) : c.advance.retreat = c := by
  obtain ⟨hend, hpos, hcounts⟩ := hl
  obtain ⟨u, passed, hpassed, hcurrent, _⟩ := h.current_eq hend hpos
  have hu := counts_eq_true.mp (hcounts u hcurrent)
  have hskip : c.advance.skipping = c.skipping := rfl
  rcases isGap_or_exists c.skipping c.rest with hgap | ⟨gap, v, rest, hrest, hgap, hv⟩
  · have hadvance : c.advance = { c with passed := c.rest.reverse ++ u :: passed, rest := [], atEnd := true } := by
      rw [advance, take_gap_end hgap, hpassed]
    have hback : giveBack c.skipping (c.rest.reverse ++ u :: passed) [] = (u :: passed, c.rest.reverse.reverse ++ []) :=
      giveBack_gap_unit hgap.reverse hu
    rw [retreat, hskip, hadvance]
    simp only [if_true, hback, List.reverse_reverse, List.append_nil]
    rw [← hpassed, ← hend]
  · have hadvance : c.advance = { c with passed := v :: (gap.reverse ++ u :: passed), rest, atEnd := false } := by
      rw [advance, hrest, take_gap_unit hgap hv, hpassed]
    have hback : giveBack c.skipping (gap.reverse ++ u :: passed) (v :: rest) =
        (u :: passed, gap.reverse.reverse ++ v :: rest) := giveBack_gap_unit hgap.reverse hu
    rw [retreat, hskip, hadvance]
    simp only [Bool.false_eq_true, if_false, hback, List.reverse_reverse]
    rw [← hpassed, ← hrest, ← hend]

/-- The gap that has been given back is passed again, and the unit behind it counts. -/
theorem advance_retreat (hl : c.Loaded ∨ c.atEnd = true) (hc : c.HasEarlier) : c.retreat.advance = c := by
  obtain ⟨gap, u, passed, ahead, hgap, _, _, _, hretreat, ⟨hend, hpassed, rfl⟩ | ⟨hend, v, hcurrent, hpassed, rfl⟩⟩ :=
    h.exists_earlier hc
  · have htake : take c.skipping (u :: passed) gap.reverse = (gap.reverse.reverse ++ u :: passed, [], true) :=
      take_gap_end hgap.reverse
    have hadvance : c.retreat.advance = { c with passed := gap ++ u :: passed, rest := [], atEnd := true } := by
      rw [hretreat, List.append_nil]
      show { c with
        passed := (take c.skipping (u :: passed) gap.reverse).1,
        rest := (take c.skipping (u :: passed) gap.reverse).2.1,
        atEnd := (take c.skipping (u :: passed) gap.reverse).2.2 } = _
      rw [htake, List.reverse_reverse]
    rw [hadvance, ← hpassed, ← h.atEnd hend, ← hend]
  · obtain ⟨_, _, hcounts⟩ := hl.resolve_right (by rw [hend]; decide)
    have hv := counts_eq_true.mp (hcounts v hcurrent)
    have htake : take c.skipping (u :: passed) (gap.reverse ++ v :: c.rest) =
        (v :: (gap.reverse.reverse ++ u :: passed), c.rest, false) := take_gap_unit hgap.reverse hv
    have hadvance : c.retreat.advance = { c with passed := v :: (gap ++ u :: passed), atEnd := false } := by
      rw [hretreat]
      show { c with
        passed := (take c.skipping (u :: passed) (gap.reverse ++ v :: c.rest)).1,
        rest := (take c.skipping (u :: passed) (gap.reverse ++ v :: c.rest)).2.1,
        atEnd := (take c.skipping (u :: passed) (gap.reverse ++ v :: c.rest)).2.2 } = _
      rw [htake, List.reverse_reverse]
    rw [hadvance, ← hpassed, ← hend]

end OnCourse

/--
Wherever a run of moves brings a cursor, moving on from a unit that counts may be undone by moving back, and moving back
from such a unit, or from the end, to an earlier one is undone by moving on.
-/
theorem reached_undo (h : Reached units folding c) :
    (c.Loaded → c.advance.HasEarlier ∧ c.advance.retreat = c) ∧
      (c.Loaded ∨ c.atEnd = true → c.HasEarlier → c.retreat.advance = c) :=
  ⟨fun hl => ⟨h.onCourse.hasEarlier_advance hl, h.onCourse.retreat_advance hl⟩, h.onCourse.advance_retreat⟩

/-- From the last unit of an expression over the blanks behind it to the end, and back. -/
theorem reached_undo_blanks :
    let c : Cursor := ⟨CodeUnit.encode "b a".toList, CodeUnit.encode " \t".toList, false, true, false⟩
    Reached (CodeUnit.encode "a b \t".toList) true c ∧ c.Loaded ∧ c.advance.atEnd = true ∧
      c.advance.retreat = c ∧ c.advance.retreat.advance = c.advance := by
  intro c
  have hreached : Reached (CodeUnit.encode "a b \t".toList) true c := .tail (.tail .refl (.advance _)) (.advance _)
  have hloaded : c.Loaded := by
    refine ⟨rfl, by decide, ?_⟩
    rintro _ ⟨⟩
    decide
  obtain ⟨hearlier, hundo⟩ := (reached_undo hreached).1 hloaded
  have hredo := (reached_undo (hreached.tail (.advance c))).2 (.inr (by decide)) hearlier
  exact ⟨hreached, hloaded, by decide, hundo, hredo⟩

end Cursor

end XmlPattern
