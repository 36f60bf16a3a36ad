import XmlPattern.Proofs.Grammar.Tree
import XmlPattern.Proofs.Text.Unit

/-!
# Places in an expression

Where a unit stands can be told without the grammar, from the brackets and backslashes in front of it: `Place.step` goes
from the place of a unit to the place behind it. A backslash takes the next unit with it, and `\p` and `\P` a whole name
in braces.

Outside brackets blanks may be left out. `stripped` leaves them out, and `keptOffsets` tells where the units that are
kept have stood, the end of the expression included (`map_keptOffsets`).
-/

namespace XmlPattern.Grammar

/-! ## Places -/

/-- What has begun in front of a place. -/
inductive Phase where
  | plain
  /-- A backslash. -/
  | escape
  /-- A backslash and the letter that a name in braces follows. -/
  | property
  /-- A name in braces. -/
  | name
  deriving DecidableEq, Repr

/-- A place in an expression: how many brackets are open around it, and what has begun in front of it. -/
structure Place where
  depth : Nat := 0
  phase : Phase := .plain
  deriving DecidableEq, Repr

namespace Place

/-- The place behind a unit. -/
def step (p : Place) (u : CodeUnit) : Place :=
  match p.phase, u.toAscii? with
  | .escape, some 'p' | .escape, some 'P' => ⟨p.depth, .property⟩
  | .escape, _ => ⟨p.depth, .plain⟩
  | .property, some '\x7b' => ⟨p.depth, .name⟩
  | .name, some '\x7d' => ⟨p.depth, .plain⟩
  | .name, _ => ⟨p.depth, .name⟩
  | _, some '\\' => ⟨p.depth, .escape⟩
  | _, some '[' => ⟨p.depth + 1, .plain⟩
  | _, some ']' => ⟨p.depth - 1, .plain⟩
  | _, _ => ⟨p.depth, .plain⟩

/-- The characters that mean something by themselves. -/
def signs : List Char := ['\\', '[', ']']

theorem not_mem_signs_of_isDigit {c : Char} (h : c.isDigit = true) : c ∉ '(' :: signs := by
  simp only [signs, List.mem_cons, List.not_mem_nil, or_false]
  rintro (rfl | rfl | rfl | rfl) <;> cases h

theorem step_plain {d : Nat} {u : CodeUnit} (h : ∀ c ∈ u.toAscii?, c ∉ signs) : step ⟨d, .plain⟩ u = ⟨d, .plain⟩ := by
  unfold step
  cases hu : u.toAscii? with
  | none => rfl
  | some c =>
    have hc := h c hu
    simp only [signs, List.mem_cons, List.not_mem_nil, or_false, not_or] at hc
    simp [hc]

@[simp]
theorem step_backslash (d : Nat) : step ⟨d, .plain⟩ (unit '\\') = ⟨d, .escape⟩ := rfl

@[simp]
theorem step_open (d : Nat) : step ⟨d, .plain⟩ (unit '[') = ⟨d + 1, .plain⟩ := rfl

@[simp]
theorem step_close (d : Nat) : step ⟨d + 1, .plain⟩ (unit ']') = ⟨d, .plain⟩ := rfl

theorem step_letter {d : Nat} {u : CodeUnit} (h : ∀ c ∈ u.toAscii?, c ≠ 'p' ∧ c ≠ 'P') :
    step ⟨d, .escape⟩ u = ⟨d, .plain⟩ := by
  unfold step
  cases hu : u.toAscii? with
  | none => rfl
  | some c =>
    have hc := h c hu
    simp [hc]

theorem step_property {d : Nat} {c : Char} (h : c = 'p' ∨ c = 'P') : step ⟨d, .escape⟩ (unit c) = ⟨d, .property⟩ := by
  rcases h with rfl | rfl <;> rfl

@[simp]
theorem step_brace (d : Nat) : step ⟨d, .property⟩ (unit '\x7b') = ⟨d, .name⟩ := rfl

theorem step_name {d : Nat} {u : CodeUnit} (h : u ≠ unit '\x7d') : step ⟨d, .name⟩ u = ⟨d, .name⟩ := by
  unfold step
  cases hu : u.toAscii? with
  | none => rfl
  | some c =>
    have hc : c ≠ '\x7d' := by
      rintro rfl
      exact h (CodeUnit.toAscii?_eq_some.mp hu).2
    simp [hc]

@[simp]
theorem step_brace_close (d : Nat) : step ⟨d, .name⟩ (unit '\x7d') = ⟨d, .plain⟩ := rfl

/-- Blanks may be left out outside brackets. -/
def skips (p : Place) (u : CodeUnit) : Bool := p.depth == 0 && u.isBlank

end Place

/-! ## What is kept of an expression -/

/-- The units behind a place, without blanks outside brackets. -/
def strip (p : Place) : List CodeUnit → List CodeUnit
  | [] => []
  | u :: us => if p.skips u then strip p us else u :: strip (p.step u) us

/-- The offsets of the units that are kept, and that of the end, if the place has the given one. -/
def offsets (p : Place) (i : Nat) : List CodeUnit → List Nat
  | [] => [i]
  | u :: us => if p.skips u then offsets p (i + 1) us else i :: offsets (p.step u) (i + 1) us

/-- An expression without blanks outside brackets. -/
def stripped (units : List CodeUnit) : List CodeUnit := strip {} units

/-- Where the units that are kept of an expression have stood, and its end. -/
def keptOffsets (units : List CodeUnit) : List Nat := offsets {} 0 units

theorem map_offsets (p : Place) (front us : List CodeUnit) :
    (offsets p front.length us).map ((front ++ us)[·]?) = (strip p us).map some ++ [none] := by
  induction us generalizing p front with
  | nil => simp [offsets, strip]
  | cons u us ih =>
    have h : ∀ q, (offsets q (front.length + 1) us).map ((front ++ u :: us)[·]?) = (strip q us).map some ++ [none] := by
      intro q
      rw [List.append_cons, ← ih q (front ++ [u]), List.length_append, List.length_singleton]
    unfold offsets strip
    split
    · exact h p
    · simp [h]

/-- The units at the kept offsets are those that are kept, and nothing stands at the end. -/
theorem map_keptOffsets (units : List CodeUnit) :
    (keptOffsets units).map (units[·]?) = (stripped units).map some ++ [none] :=
  map_offsets {} [] units

theorem le_of_mem_offsets {p : Place} {i k : Nat} {us : List CodeUnit} (h : k ∈ offsets p i us) : i ≤ k := by
  induction us generalizing p i with
  | nil => exact Nat.le_of_eq (List.mem_singleton.mp h).symm
  | cons u us ih =>
    unfold offsets at h
    split at h
    · exact Nat.le_of_succ_le (ih h)
    · rcases List.mem_cons.mp h with rfl | h
      · exact Nat.le_refl _
      · exact Nat.le_of_succ_le (ih h)

/-- Units are kept in order. -/
theorem keptOffsets_increasing (units : List CodeUnit) : (keptOffsets units).Pairwise (· < ·) := by
  suffices h : ∀ p i, (offsets p i units).Pairwise (· < ·) from h {} 0
  induction units with
  | nil => exact fun _ _ => List.pairwise_singleton _ _
  | cons u us ih =>
    intro p i
    unfold offsets
    split
    · exact ih p (i + 1)
    · exact List.pairwise_cons.mpr ⟨fun k hk => le_of_mem_offsets hk, ih _ _⟩

/-! ## Capturing parentheses -/

/-- Whether a unit begins a group that captures, by what comes behind it. -/
def beginsCapture (u : CodeUnit) (behind : List CodeUnit) : Bool :=
  u == unit '(' && !(basic ['?', ':']).isPrefixOf behind

/-- The offsets of the parentheses that begin a group that captures, if the place has the given one. -/
def openings (p : Place) (i : Nat) : List CodeUnit → List Nat
  | [] => []
  | u :: us =>
    if p == {} && beginsCapture u us then i :: openings (p.step u) (i + 1) us else openings (p.step u) (i + 1) us

/--
The offsets of the capturing parentheses of an expression: no backslash takes them, and they stand outside brackets.
-/
def capturingParens (units : List CodeUnit) : List Nat := openings {} 0 units

example : capturingParens (CodeUnit.encode "(a[(]\\((?:b(c)))".toList) = [0, 11] := by decide

example : stripped (CodeUnit.encode " \\ p{ L u } [ a ] ".toList) = CodeUnit.encode "\\p{Lu}[ a ]".toList := by decide

end XmlPattern.Grammar
