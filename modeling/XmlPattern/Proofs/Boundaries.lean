import XmlPattern.Proofs.Scan.Broken
import XmlPattern.Proofs.Scan.Invariants

/-!
# Boundaries of characters

A scan of a well-formed expression moves by units, and yet every character that it reads begins where a character of the
expression does. For units that a scanner passes one by one stand for themselves, but in a name in braces, and there the
closing brace is awaited, which no surrogate is.

- `boundary_invariant`: what is ahead of the cursor is well-formed wherever a scanner begins.
- `convertText_boundaries`: a text is never said to break a pair, and is read character by character.
-/

namespace XmlPattern

open CodeUnit Grammar

namespace Cursor

/-- The units ahead of a cursor, with the one that it is on. -/
def ahead (c : Cursor) : List CodeUnit := c.current.toList ++ c.rest

/-- The cursor is at the end, or on the first unit of a character. -/
def OnBoundary (c : Cursor) : Prop := WellFormed c.ahead

theorem wellFormed_take (skip : Bool) (passed : List CodeUnit) {rest : List CodeUnit} (h : WellFormed rest) :
    WellFormed ((if (take skip passed rest).2.2 then [] else [(take skip passed rest).1.headD 0]) ++
      (take skip passed rest).2.1) := by
  induction rest generalizing passed with
  | nil => exact h
  | cons u rest ih =>
    unfold take
    split
    · next hu =>
      rw [Bool.and_eq_true] at hu
      rcases wellFormed_cons h with ⟨_, hrest⟩ | ⟨_, _, _, hhigh, _⟩
      · exact ih _ hrest
      · have hs : u.isSurrogate = true := by rw [isSurrogate_eq, hhigh, Bool.true_or]
        rw [isBlank_of_isSurrogate hs] at hu
        exact absurd hu.2 Bool.false_ne_true
    · exact h

/-- Behind a unit that ends a character the cursor moves on to a boundary. -/
theorem onBoundary_advance {c : Cursor} (h : WellFormed c.rest) : c.advance.OnBoundary := by
  have ht := wellFormed_take c.skipping c.passed h
  have hahead : c.advance.ahead = (if (take c.skipping c.passed c.rest).2.2 then []
      else [(take c.skipping c.passed c.rest).1.headD 0]) ++ (take c.skipping c.passed c.rest).2.1 := by
    unfold ahead current advance
    split <;> simp [*]
  rwa [OnBoundary, hahead]

/-- A cursor on a boundary is on a unit that stands for itself, or on a pair, or at the end. -/
theorem OnBoundary.cases {c : Cursor} (h : c.OnBoundary) :
    (∀ u ∈ c.current, u.isSurrogate = false) ∧ WellFormed c.rest ∨
      ∃ u v rest, c.current = some u ∧ u.isHighSurrogate = true ∧ v.isLowSurrogate = true ∧ WellFormed rest ∧
        c.advance.current = some v ∧ c.advance.rest = rest := by
  unfold OnBoundary ahead at h
  cases hc : c.current with
  | none =>
    rw [hc] at h
    exact .inl ⟨nofun, h⟩
  | some u =>
    rw [hc] at h
    rcases wellFormed_cons h with ⟨hu, hrest⟩ | ⟨v, rest, hrest, hhigh, hlow, hwf⟩
    · refine .inl ⟨?_, hrest⟩
      rintro _ ⟨⟩
      exact hu
    · have hs : v.isSurrogate = true := by rw [isSurrogate_eq, hlow, Bool.or_true]
      have hrest : c.rest = v :: rest := hrest
      have hadvance : c.advance = { c with passed := v :: c.passed, rest := rest, atEnd := false } := by
        unfold advance
        rw [hrest, take, isBlank_of_isSurrogate hs, Bool.and_false]
        rfl
      exact .inr ⟨u, v, rest, rfl, hhigh, hlow, hwf, by rw [hadvance]; rfl, by rw [hadvance]⟩

theorem OnBoundary.advance {c : Cursor} (h : c.OnBoundary) (hu : ∀ u ∈ c.current, u.isSurrogate = false) :
    c.advance.OnBoundary := by
  rcases h.cases with ⟨_, hrest⟩ | ⟨u, _, _, hc, hhigh, _⟩
  · exact onBoundary_advance hrest
  · have hs := hu u hc
    rw [isSurrogate_eq, hhigh] at hs
    cases hs

/-- In a name the cursor may also be on the second unit of a pair. -/
def InName (c : Cursor) : Prop :=
  c.OnBoundary ∨ (∃ u, c.current = some u ∧ u.isLowSurrogate = true) ∧ WellFormed c.rest

theorem InName.advance {c : Cursor} (h : c.InName) : c.advance.InName := by
  rcases h with h | ⟨_, h⟩
  · rcases h.cases with ⟨_, h⟩ | ⟨_, v, rest, _, _, hlow, hwf, hcurrent, hrest⟩
    · exact .inl (onBoundary_advance h)
    · exact .inr ⟨⟨v, hcurrent, hlow⟩, hrest ▸ hwf⟩
  · exact .inl (onBoundary_advance h)

/-- A name ends on a boundary, since no surrogate is a brace. -/
theorem InName.onBoundary {c : Cursor} (h : c.InName) (hc : c.current = some (unit '\x7d')) : c.OnBoundary := by
  refine h.resolve_right fun hlow => ?_
  obtain ⟨⟨u, hu, hlow⟩, _⟩ := hlow
  have hs : u.isSurrogate = true := by rw [isSurrogate_eq, hlow, Bool.or_true]
  exact ne_unit_of_isSurrogate hs (by decide) (Option.some.inj (hu.symm.trans hc))

end Cursor

namespace Scan

variable {s t : ScanState} {n : Nat} {o : Options} {atoms : Atoms}

/-- A character that is read on a boundary does not break. -/
theorem ensures_character (h : s.cursor.OnBoundary) :
    Ensures (· ≠ .invalidSurrogatePair) character s fun _ t => t.cursor.advance.OnBoundary := by
  unfold character
  rw [ensures_current_bind]
  rcases h.cases with ⟨hu, hrest⟩ | ⟨u, v, rest, hu, hhigh, hlow, hwf, hcurrent, hrest⟩
  · have hnext := Cursor.onBoundary_advance hrest
    cases hc : s.cursor.current with
    | none => exact .of_pure hnext
    | some u =>
      have hs := hu u hc
      rw [isSurrogate_eq, Bool.or_eq_false_iff] at hs
      dsimp only
      rw [if_neg (Bool.eq_false_iff.mp hs.1), if_neg (Bool.eq_false_iff.mp hs.2)]
      exact .of_pure hnext
  · have hcurrent : s.advance.cursor.current = some v := hcurrent
    rw [hu]
    dsimp only
    rw [if_pos hhigh, ensures_advance_bind, ensures_current_bind, hcurrent]
    dsimp only
    rw [if_pos hlow]
    exact .of_pure (Cursor.onBoundary_advance (hrest ▸ hwf))

theorem ensures_braced (h : s.cursor.InName) : Ensures (· ≠ .invalidSurrogatePair) (braced n) s fun _ t =>
    t.cursor.current = some (unit '\x7d') ∧ t.cursor.OnBoundary := by
  induction n generalizing s with
  | zero => exact .of_fail nofun
  | succ n ih =>
    simp only [braced, ensures_current_bind]
    cases hu : s.cursor.current with
    | none => exact .of_fail nofun
    | some u =>
      dsimp only
      split
      · next hc =>
        rw [beq_iff_eq.mp hc] at hu
        exact .of_pure ⟨hu, h.onBoundary hu⟩
      · rw [ensures_advance_bind]
        exact (ih h.advance).bind fun _ _ h => .of_pure h

/-- A scan is on a boundary wherever one of its scanners begins. -/
theorem boundary_invariant : Invariant (· ≠ .invalidSurrogatePair) fun _ _ c => c.OnBoundary where
  inClass _ h := h
  advance h hu := h.advance hu
  character h := ensures_character h
  braced _ h := ensures_braced (.inl h)
  enter h hc := by
    refine h.advance fun u hu => ?_
    rw [hc] at hu
    obtain rfl := Option.some.inj hu
    exact isSurrogate_ofBasic (by decide)
  leave h := h
  descend _ := .descend fun _ => nofun
  cause h := by simp_all

/-- A pattern is read from a boundary on. -/
theorem onBoundary_start (o : Options) (text : List Char) :
    (ScanState.ofUnits o (encode text)).advance.cursor.OnBoundary :=
  Cursor.onBoundary_advance ⟨text, rfl⟩

theorem ensures_pattern (text : List Char) :
    Ensures (· ≠ .invalidSurrogatePair) (pattern o atoms n) (ScanState.ofUnits o (encode text)) fun _ _ => True :=
  (keeps_pattern boundary_invariant atoms (onBoundary_start o text)).mono fun _ _ _ => trivial

/-- Where a scan of a text comes to read a character, and is not at the end, a character of the text begins. -/
theorem exists_character_of_calls {text : List Char} {u : CodeUnit}
    (h : Calls (expression o atoms n 0) (ScanState.ofUnits o (encode text)).advance character t)
    (hu : t.cursor.current = some u) :
    ∃ before c after, text = before ++ c :: after ∧ t.cursor.position = (encode before).length + 1 := by
  have hlow : u.isLowSurrogate = false := by
    refine Bool.eq_false_iff.mpr fun hlow => ?_
    have herror := h.run_error (run_character_low hu hlow)
    exact (keeps_expression boundary_invariant atoms 0 (onBoundary_start o text)).of_error herror rfl
  have hexpression : t.cursor.expression = encode text :=
    h.cursor (P := fun c => c.expression = encode text) (fun c hc => c.expression_advance.trans hc) (fun _ _ hc => hc)
      ((Cursor.expression_advance _).trans (Cursor.expression_ofUnits ..))
  have hposition : 0 < t.cursor.position :=
    h.cursor (P := fun c => 0 < c.position) (fun c hc => Nat.lt_of_lt_of_le hc c.position_le_advance) (fun _ _ hc => hc)
      (Nat.zero_lt_of_lt (Cursor.length_lt_advance _))
  have hend := Cursor.atEnd_of_current hu
  unfold Cursor.current at hu
  unfold Cursor.expression at hexpression
  unfold Cursor.position at hposition ⊢
  rw [hend] at hu hposition ⊢
  generalize t.cursor.passed = passed at hu hexpression hposition
  cases passed with
  | nil => exact absurd hposition (Nat.lt_irrefl 0)
  | cons v passed =>
    obtain rfl : v = u := Option.some.inj hu
    rw [List.reverse_cons, List.append_assoc, List.singleton_append] at hexpression
    obtain ⟨before, c, after, htext, hbefore⟩ := exists_split_of_encode hexpression.symm hlow
    exact ⟨before, c, after, htext, by simp [hbefore]⟩

end Scan

/--
A text is never said to break a pair, and wherever its scan reads a character, from the first advance on and not at the
end, a character of the text begins: the current unit is the one behind those of the characters before.
-/
theorem convertText_boundaries (o : Options) (atoms : Atoms) (text : String) :
    (∀ d, convertText o atoms text = .error (.pattern d) → d.reason ≠ .invalidSurrogatePair) ∧
      ∀ (t : ScanState) (u : CodeUnit),
        Scan.Calls (Scan.expression o atoms (ScanState.ofUnits o (encode text.toList)).cursor.remaining 0)
          (ScanState.ofUnits o (encode text.toList)).advance Scan.character t →
        t.cursor.current = some u →
        ∃ before c after, text.toList = before ++ c :: after ∧ t.cursor.position = (encode before).length + 1 := by
  refine ⟨fun d h => ?_, fun t u h hu => Scan.exists_character_of_calls h hu⟩
  unfold convertText convert at h
  split at h
  · rw [convertLiteral, decode_encode] at h
    cases h
  · unfold convertPattern at h
    split at h
    · cases h
    · next e t hrun =>
      cases h
      exact (Scan.ensures_pattern text.toList).of_error hrun

/--
A character beyond the basic plane is read from its first unit on; behind it a parenthesis is left that closes nothing.
-/
theorem convertText_boundaries_pair :
    (Diagnostic.reason ⟨.expectedEnd, 2, "😀)"⟩) ≠ .invalidSurrogatePair ∧
      ∃ t : ScanState, t.cursor.current = some 0xD83D ∧
        ∃ before c after, "😀)".toList = before ++ c :: after ∧ t.cursor.position = (encode before).length + 1 := by
  obtain ⟨hreason, hcalls⟩ := convertText_boundaries {} (.schema .scalar) "😀)"
  have hcurrent : (ScanState.ofUnits {} (encode "😀)".toList)).advance.cursor.current = some 0xD83D := rfl
  have hatom : Scan.Calls (Scan.atom {} (.schema .scalar) 4 0) (ScanState.ofUnits {} (encode "😀)".toList)).advance
      Scan.character (ScanState.ofUnits {} (encode "😀)".toList)).advance := by
    rw [Scan.atom_schema]
    unfold Scan.schemaAtom
    refine .behind rfl ?_
    rw [hcurrent]
    exact .first _ (.first _ (.here _ _))
  exact ⟨hreason _ rfl, _, hcurrent, hcalls _ _ (.first _ (.first _ hatom)) hcurrent⟩

end XmlPattern
