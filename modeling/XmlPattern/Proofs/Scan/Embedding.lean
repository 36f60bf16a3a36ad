import XmlPattern.Proofs.Scan.Warnings

/-!
# Scans of parts

A scan of units that stand between others passes them as a scan of these units alone does, and comes to the first unit
that counts behind them. It warns of the same, on units that are farther from the start by as many as stand in front.

- `Cursor.past_of_spells`: marks that units spell lead past these units, whatever stands around them.
- `Covers.append`, `Covers.warnedAt_append`: scans of units in a row.
- `Plain.follows_between`: what events that only read and write do to a state between other units.
-/

namespace XmlPattern

open Grammar

namespace Cursor

/-- The cursor between two parts of an expression, in a class or not. -/
def between (fold b : Bool) (front behind : List CodeUnit) : Cursor := ⟨front.reverse, behind, false, fold, b⟩

variable {fold b : Bool} {u : CodeUnit} {front behind us : List CodeUnit}

theorem between_reverse_append (fold b : Bool) (front behind : List CodeUnit) (u : CodeUnit) :
    between fold b (front ++ [u]) behind = ⟨u :: front.reverse, behind, false, fold, b⟩ := by
  rw [between, List.reverse_append]
  rfl

@[simp]
theorem current_between (fold b : Bool) (front behind : List CodeUnit) (u : CodeUnit) :
    (between fold b (front ++ [u]) behind).current = some u := by
  rw [between_reverse_append]
  rfl

/-- A blank that does not count makes no difference to what comes next. -/
theorem advance_blank (hb : (fold && !b) = true) (hu : u.isBlank = true) :
    (between fold b front (u :: behind)).advance = (between fold b (front ++ [u]) behind).advance := by
  rw [between_reverse_append]
  unfold advance between skipping
  dsimp only
  rw [hb, take, if_pos (by rw [hu]; rfl)]

/-- A unit that counts is what comes next. -/
theorem advance_unit (hu : fold = true → b = false → u.isBlank = false) :
    (between fold b front (u :: behind)).advance = between fold b (front ++ [u]) behind := by
  have hcounts : ¬ (fold && !b && u.isBlank) = true := by
    simp only [Bool.and_eq_true, Bool.not_eq_true', not_and, Bool.not_eq_true]
    exact fun h => hu h.1 h.2
  rw [between_reverse_append]
  unfold advance between skipping
  dsimp only
  rw [take, if_neg hcounts]

end Cursor

/-- Whether the last of some marks is inside a class expression. -/
def endsInside : Bool → List Mark → Bool
  | b, [] => b
  | _, (_, b) :: ms => endsInside b ms

/-- Marks that units spell lead past these units, whatever stands around them. -/
theorem Cursor.past_of_spells {fold b : Bool} {ms : List Mark} {us : List CodeUnit} (h : Spells fold b ms us)
    (front behind : List CodeUnit) :
    past ms (between fold b front (us ++ behind)).advance =
      (between fold (endsInside b ms) (front ++ us) behind).advance := by
  induction h generalizing front with
  | nil => rw [List.append_nil]; rfl
  | blank hf hu _ ih => rw [List.cons_append, advance_blank (by rw [hf]; rfl) hu, ih, ← List.append_cons]
  | @unit b b' u ms us hu _ ih =>
    have hrest := ih (front ++ [u])
    rw [← List.append_cons] at hrest
    rw [List.cons_append, advance_unit hu]
    exact hrest

/-- Marks that units spell are passed where these units stand. -/
theorem Cursor.passes_of_spells {fold b : Bool} {ms : List Mark} {us : List CodeUnit} (h : Spells fold b ms us)
    (front behind : List CodeUnit) :
    Passes ms (between fold b front (us ++ behind)).advance
      (between fold (endsInside b ms) (front ++ us) behind).advance.current := by
  induction h generalizing front with
  | nil => rw [List.append_nil]; rfl
  | @blank u ms us hf hu _ ih =>
    have hrest := ih (front ++ [u])
    rw [← List.append_cons] at hrest
    rwa [List.cons_append, advance_blank (by rw [hf]; rfl) hu]
  | @unit b b' u ms us hu _ ih =>
    have hrest := ih (front ++ [u])
    rw [← List.append_cons] at hrest
    rw [List.cons_append, advance_unit hu]
    exact ⟨current_between .., hrest⟩

/-- The first unit that units spell is behind blanks, and is what comes next in front of it. -/
theorem exists_spells_cons {fold b b' : Bool} {u : CodeUnit} {ms : List Mark} {us : List CodeUnit}
    (h : Spells fold b ((u, b') :: ms) us) :
    ∃ blanks vs, us = blanks ++ u :: vs ∧ Spells fold b' ms vs ∧ ∀ front behind,
      (Cursor.between fold b front (us ++ behind)).advance =
        Cursor.between fold b (front ++ blanks ++ [u]) (vs ++ behind) := by
  generalize hms : (u, b') :: ms = ms' at h
  induction h with
  | nil => cases hms
  | @blank w ms us hf hw _ ih =>
    obtain ⟨blanks, vs, rfl, hvs, hnext⟩ := ih hms
    refine ⟨w :: blanks, vs, rfl, hvs, fun front behind => ?_⟩
    rw [List.cons_append, Cursor.advance_blank (by rw [hf]; rfl) hw, hnext, ← List.append_cons]
  | unit hu hvs _ =>
    cases hms
    refine ⟨[], _, rfl, hvs, fun front behind => ?_⟩
    rw [List.append_nil, List.cons_append, Cursor.advance_unit hu]

/-- A warning where so many more units stand in front. -/
def shifted (k : Nat) (w : Reason × Nat) : Reason × Nat := (w.1, k + w.2)

theorem map_shifted (j k : Nat) (ws : List (Reason × Nat)) :
    (ws.map (shifted j)).map (shifted k) = ws.map (shifted (k + j)) := by
  rw [List.map_map]
  exact List.map_congr_left fun w _ => Prod.ext rfl (Nat.add_assoc k j w.2).symm

theorem map_shifted_zero (ws : List (Reason × Nat)) : ws.map (shifted 0) = ws := by
  refine (List.map_congr_left fun w _ => ?_).trans (List.map_id ws)
  exact Prod.ext rfl (Nat.zero_add w.2)

/-- What is warned of between other units is farther from the start by the units in front. -/
theorem warnedAt_between {fold b b' : Bool} {es : List Event} {us : List CodeUnit} (hw : WarnsInside es)
    (h : Spells fold b (passed b' es) us) (front behind : List CodeUnit) :
    warnedAt { (Cursor.between fold b front (us ++ behind)).advance with inClass := b' } es =
      (warnedAt { (Cursor.between fold b [] (us ++ [])).advance with inClass := b' } es).map
        (shifted front.length) := by
  induction es generalizing b b' us front behind with
  | nil => rfl
  | cons e es ih =>
    cases e with
    | pass u =>
      obtain ⟨blanks, vs, rfl, hvs, hnext⟩ := exists_spells_cons h
      have hrest : ∀ front behind,
          warnedAt (Cursor.between fold b' (front ++ blanks ++ [u]) (vs ++ behind)).advance es =
          (warnedAt (Cursor.between fold b' [] (vs ++ [])).advance es).map
            (shifted (front.length + (blanks.length + 1))) := by
        intro front behind
        have hih := ih hw hvs (front ++ blanks ++ [u]) behind
        rw [List.append_assoc, List.length_append, List.length_append] at hih
        rw [List.append_assoc]
        exact hih
      rw [hnext, hnext]
      refine (hrest front behind).trans ?_
      rw [← map_shifted]
      refine congrArg (List.map _) ((hrest [] []).trans ?_).symm
      rw [List.length_nil, Nat.zero_add]
    | mode b'' => exact ih hw h front behind
    | warns r =>
      obtain ⟨⟨u, fs, rfl⟩, hw⟩ := hw
      obtain ⟨blanks, vs, -, -, hnext⟩ := exists_spells_cons h
      refine List.cons_eq_cons.mpr ⟨Prod.ext rfl ?_, ih hw h front behind⟩
      rw [hnext, hnext]
      simp [shifted, Cursor.position, Cursor.between, Nat.add_comm]
    | write f => exact ih hw h front behind
    | opens => exact ih hw h front behind
    | closes n => exact ih hw h front behind

/-! ## Scans of all of some units -/

/-- Events pass all of some units, from outside class expressions to outside. -/
structure Covers (fold : Bool) (es : List Event) (us : List CodeUnit) : Prop where
  spells : Spells fold false (passed false es) us
  mode : modeAfter false es = false
  ends : endsInside false (passed false es) = false
  warns : WarnsInside es

variable {fold : Bool} {es fs : List Event} {us vs : List CodeUnit}

theorem endsInside_append (b : Bool) (ms ns : List Mark) :
    endsInside b (ms ++ ns) = endsInside (endsInside b ms) ns := by
  induction ms generalizing b with
  | nil => rfl
  | cons m ms ih => exact ih m.2

theorem spells_append {b : Bool} {ms ns : List Mark} (h : Spells fold b ms us)
    (h' : Spells fold (endsInside b ms) ns vs) :
    Spells fold b (ms ++ ns) (us ++ vs) := by
  induction h with
  | nil => exact h'
  | blank hf hu _ ih => exact .blank hf hu (ih h')
  | unit hu _ ih => exact .unit hu (ih h')

theorem Covers.append (h : Covers fold es us) (h' : Covers fold fs vs) : Covers fold (es ++ fs) (us ++ vs) where
  spells := by
    rw [passed_append, h.mode]
    exact spells_append h.spells (by rw [h.ends]; exact h'.spells)
  mode := by rw [modeAfter_append, h.mode, h'.mode]
  ends := by rw [passed_append, h.mode, endsInside_append, h.ends, h'.ends]
  warns := h.warns.append h'.warns

/-- Behind events that pass all of some units, the cursor comes to what is behind these. -/
theorem Covers.cursorAfter_between (h : Covers fold es us) (front behind : List CodeUnit) :
    cursorAfter (Cursor.between fold false front (us ++ behind)).advance es =
      (Cursor.between fold false (front ++ us) behind).advance := by
  show { Cursor.past (passed false es) _ with inClass := modeAfter false es } = _
  rw [Cursor.past_of_spells h.spells, h.ends, h.mode]
  rfl

/-- Events that pass all of some units can be carried out where these units stand. -/
theorem Covers.exists_follows (h : Covers fold es us) {front behind : List CodeUnit} {s : ScanState}
    (hs : s.cursor = (Cursor.between fold false front (us ++ behind)).advance) :
    ∃ t, Follows es s t ∧ t.cursor = (Cursor.between fold false (front ++ us) behind).advance := by
  have hpasses := Cursor.passes_of_spells h.spells front behind
  rw [h.ends, ← hs] at hpasses
  have hmode : s.cursor.inClass = false := by rw [hs]; rfl
  obtain ⟨t, ht, _⟩ := exists_follows_iff.mpr (hmode ▸ hpasses)
  refine ⟨t, ht, ?_⟩
  rw [follows_cursor ht, hs]
  exact h.cursorAfter_between front behind

theorem Covers.warnedAt_between (h : Covers fold es us) (front behind : List CodeUnit) :
    warnedAt (Cursor.between fold false front (us ++ behind)).advance es =
      (warnedAt (Cursor.ofUnits us fold).advance es).map (shifted front.length) := by
  have hall := XmlPattern.warnedAt_between h.warns h.spells front behind
  rw [List.append_nil] at hall
  exact hall

/-- What is warned of in two parts, in order. -/
theorem Covers.warnedAt_append (h : Covers fold es us) (h' : Covers fold fs vs) :
    warnedAt (Cursor.ofUnits (us ++ vs) fold).advance (es ++ fs) =
      warnedAt (Cursor.ofUnits us fold).advance es ++
        (warnedAt (Cursor.ofUnits vs fold).advance fs).map (shifted us.length) := by
  have hfront := h.warnedAt_between [] vs
  have hcursor := h.cursorAfter_between [] vs
  have hbehind := h'.warnedAt_between us []
  rw [List.append_nil] at hbehind
  rw [List.length_nil, map_shifted_zero] at hfront
  show warnedAt (Cursor.between fold false [] (us ++ vs)).advance (es ++ fs) = _
  rw [XmlPattern.warnedAt_append, hfront, hcursor, List.nil_append, hbehind]

/-- What is warned of in two parts of which the second has no warnings. -/
theorem Covers.warnedAt_append_of_warned_eq_nil (h : Covers fold es us) (h' : Covers fold fs vs)
    (hfs : warned fs = []) :
    warnedAt (Cursor.ofUnits (us ++ vs) fold).advance (es ++ fs) = warnedAt (Cursor.ofUnits us fold).advance es := by
  rw [h.warnedAt_append h', warnedAt_eq_nil hfs, List.map_nil, List.append_nil]

/-! ## Events that only read and write -/

/-- Events pass units and write fragments, and do nothing else. -/
inductive Plain : List Event → Prop where
  | nil : Plain []
  | pass {u : CodeUnit} {es : List Event} : Plain es → Plain (.pass u :: es)
  | write {f : Fragment} {es : List Event} : Plain es → Plain (.write f :: es)

variable {es fs : List Event} {s t : ScanState}

theorem plain_reads (us : List CodeUnit) : Plain (reads us) := by
  induction us with
  | nil => exact .nil
  | cons u us ih => exact .pass ih

theorem plain_copies (c : Char) : Plain (copies c) := .write (.pass .nil)

namespace Plain

theorem append (h : Plain es) (h' : Plain fs) : Plain (es ++ fs) := by
  induction h with
  | nil => exact h'
  | pass _ ih => exact .pass ih
  | write _ ih => exact .write ih

theorem passed_eq (h : Plain es) (b : Bool) : passed b es = (taken es).map (·, b) := by
  induction h with
  | nil => rfl
  | pass _ ih => exact congrArg (_ :: ·) ih
  | write _ ih => exact ih

theorem modeAfter_eq (h : Plain es) (b : Bool) : modeAfter b es = b := by
  induction h with
  | nil => rfl
  | pass _ ih => exact ih
  | write _ ih => exact ih

theorem warnsInside (h : Plain es) : WarnsInside es := by
  induction h with
  | nil => trivial
  | pass _ ih => exact ih
  | write _ ih => exact ih

theorem covers {fold : Bool} {us : List CodeUnit} (h : Plain es) (hs : Spells fold false (outside (taken es)) us) :
    Covers fold es us := by
  have hpassed : passed false es = outside (taken es) := h.passed_eq false
  refine ⟨by rw [hpassed]; exact hs, h.modeAfter_eq false, ?_, h.warnsInside⟩
  rw [hpassed]
  generalize taken es = vs
  induction vs with
  | nil => rfl
  | cons v vs ih => exact ih

/-- What events that only read and write do to a state. -/
theorem follows (h : Plain es) (hf : Follows es s t) :
    t = { s with cursor := t.cursor, output := s.output ++ (written es).toArray } := by
  induction h generalizing s with
  | nil =>
    obtain rfl : t = s := hf
    simp [written]
  | pass _ ih => exact ih (s := s.advance) hf.2
  | @write f _ _ ih =>
    refine (ih (s := s.write f) hf).trans ?_
    simp [ScanState.write, written]

/-- Between other units, events that only read and write lead to the next unit that counts. -/
theorem follows_between {fold : Bool} {front us behind : List CodeUnit} {u : CodeUnit} (h : Plain es)
    (hus : Spells fold false (outside (taken es)) us) (hu : u.isBlank = false)
    (hs : s.cursor = (Cursor.between fold false front (us ++ u :: behind)).advance) :
    Follows es s { s with
      cursor := .between fold false (front ++ us ++ [u]) behind, output := s.output ++ (written es).toArray } := by
  obtain ⟨t, ht, hcursor⟩ := (h.covers hus).exists_follows hs
  rw [Cursor.advance_unit fun _ _ => hu] at hcursor
  rw [← hcursor, ← h.follows ht]
  exact ht

end Plain

end XmlPattern
