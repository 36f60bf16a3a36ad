import XmlPattern.Proofs.Numbering
import XmlPattern.Proofs.Scan.Embedding
import XmlPattern.Proofs.Scan.Passage
import XmlPattern.Proofs.Scan.Reversed

/-!
# Ranges that end before they start

A conversion that fails for a reversed range has come to one: inside a class expression, right in front of the place
that the diagnostic names, stand two single characters with a hyphen between them, and the first is the greater one.
There is one exception, an expression that ends behind the hyphen. NUL, which the scanner of characters finds at the
end, is taken for the upper end of the range then.

- `Cursor.exists_spells_of_passes`: what a scan has passed is what the front of the expression spells.
- `convert_reversedRange`: what stands in front of the place of the diagnostic.
-/

namespace XmlPattern

open Grammar

variable {o : Options} {d : Dialect} {units : List CodeUnit} {s t : ScanState} {ms : List Mark} {us : List CodeUnit}

/-! ## Places by brackets and by marks -/

/-- The place behind a part of an expression, by its brackets and backslashes. -/
def Options.placeBehind (o : Options) (front : List CodeUnit) : Place := (o.significant front).foldl Place.step {}

theorem Grammar.Leads.foldl_step {p q : Place} (h : Leads p ms q) : (ms.map (·.1)).foldl Place.step p = q := by
  induction ms generalizing p with
  | nil => exact h.symm
  | cons m ms ih => exact ih h.2

theorem placeBehind_of_spells {p : Place} (h : Leads {} ms p) (hs : Spells o.foldBlanks false ms us) :
    o.placeBehind us = p := by
  have hsignificant : o.significant us = ms.map (·.1) := by
    unfold Options.significant
    split
    · next hfold =>
      rw [hfold] at hs
      exact strip_of_spells h hs
    · next hfold =>
      rw [Bool.not_eq_true] at hfold
      rw [hfold] at hs
      exact spells_iff.mp hs
  rw [Options.placeBehind, hsignificant, h.foldl_step]

/-! ## The front of an expression -/

namespace Cursor

variable {fold b : Bool} {u : CodeUnit} {front behind : List CodeUnit}

/-- Blanks may stand in front of the unit that comes next. -/
theorem exists_blanks_of_current (h : (between fold b front behind).advance.current = some u) :
    ∃ blanks rest, behind = blanks ++ u :: rest ∧
      (between fold b front behind).advance = between fold b (front ++ blanks ++ [u]) rest ∧
      ∀ b' ms us, Spells fold b' ms us → Spells fold b ((u, b') :: ms) (blanks ++ u :: us) := by
  induction behind generalizing front with
  | nil => cases h
  | cons w behind ih =>
    by_cases hw : fold = true ∧ b = false ∧ w.isBlank = true
    · obtain ⟨rfl, rfl, hblank⟩ := hw
      rw [advance_blank rfl hblank] at h ⊢
      obtain ⟨blanks, rest, rfl, hadvance, hspells⟩ := ih h
      refine ⟨w :: blanks, rest, rfl, ?_, fun b' ms us hs => .blank rfl hblank (hspells b' ms us hs)⟩
      rw [hadvance, ← List.append_cons]
    · have hcounts : fold = true → b = false → w.isBlank = false := fun hf hb =>
        Bool.eq_false_iff.mpr fun hblank => hw ⟨hf, hb, hblank⟩
      rw [advance_unit hcounts, current_between] at h
      obtain rfl := Option.some.inj h
      refine ⟨[], behind, rfl, ?_, fun b' ms us hs => .unit hcounts hs⟩
      rw [advance_unit hcounts, List.append_nil]

/-- What a scan has passed is what the front of the expression spells. -/
theorem exists_spells_of_passes {x : Option CodeUnit} (h : Passes ms (between fold b front behind).advance x) :
    ∃ us rest, behind = us ++ rest ∧ Spells fold b ms us := by
  induction ms generalizing b front behind with
  | nil => exact ⟨[], behind, rfl, .nil⟩
  | cons m ms ih =>
    obtain ⟨u, b'⟩ := m
    obtain ⟨hu, h⟩ := h
    obtain ⟨blanks, rest, rfl, hadvance, hspells⟩ := exists_blanks_of_current hu
    rw [hadvance] at h
    obtain ⟨us, rest, rfl, hs⟩ := @ih b' (front ++ blanks ++ [u]) rest h
    exact ⟨blanks ++ u :: us, rest, by simp, hspells b' ms us hs⟩

/-- Inside a class expression the next unit counts, or the expression is over. -/
theorem advance_inside (fold : Bool) (front behind : List CodeUnit) :
    (between fold true front behind).advance.position = front.length + 1 ∧
      (between fold true front behind).advance.current = behind.head? := by
  cases behind with
  | nil => simp [between, advance, take, position, current]
  | cons u behind =>
    rw [advance_unit (fun _ h => absurd h.symm Bool.false_ne_true), current_between]
    simp [between, position]

end Cursor

theorem inside_append (us vs : List CodeUnit) : inside (us ++ vs) = inside us ++ inside vs := List.map_append

/-- Inside a class expression nothing is left out. -/
theorem spells_inside {fold : Bool} {ws : List CodeUnit} (h : Spells fold true (inside ws) us) : us = ws := by
  induction ws generalizing us with
  | nil =>
    cases h
    rfl
  | cons w ws ih =>
    cases h with
    | unit _ h => rw [ih h]

/-- An expression that spells marks, and units of a class expression last, ends with these units. -/
theorem exists_spells_front {fold b : Bool} {ws : List CodeUnit} (hne : ws ≠ [])
    (h : Spells fold b (ms ++ inside ws) us) :
    ∃ front, us = front ++ ws ∧ Spells fold b ms front := by
  generalize hall : ms ++ inside ws = ls at h
  induction h generalizing ms with
  | nil =>
    obtain ⟨_, hws⟩ := List.append_eq_nil_iff.mp hall
    exact absurd (List.map_eq_nil_iff.mp hws) hne
  | @blank u ls us hf hu _ ih =>
    obtain ⟨front, rfl, hs⟩ := ih hall
    exact ⟨u :: front, rfl, .blank hf hu hs⟩
  | @unit b b' u ls us hu h ih =>
    cases ms with
    | nil =>
      obtain ⟨w, ws, rfl⟩ := List.exists_cons_of_ne_nil hne
      cases hall
      rw [spells_inside h]
      exact ⟨[], rfl, .nil⟩
    | cons m ms =>
      cases hall
      obtain ⟨front, rfl, hs⟩ := ih rfl
      exact ⟨u :: front, rfl, .unit hu hs⟩

theorem endsInside_inside {ws : List CodeUnit} (hne : ws ≠ []) (b : Bool) : endsInside b (ms ++ inside ws) = true := by
  obtain ⟨w, ws, rfl⟩ := List.exists_cons_of_ne_nil hne
  rw [endsInside_append]
  show endsInside true (inside ws) = true
  induction ws with
  | nil => rfl
  | cons w ws ih => exact ih (List.cons_ne_nil _ _)

/-- Where a scan is that has passed units of a class expression last: right behind them. -/
theorem Scan.Goes.front {ws : List CodeUnit} (h : Goes (ScanState.ofUnits o units).advance (ms ++ inside ws) t)
    (hne : ws ≠ []) :
    ∃ front rest, units = front ++ ws ++ rest ∧ Spells o.foldBlanks false ms front ∧
      t.cursor.position = (front ++ ws).length + 1 ∧ t.cursor.current = rest.head? := by
  obtain ⟨es, hf, hms⟩ := h
  have hpasses : Cursor.Passes (ms ++ inside ws) (Cursor.between o.foldBlanks false [] units).advance
      t.cursor.current := by
    rw [← hms]
    exact exists_follows_iff.mp ⟨t, hf, rfl⟩
  obtain ⟨us, rest, rfl, hs⟩ := Cursor.exists_spells_of_passes hpasses
  obtain ⟨front, rfl, hfront⟩ := exists_spells_front hne hs
  have hcursor := follows_cursor hf
  rw [cursorAfter, hms] at hcursor
  have hpast : Cursor.past (ms ++ inside ws) (ScanState.ofUnits o (front ++ ws ++ rest)).advance.cursor = _ :=
    Cursor.past_of_spells hs [] rest
  rw [hpast, endsInside_inside hne, List.nil_append] at hcursor
  obtain ⟨hposition, hcurrent⟩ := Cursor.advance_inside o.foldBlanks (front ++ ws) rest
  refine ⟨front, rest, rfl, hfront, ?_, ?_⟩
  · rw [hcursor]
    exact hposition
  · rw [hcursor]
    exact hcurrent

/-! ## Conversions -/

/--
A conversion that fails for a reversed range has come to one. Right in front of the place that the diagnostic names, and
behind the front of a class expression that begins outside of all others, stand two single characters with a hyphen
between them, and the first of them is the greater one. Otherwise the expression ends with a single character and the
hyphen, and NUL is taken for the other end of the range.
-/
theorem convert_reversedRange {e : Diagnostic} (h : convert o (.schema d) units = .error (.pattern e))
    (hreason : e.reason = .reversedRange) :
    ∃ (outer front : List CodeUnit) (x : Single), o.placeBehind outer = {} ∧ ClassFront o.variant front ∧
      x.LegalMember o.variant ∧
      ((∃ y : Single, y.LegalMember o.variant ∧ y.char < x.char ∧
          units.take e.position = outer ++ front ++ (ClassItem.range x y).units) ∨
        units = outer ++ front ++ x.units ++ [unit '-'] ∧ e.position = units.length ∧ '\x00' < x.char) := by
  -- Quoted text fails for another cause, so that it is a scan that has failed.
  obtain ⟨t, hscan⟩ : ∃ t, (ScanState.ofUnits o units).scan (Scan.pattern o (.schema d)) = (.error e, t) := by
    unfold convert convertLiteral convertPattern at h
    split at h
    · split at h
      · cases h
      · cases h
        cases hreason
    · split at h
      · cases h
      · next hscan =>
        cases h
        exact ⟨_, hscan⟩
  have hfails : (Scan.pattern o (.schema d) (ScanState.ofUnits o units).cursor.remaining).Fails .reversedRange
      (ScanState.ofUnits o units) t := hreason ▸ Scan.fails_of_run hscan
  obtain rfl : e = t.diagnostic .reversedRange := Except.error.inj (congrArg Prod.fst (hscan.symm.trans hfails))
  obtain ⟨ms, front, u, hleads, hfront, hgoes, hin, x, upper, w, hx, hf, hcursor, hupper⟩ :=
    Scan.fails_expression d (ready_start o units) (Scan.fails_pattern hfails)
  have hall := hgoes.append (.of_reads hf (reads_of_reads _) hin)
  rw [List.append_assoc, ← inside_append] at hall
  obtain ⟨outer, rest, hunits, hspells, hposition, hcurrent⟩ := Scan.Goes.front hall (by simp)
  have hplace : (t.diagnostic .reversedRange).position =
      (outer ++ (front ++ (x.units ++ unit '-' :: upper))).length := by
    show t.cursor.position - 1 = _
    rw [hcursor, hposition]
    rfl
  refine ⟨outer, front, x, placeBehind_of_spells hleads hspells, hfront, hx, ?_⟩
  rcases hupper with ⟨y, hy, hlt, rfl⟩ | ⟨rfl, hend, hlt⟩
  · refine .inl ⟨y, hy, hlt, ?_⟩
    rw [hplace, hunits, List.take_left, List.append_assoc]
    rfl
  · have hrest : rest = [] := List.head?_eq_none_iff.mp (hcurrent.symm.trans hend)
    rw [hrest, List.append_nil] at hunits
    refine .inr ⟨?_, by rw [hplace, hunits], hlt⟩
    rw [hunits]
    simp

/-- Two characters in the wrong order, in front of the bracket that the diagnostic names. -/
theorem convert_reversedRange_twoLetters :
    ∃ (outer front : List CodeUnit) (x y : Single), (Options.ofVariant .xsd10).placeBehind outer = {} ∧
      ClassFront .xsd10 front ∧ y.char < x.char ∧
      (CodeUnit.encode "[b-a]".toList).take 4 = outer ++ front ++ (ClassItem.range x y).units := by
  have hconvert : convert (.ofVariant .xsd10) (.schema .scalar) (CodeUnit.encode "[b-a]".toList) =
      .error (.pattern ⟨.reversedRange, 4, "[b-a]"⟩) := rfl
  obtain ⟨outer, front, x, hplace, hfront, _, ⟨y, _, hlt, htake⟩ | ⟨hunits, _⟩⟩ := convert_reversedRange hconvert rfl
  · exact ⟨outer, front, x, y, hplace, hfront, hlt, htake⟩
  · have hlast := congrArg List.getLast? hunits
    rw [List.getLast?_concat] at hlast
    exact absurd hlast (by decide)

/-- An expression that ends behind the hyphen of a range: nothing that stands there is the upper end of a range. -/
theorem not_range_unfinished :
    convert (.ofVariant .xsd10) (.schema .scalar) (CodeUnit.encode "[a-".toList) =
        .error (.pattern ⟨.reversedRange, 3, "[a-"⟩) ∧
      ¬ ∃ (front : List CodeUnit) (x y : Single),
        (CodeUnit.encode "[a-".toList).take 3 = front ++ (ClassItem.range x y).units := by
  refine ⟨rfl, ?_⟩
  rintro ⟨front, x, y, htake⟩
  have hdrop := congrArg List.dropLast htake
  rw [ClassItem.units, ← List.append_assoc, ← List.singleton_append, ← List.append_assoc,
    List.dropLast_append_of_ne_nil (Scan.units_ne_nil_of_single y)] at hdrop
  have hmem : unit '-' ∈ ((CodeUnit.encode "[a-".toList).take 3).dropLast := by
    rw [hdrop]
    simp
  exact absurd hmem (by decide)

end XmlPattern
