import XmlPattern.Proofs.Grammar.Concatenation
import XmlPattern.Proofs.Scan.Embedding
import XmlPattern.Proofs.Structure

/-!
# Conversions of parts

Patterns of XML Schema are converted part by part. An expression behind another, two with a bar between them, and one in
parentheses are converted to what their parts are, put together in the same way; groups are counted on, and warnings are
those of the parts in order, on units that are farther from the start by what stands in front of the part. Nothing that
a scan knows at the end of one part tells on the next one.

- `covers_course`: a scan of a pattern begins and ends outside class expressions.
- `convert_composes`: the three ways of putting expressions together.
-/

namespace XmlPattern

open Grammar

/-! ## Scans of parts -/

theorem warnedAt_unnumbered (c : Cursor) (es : List Event) : warnedAt c (es.map Event.unnumbered) = warnedAt c es := by
  induction es generalizing c with
  | nil => rfl
  | cons e es ih =>
    cases e with
    | warns r => exact congrArg (_ :: ·) (ih c)
    | pass u | mode b | write f | opens | closes n => exact ih _

theorem passed_unnumbered (b : Bool) (es : List Event) : passed b (es.map Event.unnumbered) = passed b es := by
  induction es generalizing b with
  | nil => rfl
  | cons e es ih =>
    cases e with
    | pass u => exact congrArg (_ :: ·) (ih b)
    | mode b' => exact ih b'
    | write f | opens | closes n | warns r => exact ih b

theorem endsInside_of_leads {p q : Place} {ms : List Mark} (h : Leads p ms q) :
    endsInside (decide (0 < p.depth)) ms = decide (0 < q.depth) := by
  induction ms generalizing p with
  | nil =>
    obtain rfl : q = p := h
    rfl
  | cons m ms ih =>
    obtain ⟨u, b⟩ := m
    obtain ⟨rfl, h⟩ := h
    exact ih h

variable {o : Options} {depth : Nat} {G : Groups} {r : Regexp} {units : List CodeUnit}

/-- A scan of a pattern passes the units that spell it, and begins and ends outside class expressions. -/
theorem covers_course {fold : Bool} (hr : r.Legal o depth G) (hs : Spells fold false r.marks units) :
    Covers fold (r.course o G) units := by
  have hpassed := (r.passed_course o G).1
  refine ⟨?_, (r.passed_course o G).2.1, ?_, r.warnsInside_course hr⟩
  · rwa [hpassed]
  · rw [hpassed]
    exact endsInside_of_leads (r.leads hr)

theorem covers_of_reads {fold : Bool} {es : List Event} {c : Char} (h : passed false es = outside [unit c])
    (hmode : modeAfter false es = false) (hwarns : WarnsInside es) (hc : (unit c).isBlank = false) :
    Covers fold es [unit c] := by
  refine ⟨?_, hmode, ?_, hwarns⟩
  · rw [h]
    exact .unit (fun _ _ => hc) .nil
  · rw [h]
    rfl

/-! ## Parts of patterns -/

variable {o' : Options} {depth' : Nat} {G' : Groups}

/-- Without back-references, a pattern is legal wherever groups may nest as deep. -/
theorem Grammar.Regexp.legal_of_schema (hx : o.variant.isXPath = false) (h : o'.variant.Extends o.variant)
    (hx' : o'.variant.isXPath = false) (hd : depth' + o.maxDepth ≤ depth + o'.maxDepth) (hr : r.Legal o depth G) :
    r.Legal o' depth' G' :=
  r.legal_of_extends h hd (fun hv => absurd (hx.symm.trans hv) Bool.false_ne_true) hr
    (r.every_of_forall fun _ hv => absurd (hx'.symm.trans hv) Bool.false_ne_true)

theorem Grammar.Regexp.course_of_schema (hx : o.variant.isXPath = false) (h : o'.Extends o) (hr : r.Legal o depth G) :
    (r.course o' G').map Event.unnumbered = (r.course o G).map Event.unnumbered :=
  r.course_of_extends h hr fun hv => absurd (hx.symm.trans hv) Bool.false_ne_true

/-- An expression is converted to a text with so many groups, with warnings. -/
structure Conversion.ComesTo (c : Conversion) (text : List Char) (groups : Nat)
    (warnings : List Diagnostic) : Prop where
  pattern : c.pattern = text
  captureCount : c.captureCount = groups
  warnings : c.warnings = warnings

/-- A warning about a part, as one about the whole expression, where so many units stand in front of the part. -/
def Diagnostic.inside (whole : List CodeUnit) (front : Nat) (w : Diagnostic) : Diagnostic :=
  ⟨w.reason, front + w.position, String.ofList (CodeUnit.decodeLossy whole)⟩

theorem map_inside_stamped (whole units : List CodeUnit) (front : Nat) (ws : List (Reason × Nat)) :
    (ws.map (stamped units)).map (Diagnostic.inside whole front) = (ws.map (shifted front)).map (stamped whole) := by
  rw [List.map_map, List.map_map]
  rfl

variable {d : Dialect} {c c₁ c₂ : Conversion} {e₁ e₂ : List CodeUnit} {es : List Event}

/-- A conversion comes to what a scan does, the numbers of the groups aside. -/
theorem comesTo_of_events (h : convertPattern o (.schema d) units = .ok c) (hr : r.IsSyntaxOf o units)
    (hes : (r.course o {}).map Event.unnumbered = es.map Event.unnumbered) :
    c.ComesTo (Fragment.textOf d (written es)) (r.after {}).opened
      ((warnedAt (Cursor.ofUnits units o.foldBlanks).advance es).map (stamped units)) := by
  have hof := convertPattern_of h hr
  refine ⟨?_, hof.captureCount, ?_⟩
  · rw [hof.pattern_eq, ← written_unnumbered es, ← hes, written_unnumbered]
    rfl
  · rw [warnings_of_conversion h hr, ← warnedAt_unnumbered _ es, ← hes, warnedAt_unnumbered]

/-- An expression that is converted has a pattern whose scan passes all of it. -/
theorem exists_covers (h : convertPattern o (.schema d) units = .ok c) :
    ∃ r : Regexp, r.Legal o 0 {} ∧ Covers o.foldBlanks (r.course o {}) units ∧
      c.ComesTo (Fragment.textOf d (written (r.course o {}))) (r.after {}).opened
        ((warnedAt (Cursor.ofUnits units o.foldBlanks).advance (r.course o {})).map (stamped units)) := by
  obtain ⟨r, hr⟩ := convertPattern_sound h
  exact ⟨r, hr.1, covers_course hr.1 hr.2, comesTo_of_events h hr rfl⟩

/-- An expression is converted if a scan of a pattern passes all of it, the numbers of the groups aside. -/
theorem exists_comesTo (hr : r.Legal o 0 {}) (hes : (r.course o {}).map Event.unnumbered = es.map Event.unnumbered)
    (hcovers : Covers o.foldBlanks es units) :
    ∃ c, convertPattern o (.schema d) units = .ok c ∧
      c.ComesTo (Fragment.textOf d (written es)) (r.after {}).opened
        ((warnedAt (Cursor.ofUnits units o.foldBlanks).advance es).map (stamped units)) := by
  have hmarks : passed false es = r.marks := by
    rw [← passed_unnumbered, ← hes, passed_unnumbered, (r.passed_course o {}).1]
  have hsyntax : r.IsSyntaxOf o units := ⟨hr, hmarks ▸ hcovers.spells⟩
  obtain ⟨c, hc, _⟩ := convertPattern_complete (d := d) hsyntax
  exact ⟨c, hc, comesTo_of_events hc hsyntax hes⟩

/-! ## Expressions put together -/

/-- An expression behind another. -/
theorem convertPattern_append (hx : o.variant.isXPath = false) (h₁ : convertPattern o (.schema d) e₁ = .ok c₁)
    (h₂ : convertPattern o (.schema d) e₂ = .ok c₂) :
    ∃ c, convertPattern o (.schema d) (e₁ ++ e₂) = .ok c ∧
      c.ComesTo (c₁.pattern ++ c₂.pattern) (c₁.captureCount + c₂.captureCount)
        (c₁.warnings.map (.inside (e₁ ++ e₂) 0) ++ c₂.warnings.map (.inside (e₁ ++ e₂) e₁.length)) := by
  obtain ⟨r₁, hr₁, hcovers₁, htext₁, hgroups₁, hwarnings₁⟩ := exists_covers h₁
  obtain ⟨r₂, hr₂, hcovers₂, htext₂, hgroups₂, hwarnings₂⟩ := exists_covers h₂
  have hr : (r₁.append r₂).Legal o 0 {} :=
    Regexp.legal_append hx hr₁ (r₂.legal_of_schema hx .refl hx (Nat.le_refl _) hr₂)
  have hes : ((r₁.append r₂).course o {}).map Event.unnumbered =
      (r₁.course o {} ++ r₂.course o {}).map Event.unnumbered := by
    simp only [Regexp.course_append, List.map_append, r₂.course_of_schema hx .refl hr₂]
  obtain ⟨c, hc, htext, hgroups, hwarnings⟩ := exists_comesTo (d := d) hr hes (hcovers₁.append hcovers₂)
  refine ⟨c, hc, ?_, ?_, ?_⟩
  · rw [htext, written_append, Fragment.textOf_append, htext₁, htext₂]
  · rw [hgroups, Regexp.after_append, hgroups₁, hgroups₂, Nat.add_comm]
    exact r₂.opened_after (G := {}) (Nat.zero_add _).symm
  · rw [hwarnings, hcovers₁.warnedAt_append hcovers₂, List.map_append, hwarnings₁, hwarnings₂, map_inside_stamped,
      map_inside_stamped, map_shifted_zero]

/-- Two expressions with a bar between them. -/
theorem convertPattern_alternate (hx : o.variant.isXPath = false) (h₁ : convertPattern o (.schema d) e₁ = .ok c₁)
    (h₂ : convertPattern o (.schema d) e₂ = .ok c₂) :
    ∃ c, convertPattern o (.schema d) (e₁ ++ [unit '|'] ++ e₂) = .ok c ∧
      c.ComesTo (c₁.pattern ++ ['|'] ++ c₂.pattern) (c₁.captureCount + c₂.captureCount)
        (c₁.warnings.map (.inside (e₁ ++ [unit '|'] ++ e₂) 0) ++
          c₂.warnings.map (.inside (e₁ ++ [unit '|'] ++ e₂) (e₁.length + 1))) := by
  obtain ⟨r₁, hr₁, hcovers₁, htext₁, hgroups₁, hwarnings₁⟩ := exists_covers h₁
  obtain ⟨r₂, hr₂, hcovers₂, htext₂, hgroups₂, hwarnings₂⟩ := exists_covers h₂
  have hbar : Covers o.foldBlanks (copies '|') [unit '|'] := covers_of_reads rfl rfl trivial (by decide)
  have hr : (r₁.alternate r₂).Legal o 0 {} :=
    Regexp.legal_alternate hr₁ (r₂.legal_of_schema hx .refl hx (Nat.le_refl _) hr₂)
  have hes : ((r₁.alternate r₂).course o {}).map Event.unnumbered =
      (r₁.course o {} ++ copies '|' ++ r₂.course o {}).map Event.unnumbered := by
    simp only [Regexp.course_alternate, List.map_append, r₂.course_of_schema hx .refl hr₂]
  obtain ⟨c, hc, htext, hgroups, hwarnings⟩ := exists_comesTo (d := d) hr hes ((hcovers₁.append hbar).append hcovers₂)
  refine ⟨c, hc, ?_, ?_, ?_⟩
  · rw [htext, written_append, written_append, Fragment.textOf_append, Fragment.textOf_append, htext₁, htext₂]
    rfl
  · rw [hgroups, Regexp.after_alternate, hgroups₁, hgroups₂, Nat.add_comm]
    exact r₂.opened_after (G := {}) (Nat.zero_add _).symm
  · have hfront := hcovers₁.warnedAt_append_of_warned_eq_nil hbar rfl
    rw [hwarnings, (hcovers₁.append hbar).warnedAt_append hcovers₂, hfront, List.map_append, hwarnings₁, hwarnings₂,
      map_inside_stamped, map_inside_stamped, map_shifted_zero, List.length_append, List.length_singleton]

/-- An expression in parentheses, where groups may nest one deeper. -/
theorem convertPattern_captured (hx : o.variant.isXPath = false) (h₁ : convertPattern o (.schema d) e₁ = .ok c₁) :
    ∃ c, convertPattern { o with maxDepth := o.maxDepth + 1 } (.schema d) ([unit '('] ++ e₁ ++ [unit ')']) = .ok c ∧
      c.ComesTo (['('] ++ c₁.pattern ++ [')']) (c₁.captureCount + 1)
        (c₁.warnings.map (.inside ([unit '('] ++ e₁ ++ [unit ')']) 1)) := by
  obtain ⟨r₁, hr₁, hcovers₁, htext₁, hgroups₁, hwarnings₁⟩ := exists_covers h₁
  let o' : Options := { o with maxDepth := o.maxDepth + 1 }
  let front : List Event := [.pass (unit '('), .opens, .write (.verbatim ['('])]
  let behind : List Event := .closes 1 :: copies ')'
  have hfront : Covers o.foldBlanks front [unit '('] := covers_of_reads rfl rfl trivial (by decide)
  have hbehind : Covers o.foldBlanks behind [unit ')'] := covers_of_reads rfl rfl trivial (by decide)
  have hextends : o'.Extends o := ⟨.refl, rfl, rfl, rfl⟩
  have hr : r₁.captured.Legal o' 0 {} := by
    refine Regexp.legal_captured (Nat.succ_pos _) (r₁.legal_of_schema hx .refl hx ?_ hr₁)
    exact Nat.le_of_eq (by rw [Nat.zero_add, Nat.zero_add, Nat.add_comm])
  have hes : (r₁.captured.course o' {}).map Event.unnumbered =
      (front ++ r₁.course o {} ++ behind).map Event.unnumbered := by
    simp only [Regexp.course_captured, List.map_append, r₁.course_of_schema hx hextends hr₁]
    rfl
  obtain ⟨c, hc, htext, hgroups, hwarnings⟩ := exists_comesTo (d := d) hr hes ((hfront.append hcovers₁).append hbehind)
  refine ⟨c, hc, ?_, ?_, ?_⟩
  · rw [htext, written_append, written_append, Fragment.textOf_append, Fragment.textOf_append, htext₁]
    rfl
  · rw [hgroups, hgroups₁]
    exact r₁.opened_after (G := {}) rfl
  · have hopened := hfront.warnedAt_append hcovers₁
    rw [warnedAt_eq_nil (show warned front = [] from rfl), List.nil_append] at hopened
    rw [hwarnings, (hfront.append hcovers₁).warnedAt_append_of_warned_eq_nil hbehind rfl, hopened, hwarnings₁,
      map_inside_stamped]
    rfl

/-! ## Conversions -/

/--
Expressions of XML Schema put together are converted to what they are converted to, put together. The warnings are those
of the parts in order, and the groups are those of the parts, and one more for parentheses.
-/
theorem convert_composes (hl : o.literal = false) (hx : o.variant.isXPath = false)
    (h₁ : convert o (.schema d) e₁ = .ok c₁) (h₂ : convert o (.schema d) e₂ = .ok c₂) :
    (∃ c, convert o (.schema d) (e₁ ++ e₂) = .ok c ∧
      c.ComesTo (c₁.pattern ++ c₂.pattern) (c₁.captureCount + c₂.captureCount)
        (c₁.warnings.map (.inside (e₁ ++ e₂) 0) ++ c₂.warnings.map (.inside (e₁ ++ e₂) e₁.length))) ∧
    (∃ c, convert o (.schema d) (e₁ ++ [unit '|'] ++ e₂) = .ok c ∧
      c.ComesTo (c₁.pattern ++ ['|'] ++ c₂.pattern) (c₁.captureCount + c₂.captureCount)
        (c₁.warnings.map (.inside (e₁ ++ [unit '|'] ++ e₂) 0) ++
          c₂.warnings.map (.inside (e₁ ++ [unit '|'] ++ e₂) (e₁.length + 1)))) ∧
    ∃ c, convert { o with maxDepth := o.maxDepth + 1 } (.schema d) ([unit '('] ++ e₁ ++ [unit ')']) = .ok c ∧
      c.ComesTo (['('] ++ c₁.pattern ++ [')']) (c₁.captureCount + 1)
        (c₁.warnings.map (.inside ([unit '('] ++ e₁ ++ [unit ')']) 1)) := by
  rw [convert_of_not_literal hl] at h₁ h₂
  have hdeeper : ({ o with maxDepth := o.maxDepth + 1 } : Options).literal = false := hl
  rw [convert_of_not_literal hl, convert_of_not_literal hl, convert_of_not_literal hdeeper]
  exact ⟨convertPattern_append hx h₁ h₂, convertPattern_alternate hx h₁ h₂, convertPattern_captured hx h₁⟩

/-- The last branch of one expression and the first branch of another become one, and groups are counted on. -/
theorem convert_composes_groups :
    ∃ c, convert (.ofVariant .xsd10) (.schema .scalar) (CodeUnit.encode "a|(b)(c)*".toList) = .ok c ∧
      c.ComesTo "a|(b)(c)*".toList 2 [] := by
  have h₁ : convert (.ofVariant .xsd10) (.schema .scalar) (CodeUnit.encode "a|(b)".toList) =
      .ok ⟨[.literal 'a', .verbatim ['|'], .verbatim ['('], .literal 'b', .verbatim [')']],
        .scalar, .xsd10, false, 1, []⟩ := rfl
  have h₂ : convert (.ofVariant .xsd10) (.schema .scalar) (CodeUnit.encode "(c)*".toList) =
      .ok ⟨[.verbatim ['('], .literal 'c', .verbatim [')'], .verbatim ['*']], .scalar, .xsd10, false, 1, []⟩ := rfl
  obtain ⟨⟨c, hc, hpattern, hgroups, hwarnings⟩, -, -⟩ := convert_composes rfl rfl h₁ h₂
  exact ⟨c, hc, hpattern, hgroups, hwarnings⟩

end XmlPattern
