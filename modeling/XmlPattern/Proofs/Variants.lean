import XmlPattern.Proofs.Grammar.Extension
import XmlPattern.Proofs.Numbering
import XmlPattern.Proofs.Scan.Leniency
import XmlPattern.Proofs.Scan.Warnings

/-!
# Later grammars and earlier ones

Each grammar keeps what an earlier one says. The newer grammar of XML Schema converts what the older one does, and fails
as it does but for names of blocks; XPath 3.0 converts what XPath 2.0 does. XPath takes `^` and `$` for anchors, which
XML Schema does not have: an expression of XML Schema is converted alike by XPath where neither stands by itself.

- `HasAnchor`: whether a bare `^` or `$` stands outside brackets, told from the expression alone.
- `convert_extends`: what each grammar keeps.
-/

namespace XmlPattern

namespace Grammar

/-! ## Bare anchors -/

/-- Behind a place stands a `^` or `$` outside brackets that no backslash takes. -/
def HasAnchor : Place → List CodeUnit → Prop
  | _, [] => False
  | p, u :: us => p = {} ∧ u ∈ basic anchorChars ∨ HasAnchor (p.step u) us

instance decidableHasAnchor : (p : Place) → (us : List CodeUnit) → Decidable (HasAnchor p us)
  | _, [] => inferInstanceAs (Decidable False)
  | p, u :: us =>
    have := decidableHasAnchor (p.step u) us
    inferInstanceAs (Decidable (p = {} ∧ u ∈ basic anchorChars ∨ HasAnchor (p.step u) us))

variable {p q : Place} {ms ns : List Mark}

/-- Neither part of what has no anchor has one. -/
theorem not_hasAnchor_append (h : Leads p ms q) (hn : ¬ HasAnchor p ((ms ++ ns).map (·.1))) :
    ¬ HasAnchor p (ms.map (·.1)) ∧ ¬ HasAnchor q (ns.map (·.1)) := by
  induction ms generalizing p with
  | nil =>
    obtain rfl : q = p := h
    exact ⟨id, hn⟩
  | cons m ms ih =>
    obtain ⟨hhead, htail⟩ := not_or.mp hn
    obtain ⟨hms, hns⟩ := ih h.2 htail
    exact ⟨not_or.mpr ⟨hhead, hms⟩, hns⟩

theorem Leaf.keeps_of_not_hasAnchor (v w : Variant) {l : Leaf} (hn : ¬ HasAnchor {} (l.marks.map (·.1))) :
    l.Keeps v w := by
  have hascii : ∀ c ∈ anchorChars, CodeUnit.ofChar c = [unit c] := List.all_iff_forall_prop.mp (by decide)
  refine fun _ => .inr ?_
  rintro ⟨c, hc, rfl⟩
  refine hn ?_
  rw [marks, Single.units, hascii c hc]
  exact .inl ⟨rfl, List.mem_map_of_mem hc⟩

variable {o : Options} (v w : Variant)

mutual

theorem Atom.every_keeps : {depth : Nat} → {G : Groups} → (a : Atom) → a.Legal o depth G →
    ¬ HasAnchor {} (a.marks.map (·.1)) → a.Every (Leaf.Keeps v w)
  | _, _, .leaf l, _, hn => l.keeps_of_not_hasAnchor v w hn
  | _, _, .anchor _, _, _ => trivial
  | _, _, .reference _, _, _ => trivial
  | _, _, .group true r, ha, hn => by
    rw [Atom.marks, List.append_assoc] at hn
    have hinner := (not_hasAnchor_append (leads_text ['('] (by decide)) hn).2
    exact r.every_keeps ha.2 (not_hasAnchor_append (r.leads ha.2) hinner).1
  | _, _, .group false r, ha, hn => by
    rw [Atom.marks, List.append_assoc] at hn
    have hinner := (not_hasAnchor_append (leads_text ['(', '?', ':'] (by decide)) hn).2
    exact r.every_keeps ha.2.2 (not_hasAnchor_append (r.leads ha.2.2) hinner).1

theorem Branch.every_keeps : {depth : Nat} → {G : Groups} → (b : Branch) → b.Legal o depth G →
    ¬ HasAnchor {} (b.marks.map (·.1)) → b.Every (Leaf.Keeps v w)
  | _, _, .nil, _, _ => trivial
  | _, _, .cons a q b, hb, hn => by
    have hfront : Leads {} (a.marks ++ quantifierMarks q) {} :=
      (Atom.leads hb.1).append (passes_quantifier hb.2.1).leads
    obtain ⟨hfirst, hrest⟩ := not_hasAnchor_append hfront hn
    exact ⟨a.every_keeps hb.1 (not_hasAnchor_append (Atom.leads hb.1) hfirst).1, b.every_keeps hb.2.2.2 hrest⟩

/-- Without bare anchors, the atoms of a pattern mean the same in every grammar. -/
theorem Regexp.every_keeps : {depth : Nat} → {G : Groups} → (r : Regexp) → r.Legal o depth G →
    ¬ HasAnchor {} (r.marks.map (·.1)) → r.Every (Leaf.Keeps v w)
  | _, _, .branch b, hr, hn => b.every_keeps hr hn
  | _, _, .bar b r, hr, hn => by
    have hfront : Leads {} (b.marks ++ outside [unit '|']) {} := (b.leads hr.1).append (leads_text ['|'] (by decide))
    obtain ⟨hfirst, hrest⟩ := not_hasAnchor_append hfront hn
    exact ⟨b.every_keeps hr.1 (not_hasAnchor_append (b.leads hr.1) hfirst).1, r.every_keeps hr.2 hrest⟩

end

end Grammar

open Grammar

/-! ## Conversions -/

variable {o : Options} {d : Dialect} {units : List CodeUnit} {v w : Variant}

theorem Options.extends_withVariant (o : Options) (h : w.Extends v) : (o.withVariant w).Extends (o.withVariant v) :=
  ⟨h, rfl, rfl, rfl⟩

/--
A grammar that extends a strict one converts an expression as that does, unless an atom means something else in it.
-/
theorem convertPattern_of_extends (h : w.Extends v) (hv : v.isLenient = false) {c : Conversion}
    (hc : convertPattern (o.withVariant v) (.schema d) units = .ok c)
    (hkeeps : ∀ r : Regexp, r.IsSyntaxOf (o.withVariant v) units → r.Every (Leaf.Keeps v w)) :
    c.warnings = [] ∧ convertPattern (o.withVariant w) (.schema d) units = .ok { c with variant := w } := by
  obtain ⟨r, hr⟩ := convertPattern_sound hc
  have hr' : r.IsSyntaxOf (o.withVariant w) units :=
    ⟨r.legal_of_extends (o := o.withVariant v) h (Nat.le_refl _) (fun _ => rfl) hr.1 (hkeeps r hr), hr.2⟩
  have hcourse := r.course_of_extends (o.extends_withVariant h) hr.1 fun _ => rfl
  obtain ⟨c', hc', hof'⟩ := convertPattern_complete (d := d) hr'
  have hof := convertPattern_of hc hr
  have hfragments : c'.fragments = c.fragments := by
    rw [hof'.fragments, hof.fragments, Regexp.fragments, Regexp.fragments, ← written_unnumbered, hcourse,
      written_unnumbered]
  have hwarned : warned (r.course (o.withVariant v) {}) = [] := r.warned_of_strict hv hr.1
  have hwarned' : warned (r.course (o.withVariant w) {}) = [] := by
    rwa [← warned_unnumbered, ← hcourse, warned_unnumbered] at hwarned
  have hwarnings : c.warnings = [] := by rw [warnings_of_conversion hc hr, warnedAt_eq_nil hwarned, List.map_nil]
  have hwarnings' : c'.warnings = [] := by rw [warnings_of_conversion hc' hr', warnedAt_eq_nil hwarned', List.map_nil]
  refine ⟨hwarnings, hc'.trans (congrArg Except.ok ?_)⟩
  cases c
  cases c'
  rw [Conversion.mk.injEq]
  exact ⟨hfragments, hof'.dialect.trans hof.dialect.symm, hof'.variant, hof'.multiLine.trans hof.multiLine.symm,
    hof'.captureCount.trans hof.captureCount.symm, hwarnings'.trans hwarnings.symm⟩

/--
What each grammar keeps of an earlier one: the newer grammar of XML Schema its conversions, which warn of nothing, and
its failures but for names of blocks; XPath 3.0 the conversions of XPath 2.0; and XPath 2.0 those conversions of XML
Schema that have no bare anchor in what counts of the expression.
-/
theorem convert_extends (o : Options) (hl : o.literal = false) (d : Dialect) (units : List CodeUnit) :
    (∀ c, convert (o.withVariant .xsd10) (.schema d) units = .ok c →
      c.warnings = [] ∧ convert (o.withVariant .xsd11) (.schema d) units = .ok { c with variant := .xsd11 }) ∧
    (∀ c, convert (o.withVariant .xpath20) (.schema d) units = .ok c →
      c.warnings = [] ∧ convert (o.withVariant .xpath30) (.schema d) units = .ok { c with variant := .xpath30 }) ∧
    (∀ f, convert (o.withVariant .xsd10) (.schema d) units = .error f →
      (∃ w, f = .pattern w ∧ w.IsUnknownBlock) ∨ convert (o.withVariant .xsd11) (.schema d) units = .error f) ∧
    (∀ c, convert (o.withVariant .xsd10) (.schema d) units = .ok c → ¬ HasAnchor {} (o.significant units) →
      convert (o.withVariant .xpath20) (.schema d) units = .ok { c with variant := .xpath20 }) := by
  have hconvert : ∀ v, convert (o.withVariant v) (.schema d) units =
      convertPattern (o.withVariant v) (.schema d) units :=
    fun v => convert_of_not_literal (o := o.withVariant v) hl _ _
  simp only [hconvert]
  refine ⟨fun c hc => ?schema, fun c hc => ?xpath, fun f hf => ?failure, fun c hc hanchor => ?anchors⟩
  case schema =>
    exact convertPattern_of_extends ⟨by decide, by decide, by decide⟩ rfl hc fun r _ =>
      r.every_of_forall fun _ hx => absurd hx (by decide)
  case xpath =>
    exact convertPattern_of_extends ⟨by decide, by decide, by decide⟩ rfl hc fun r _ =>
      r.every_of_forall fun _ _ => .inl rfl
  case failure =>
    rcases convertPattern_tolerated o d units with heq | ⟨w, hw, hblock⟩
    · rw [heq, hf]
      exact .inr rfl
    · exact .inl ⟨w, Except.error.inj (hf.symm.trans hw), hblock⟩
  case anchors =>
    refine (convertPattern_of_extends ⟨by decide, by decide, by decide⟩ rfl hc fun r hr => ?_).2
    have hunits : o.significant units = r.marks.map (·.1) := significant_of_isSyntaxOf (o := o.withVariant .xsd10) hr
    exact r.every_keeps _ _ hr.1 (hunits ▸ hanchor)

/-- A caret that a backslash takes and a dollar sign in brackets are no anchors. -/
theorem convert_extends_escaped :
    ∃ c, convert (.ofVariant .xsd10) (.schema .scalar) (CodeUnit.encode "([^$]|\\^)*".toList) = .ok c ∧
      convert (.ofVariant .xsd11) (.schema .scalar) (CodeUnit.encode "([^$]|\\^)*".toList) =
        .ok { c with variant := .xsd11 } ∧
      convert (.ofVariant .xpath20) (.schema .scalar) (CodeUnit.encode "([^$]|\\^)*".toList) =
        .ok { c with variant := .xpath20 } := by
  obtain ⟨c, hc⟩ : ∃ c, convert (.ofVariant .xsd10) (.schema .scalar) (CodeUnit.encode "([^$]|\\^)*".toList) = .ok c :=
    ⟨_, rfl⟩
  obtain ⟨hschema, -, -, hanchors⟩ :=
    convert_extends (.ofVariant .xsd10) rfl .scalar (CodeUnit.encode "([^$]|\\^)*".toList)
  exact ⟨c, hc, (hschema c hc).2, hanchors c hc (by decide)⟩

end XmlPattern
