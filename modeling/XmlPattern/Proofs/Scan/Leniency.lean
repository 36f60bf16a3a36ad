import XmlPattern.Conversion
import XmlPattern.Proofs.Scan.Classes
import XmlPattern.Proofs.Xml.BlockNames

/-!
# Scans that tolerate unknown blocks

The two grammars of XML Schema differ in one place: where no block has a name, the older one fails and the newer one
warns. So a scan by the newer grammar ends as the one by the older does, unless the latter fails for the name of a
block. Scanners in a row inherit this from one another, and a scanner from those that it is made of.

- `Tolerated.bind`: scanners in a row.
- `pattern_tolerated`: the scanners of whole expressions.
- `run_withOptions`: a scan only asks its state how deep groups may nest.
-/

namespace XmlPattern

/-- A scan has failed because no block has a name. -/
def Diagnostic.IsUnknownBlock (d : Diagnostic) : Prop := ∃ name, d.reason = .unknownBlock name

/-- The same options for another grammar. -/
abbrev Options.withVariant (o : Options) (v : Variant) : Options := { o with variant := v }

namespace Scan

variable {α β : Type} {p q : Scan α} {f g : α → Scan β}

/-- The second scanner ends as the first one does, unless the first one fails for the name of a block. -/
def Tolerated (p q : Scan α) : Prop :=
  ∀ s, q.run s = p.run s ∨ ∃ d, (p.run s).1 = .error d ∧ d.IsUnknownBlock

namespace Tolerated

theorem refl (p : Scan α) : Tolerated p p := fun _ => .inl rfl

theorem bind (h : Tolerated p q) (hk : ∀ a, Tolerated (f a) (g a)) : Tolerated (p >>= f) (q >>= g) := by
  intro s
  rw [run_bind, run_bind]
  rcases h s with heq | ⟨d, hd, hblock⟩
  · rw [heq]
    cases p.run s with
    | mk r t =>
      cases r with
      | ok a => exact hk a t
      | error d => exact .inl rfl
  · generalize p.run s = x at hd
    obtain ⟨r, t⟩ := x
    obtain rfl : r = .error d := hd
    exact .inr ⟨d, rfl, hblock⟩

/-- What is in front of two scanners does not matter. -/
theorem behind (p : Scan α) (hk : ∀ a, Tolerated (f a) (g a)) : Tolerated (p >>= f) (p >>= g) := (refl p).bind hk

/-- What is behind two scanners does not matter. -/
theorem before (h : Tolerated p q) (f : α → Scan β) : Tolerated (p >>= f) (q >>= f) := h.bind fun a => refl (f a)

end Tolerated

/-! ## The scanners -/

theorem blockChars_tolerated (name : List Char) : Tolerated (blockChars .xsd10 name) (blockChars .xsd11 name) := by
  intro s
  cases h : Block.charsNamed? false name with
  | some cs =>
    have hlenient : Block.charsNamed? Variant.xsd11.isLenient name = some cs := Block.charsNamed?_loose h
    have hstrict : Block.charsNamed? Variant.xsd10.isLenient name = some cs := h
    rw [blockChars, blockChars, hlenient, hstrict]
    exact .inl rfl
  | none =>
    have hstrict : Block.charsNamed? Variant.xsd10.isLenient name = none := h
    rw [blockChars, blockChars, hstrict]
    exact .inr ⟨s.diagnostic (.unknownBlock name), rfl, name, rfl⟩

theorem namedChars_tolerated (name : List Char) : Tolerated (namedChars .xsd10 name) (namedChars .xsd11 name) := by
  unfold namedChars
  split
  · exact blockChars_tolerated _
  · exact .refl _

variable {o : Options} {n : Nat}

theorem propertyEscape_tolerated (negated : Bool) :
    Tolerated (propertyEscape (o.withVariant .xsd10) n negated) (propertyEscape (o.withVariant .xsd11) n negated) := by
  refine .behind _ fun _ => .behind _ fun _ => .behind _ fun _ => .behind _ fun name => ?_
  exact (namedChars_tolerated _).before _

theorem escape_tolerated : Tolerated (escape (o.withVariant .xsd10) n) (escape (o.withVariant .xsd11) n) := by
  refine .behind _ fun c => ?_
  split
  · exact .refl _
  · exact propertyEscape_tolerated false
  · exact propertyEscape_tolerated true
  · exact .refl _

theorem member_tolerated : Tolerated (member (o.withVariant .xsd10) n) (member (o.withVariant .xsd11) n) := by
  refine .behind _ fun c => ?_
  split
  · exact .behind _ fun _ => escape_tolerated
  · exact .refl _
  · exact .refl _
  · exact .refl _

theorem members_tolerated (first : Bool) (s : CharSet) :
    Tolerated (members (o.withVariant .xsd10) n first s) (members (o.withVariant .xsd11) n first s) := by
  induction n generalizing first s with
  | zero => exact .refl _
  | succ n ih =>
    refine .behind _ fun u => ?_
    split
    · exact .refl _
    · split
      · exact .refl _
      · split
        · refine .behind _ fun behind => ?_
          split
          · exact .refl _
          · split
            · exact .refl _
            · exact .behind _ fun _ => ih _ _
        · refine member_tolerated.bind fun lower => .behind _ fun hyphen => ?_
          split
          · refine .behind _ fun next => ?_
            split
            · exact .refl _
            · refine .behind _ fun _ => .behind _ fun close => ?_
              split
              · exact .refl _
              · refine member_tolerated.bind fun upper => ?_
                split
                · split
                  · exact .refl _
                  · exact ih _ _
                · exact .refl _
          · exact ih _ _

theorem subtraction_tolerated {p q : Scan CharSet} (h : Tolerated p q) (s : CharSet) :
    Tolerated (subtraction p s) (subtraction q s) :=
  .behind _ fun _ => h.before _

theorem classRest_tolerated
    (h : Tolerated (classExpr (o.withVariant .xsd10) n) (classExpr (o.withVariant .xsd11) n)) (outer negated : Bool) :
    Tolerated (classRest (o.withVariant .xsd10) n outer negated)
      (classRest (o.withVariant .xsd11) n outer negated) := by
  refine .behind _ fun empty => ?_
  split
  · exact .refl _
  · refine (members_tolerated true ∅).bind fun listed => .behind _ fun hyphen => ?_
    split
    · exact (subtraction_tolerated h _).before _
    · exact .refl _

theorem classExpr_tolerated : Tolerated (classExpr (o.withVariant .xsd10) n) (classExpr (o.withVariant .xsd11) n) := by
  induction n with
  | zero => exact .refl _
  | succ n ih =>
    refine .behind _ fun outer => .behind _ fun _ => .behind _ fun _ => .behind _ fun negated => ?_
    have hrest := classRest_tolerated ih outer negated
    split
    · exact .behind _ fun _ => hrest
    · exact hrest

theorem schemaEscape_tolerated :
    Tolerated (schemaEscape (o.withVariant .xsd10) n) (schemaEscape (o.withVariant .xsd11) n) := by
  refine .behind _ fun _ => .behind _ fun c => ?_
  split
  · exact escape_tolerated.before _
  · exact escape_tolerated.before _

section Atoms

variable {p q : Scan Unit}

theorem groupBody_tolerated (h : Tolerated p q) (close : Scan Unit) :
    Tolerated (groupBody p close) (groupBody q close) :=
  h.before _

/-- Neither grammar has groups that do not capture. -/
theorem group_tolerated (h : Tolerated p q) : Tolerated (group .xsd10 p) (group .xsd11 q) :=
  .behind _ fun _ => .behind _ fun _ => .behind _ fun _ => .behind _ fun _ => groupBody_tolerated h _

theorem schemaAtom_tolerated (h : Tolerated p q) :
    Tolerated (schemaAtom (o.withVariant .xsd10) n p) (schemaAtom (o.withVariant .xsd11) n q) := by
  refine .behind _ fun u => ?_
  split
  · exact .refl _
  · split
    · exact (group_tolerated h).before _
    · exact schemaEscape_tolerated.before _
    · exact classExpr_tolerated.before _
    · exact .refl _
    · exact .refl _
    · exact .refl _

end Atoms

/-! ## Patterns -/

theorem branch_tolerated {p q : Scan Bool} (h : Tolerated p q) : Tolerated (branch .xsd10 p n) (branch .xsd11 q n) := by
  induction n with
  | zero => exact .refl _
  | succ n ih =>
    refine h.bind fun found => ?_
    split
    · exact .behind _ fun _ => ih
    · exact .refl _

theorem alternatives_tolerated {p q : Scan Unit} (h : Tolerated p q) :
    Tolerated (alternatives p n) (alternatives q n) := by
  induction n with
  | zero => exact .refl _
  | succ n ih =>
    refine .behind _ fun bar => ?_
    split
    · exact .behind _ fun _ => h.bind fun _ => ih
    · exact .refl _

theorem regexp_tolerated {p q : Scan Bool} (h : Tolerated p q) : Tolerated (regexp .xsd10 p n) (regexp .xsd11 q n) :=
  (branch_tolerated h).bind fun _ => alternatives_tolerated (branch_tolerated h)

theorem atom_tolerated (d : Dialect) (depth : Nat) :
    Tolerated (atom (o.withVariant .xsd10) (.schema d) n depth) (atom (o.withVariant .xsd11) (.schema d) n depth) := by
  induction n generalizing depth with
  | zero => exact .refl _
  | succ n ih => exact schemaAtom_tolerated (.behind _ fun _ => regexp_tolerated (ih _))

theorem pattern_tolerated (d : Dialect) :
    Tolerated (pattern (o.withVariant .xsd10) (.schema d) n) (pattern (o.withVariant .xsd11) (.schema d) n) :=
  .behind _ fun _ => (regexp_tolerated (atom_tolerated d 0)).before _

/-! ## What a scan asks its options -/

theorem options_command (c : Command α) (s : ScanState) : (c.run s).2.options = s.options := by
  cases c with
  | descend depth => rw [command_descend]
  | _ => rfl

/-- A scan leaves its options as they are. -/
theorem options_run (p : Scan α) (s : ScanState) : (p.run s).2.options = s.options :=
  run_keeps (P := fun t => t.options = s.options) (fun c t h => (options_command c t).trans h) p rfl

end Scan

/-- The same state of a scan with other options. -/
def ScanState.withOptions (s : ScanState) (o : Options) : ScanState := { s with options := o }

namespace Scan

variable {α : Type} {o : Options}

theorem command_withOptions (c : Command α) {s : ScanState} (h : o.maxDepth = s.options.maxDepth) :
    c.run (s.withOptions o) = ((c.run s).1, (c.run s).2.withOptions o) := by
  cases c with
  | descend depth =>
    simp only [Command.run, ScanState.withOptions, h]
    split <;> rfl
  | _ => rfl

/-- A scan only asks its state how deep groups may nest. -/
theorem run_withOptions (p : Scan α) {s : ScanState} (h : o.maxDepth = s.options.maxDepth) :
    p.run (s.withOptions o) = ((p.run s).1, (p.run s).2.withOptions o) := by
  induction p generalizing s with
  | done a => rfl
  | command c => exact command_withOptions c h
  | andThen p f ihp ihf =>
    have hoptions := options_run p s
    rw [run, run, ihp h]
    generalize p.run s = x at hoptions
    obtain ⟨a | d, t⟩ := x
    · rfl
    · exact ihf _ (h.trans (congrArg Options.maxDepth hoptions).symm)

end Scan

/-! ## Conversions -/

/-- The newer grammar of XML Schema converts what the older does, and fails as it does but for names of blocks. -/
theorem convertPattern_tolerated (o : Options) (d : Dialect) (units : List CodeUnit) :
    convertPattern (o.withVariant .xsd11) (.schema d) units =
        (convertPattern (o.withVariant .xsd10) (.schema d) units).map (fun c => { c with variant := .xsd11 }) ∨
      ∃ w, convertPattern (o.withVariant .xsd10) (.schema d) units = .error (.pattern w) ∧ w.IsUnknownBlock := by
  let s := ScanState.ofUnits (o.withVariant .xsd10) units
  let older := Scan.pattern (o.withVariant .xsd10) (.schema d) s.cursor.remaining
  let newer := Scan.pattern (o.withVariant .xsd11) (.schema d) s.cursor.remaining
  have holder : s.scan (Scan.pattern (o.withVariant .xsd10) (.schema d)) = older.run s := rfl
  have hnewer : (ScanState.ofUnits (o.withVariant .xsd11) units).scan
      (Scan.pattern (o.withVariant .xsd11) (.schema d)) =
      ((newer.run s).1, (newer.run s).2.withOptions (o.withVariant .xsd11)) :=
    Scan.run_withOptions newer (s := s) (o := o.withVariant .xsd11) rfl
  have hends : newer.run s = older.run s ∨ ∃ w, (older.run s).1 = .error w ∧ w.IsUnknownBlock :=
    Scan.pattern_tolerated d s
  unfold convertPattern
  rw [holder, hnewer]
  generalize older.run s = x at hends
  rcases hends with heq | ⟨w, hw, hblock⟩
  · rw [heq]
    obtain ⟨_ | _, t⟩ := x <;> exact .inl rfl
  · obtain ⟨r, t⟩ := x
    obtain rfl : r = .error w := hw
    exact .inr ⟨w, rfl, hblock⟩

end XmlPattern
