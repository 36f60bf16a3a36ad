import XmlPattern.Proofs.Native.Landmarks

/-!
# Groups keep their numbers

A conversion counts the groups that capture and writes each back-reference by its number. What is written has groups of
its own around references and around pairs of units, none of which captures. So the groups of an expression and those of
the native pattern are numbered alike, and a reference in the native pattern stands behind the closing parenthesis of
its group.

- `KeepsNumbers`: groups have the same numbers in an expression and in a native pattern.
- `convert_keepsNumbers`: they do on the way through a conversion, and all of them are closed at its end.
-/

namespace XmlPattern

open Grammar Native

/-! ## Either dialect -/

/-- What a place of a text is matched against in the native patterns of a dialect: a set of characters, or of units. -/
abbrev Dialect.Alphabet : Dialect → Type
  | scalar => CharSet
  | utf16 => UnitSet

/-- How native patterns of a dialect are read. -/
def Dialect.lexis : (d : Dialect) → Lexis d.Alphabet
  | scalar => .scalar
  | utf16 => .unit

/-- What an atom of one character is read as in a dialect. -/
def Grammar.Leaf.nativeTree (o : Options) : (d : Dialect) → Leaf → Native.Tree d.Alphabet
  | .scalar => scalarTree o
  | .utf16 => unitTree o

/-- The native tree of a pattern in a dialect. -/
def Grammar.Regexp.nativeTree (o : Options) (d : Dialect) (r : Regexp) : Native.Tree d.Alphabet :=
  r.tree (Leaf.nativeTree o d) (o.caseBlind && d == .scalar) o.multiLine {}

theorem readsLeaves_nativeTree (o : Options) (d : Dialect) : ReadsLeaves d.lexis d o (Leaf.nativeTree o d) := by
  cases d with
  | scalar => exact readsLeaves_scalar o
  | utf16 => exact readsLeaves_unit o

theorem Grammar.Leaf.landmarks_nativeTree (o : Options) (d : Dialect) (x : Leaf) :
    (x.nativeTree o d).landmarks = [] := by
  cases d with
  | scalar => rfl
  | utf16 => exact (x.fragment o).landmarks_unitTree

variable {o : Options} {d : Dialect} {units : List CodeUnit} {c : Conversion} {r : Regexp}

theorem tree?_nativeTree (h : convertPattern o (.schema d) units = .ok c) (hr : r.IsSyntaxOf o units) :
    d.lexis.tree? o.multiLine c.pattern = some (r.nativeTree o d, c.captureCount) := by
  have hc := convertPattern_of h hr
  rw [hc.pattern_eq, hc.captureCount]
  exact tree?_text (readsLeaves_nativeTree o d) hr.1

/-! ## Groups and their numbers -/

/-- What counts of an expression: all of it, or what is left of it without its blanks outside brackets. -/
def Options.significant (o : Options) (units : List CodeUnit) : List CodeUnit :=
  if o.foldBlanks then stripped units else units

theorem significant_of_isSyntaxOf (hr : r.IsSyntaxOf o units) : o.significant units = r.units := by
  have hspells := hr.2
  unfold Options.significant
  split
  · next hfold =>
    rw [hfold] at hspells
    exact stripped_of_spells hr.1 hspells
  · next hfold =>
    rw [Bool.not_eq_true] at hfold
    rw [hfold] at hspells
    exact spells_iff.mp hspells

/-- Groups have the same numbers, up to a last one, in an expression and in a native pattern. -/
structure KeepsNumbers (o : Options) (d : Dialect) (source : List CodeUnit) (r : Regexp) (t : Native.Tree d.Alphabet)
    (last : Nat) : Prop where
  /-- The groups of the syntax tree begin at the capturing parentheses of the expression. -/
  parens : (r.captures 0 {}).map Capture.offset = capturingParens source
  length : (capturingParens source).length = last
  /-- The groups of the native pattern are around what is written for the insides of those groups, in the same order. -/
  captures : t.captures = (r.captures 0 {}).map
    (Capture.tree (Leaf.nativeTree o d) (o.caseBlind && d == .scalar) o.multiLine)
  numbers : t.captures.map (·.1) = List.range' 1 last
  /-- A reference names one of the groups, which has been closed in front of it. -/
  references : ∀ i n : Nat, t.landmarks[i]? = some (.refers n) →
    (1 ≤ n ∧ n ≤ last) ∧ ∃ j < i, t.landmarks[j]? = some (.closes n)

theorem keepsNumbers_nativeTree (hr : r.IsSyntaxOf o units) :
    KeepsNumbers o d (o.significant units) r (r.nativeTree o d) (r.after {}).opened := by
  have hparens :=
    (r.capturingParens_units hr.1).symm.trans (congrArg capturingParens (significant_of_isSyntaxOf hr).symm)
  have hcaptures : (r.nativeTree o d).captures = (r.captures 0 {}).map
      (Capture.tree (Leaf.nativeTree o d) (o.caseBlind && d == .scalar) o.multiLine) :=
    r.captures_tree (Leaf.landmarks_nativeTree o d) {} 0
  have hnumbers : (r.captures 0 {}).map (·.front.opened + 1) = List.range' 1 (r.after {}).opened :=
    r.numbers_captures 0 {}
  refine ⟨hparens, ?_, hcaptures, ?_, fun i n hi => ?_⟩
  · rw [← hparens, List.length_map, ← List.length_map (·.front.opened + 1), hnumbers, List.length_range']
  · rw [hcaptures, List.map_map]
    exact hnumbers
  · obtain hmem | ⟨j, hj, hcloses⟩ := closes_before
      (r.refersBack_tree (Leaf.landmarks_nativeTree o d) (G := {}) hr.1) hi
    · cases hmem
    · refine ⟨?_, j, hj, hcloses⟩
      have hclosed : n ∈ (r.after {}).closed := by
        rw [← r.closedBehind_tree (Leaf.landmarks_nativeTree o d) {}]
        exact mem_closedBehind (.inr (List.mem_of_getElem? hcloses))
      have hbetween := (r.mem_closed_after {}).mp hclosed
      simpa [Nat.succ_le_iff] using hbetween

/-! ## Conversions -/

/--
A conversion keeps the numbers of the groups: there are as many capturing parentheses in what counts of the expression
as groups in the native pattern, in the same order, all of them are closed when the scan is over, and every reference in
the native pattern stands behind the end of its group.
-/
theorem convert_keepsNumbers (hl : o.literal = false) (h : convert o (.schema d) units = .ok c) :
    ∃ (r : Regexp) (t : Native.Tree d.Alphabet) (s : ScanState), r.IsSyntaxOf o units ∧
      d.lexis.tree? o.multiLine c.pattern = some (t, c.captureCount) ∧
      KeepsNumbers o d (o.significant units) r t c.captureCount ∧
      (ScanState.ofUnits o units).scan (Scan.pattern o (.schema d)) = (.ok (), s) ∧
      ∀ n, n ∈ s.closed ↔ 1 ≤ n ∧ n ≤ c.captureCount := by
  rw [convert_of_not_literal hl] at h
  obtain ⟨r, hr⟩ := convertPattern_sound h
  obtain ⟨s, hscan, hf⟩ := scan_complete (d := d) hr
  have hcount := (convertPattern_of h hr).captureCount
  have hgroups : s.groups = r.after {} := (follows_groups hf).trans (r.passed_course o {}).2.2
  refine ⟨r, r.nativeTree o d, s, hr, tree?_nativeTree h hr, hcount ▸ keepsNumbers_nativeTree hr, hscan, fun n => ?_⟩
  rw [show s.closed = (r.after {}).closed from congrArg Groups.closed hgroups, r.mem_closed_after {}, hcount]
  simp [Nat.succ_le_iff]

/-- Two groups, and in the second a reference to the first, with blanks that do not count. -/
theorem convert_keepsNumbers_nested :
    ∃ (r : Regexp) (t : Native.Tree CharSet), Lexis.scalar.tree? false "(a)(b(?:\\1))".toList = some (t, 2) ∧
      KeepsNumbers { Options.ofVariant .xpath20 with foldBlanks := true } .scalar
        (CodeUnit.encode "(a)(b\\1)".toList) r t 2 := by
  have hconvert : convert { Options.ofVariant .xpath20 with foldBlanks := true } (.schema .scalar)
      (CodeUnit.encode "( a ) (b \\1)".toList) = .ok ⟨[.verbatim ['('], .literal 'a', .verbatim [')'], .verbatim ['('],
        .literal 'b', .reference 1 false, .verbatim [')']], .scalar, .xpath20, false, 2, []⟩ := rfl
  obtain ⟨r, t, _, _, ht, hkeeps, _⟩ := convert_keepsNumbers rfl hconvert
  exact ⟨r, t, ht, hkeeps⟩

end XmlPattern
