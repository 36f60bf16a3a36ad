import XmlPattern.Proofs.Native.ScalarAtoms

/-!
# Structure is preserved

The pattern that is written for an expression of the scalar dialect, read as native syntax, has the shape of the
expression's own syntax tree: alternatives, sequences, quantifiers, groups, anchors and back-references correspond one
to one, and each atom of one character becomes one atom. That atom stands for the same characters as the one of the
expression, unless the conversion takes the latter for something else, which is a matter of the surrogate gap alone.

- `Regexp.Mirrors`: a native tree has the shape of a syntax tree, and its atoms stand for the same characters.
- `Regexp.mirrors_tree_iff`: when the tree of a pattern does.
- `convert_mirrors_iff`: what is written for an expression mirrors it exactly when each of its atoms is taken for what
  it stands for.
-/

namespace XmlPattern

namespace Grammar

open Native

/-! ## Trees of one shape -/

section

variable (o : Options)

mutual

/-- A native tree mirrors an atom behind some groups. -/
def Atom.Mirrors : Groups → Atom → Native.Tree CharSet → Prop
  | _, .leaf l, t => ∃ s, t = .chars s ∧ ∀ c, c ∈ s ↔ l.Denotes o c
  | _, .anchor c, t => t = .boundary (anchorBoundary o.multiLine c)
  | _, .reference digits, t => t = .back (Numeral.ofDecimal digits) o.caseBlind
  | G, .group true r, t => ∃ u, t = .group (.capturing (G.opened + 1)) u ∧ r.Mirrors G.open u
  | G, .group false r, t => ∃ u, t = .group .plain u ∧ r.Mirrors G u

/-- A native tree mirrors a branch behind some groups. -/
def Branch.Mirrors : Groups → Branch → Native.Tree CharSet → Prop
  | _, .nil, t => t = .empty
  | G, .cons a q b, t => ∃ u v, t = .seq (u.quantify q) v ∧ a.Mirrors G u ∧ b.Mirrors (a.after G) v

/-- A native tree mirrors a pattern behind some groups. -/
def Regexp.Mirrors : Groups → Regexp → Native.Tree CharSet → Prop
  | G, .branch b, t => b.Mirrors G t
  | G, .bar b r, t => ∃ u v, t = .alt u v ∧ b.Mirrors G u ∧ r.Mirrors (b.after G) v

end

end

theorem quantify_inj {α : Type} {a b : Native.Tree α} {q : Option Quantifier}
    (h : a.quantify q = b.quantify q) : a = b := by
  cases q with
  | none => exact h
  | some q => exact (Tree.repeated.inj h).2.2.2

/-! ## The tree of a pattern -/

/-- What an atom of one character is read as in the scalar dialect. -/
def Leaf.scalarTree (o : Options) (l : Leaf) : Native.Tree CharSet := .chars (l.fragment o).readBack

mutual

theorem Atom.mirrors_tree_iff (o : Options) : (G : Groups) → (a : Atom) →
    (a.Mirrors o G (a.tree (Leaf.scalarTree o) o.caseBlind o.multiLine G) ↔ a.Every (Leaf.Faithful o))
  | G, .leaf l => by
    refine Iff.trans ⟨?_, fun h => ⟨_, rfl, h⟩⟩ l.readBack_iff_faithful
    rintro ⟨t, ht, h⟩
    rw [Tree.chars.inj ht]
    exact h
  | G, .anchor c => iff_of_true rfl trivial
  | G, .reference digits => iff_of_true rfl trivial
  | G, .group true r => by
    refine Iff.trans ⟨?_, fun h => ⟨_, rfl, h⟩⟩ (r.mirrors_tree_iff o G.open)
    rintro ⟨u, hu, h⟩
    rw [(Tree.group.inj hu).2]
    exact h
  | G, .group false r => by
    refine Iff.trans ⟨?_, fun h => ⟨_, rfl, h⟩⟩ (r.mirrors_tree_iff o G)
    rintro ⟨u, hu, h⟩
    rw [(Tree.group.inj hu).2]
    exact h

theorem Branch.mirrors_tree_iff (o : Options) : (G : Groups) → (b : Branch) →
    (b.Mirrors o G (b.tree (Leaf.scalarTree o) o.caseBlind o.multiLine G) ↔ b.Every (Leaf.Faithful o))
  | G, .nil => iff_of_true rfl trivial
  | G, .cons a q b => by
    refine Iff.trans ⟨?_, fun h => ⟨_, _, rfl, h⟩⟩
      (and_congr (a.mirrors_tree_iff o G) (b.mirrors_tree_iff o (a.after G)))
    rintro ⟨u, v, hu, h⟩
    rw [quantify_inj (Tree.seq.inj hu).1, (Tree.seq.inj hu).2]
    exact h

/-- The tree of a pattern mirrors the pattern exactly when each of its atoms is taken for what it stands for. -/
theorem Regexp.mirrors_tree_iff (o : Options) : (G : Groups) → (r : Regexp) →
    (r.Mirrors o G (r.tree (Leaf.scalarTree o) o.caseBlind o.multiLine G) ↔ r.Every (Leaf.Faithful o))
  | G, .branch b => b.mirrors_tree_iff o G
  | G, .bar b r => by
    refine Iff.trans ⟨?_, fun h => ⟨_, _, rfl, h⟩⟩
      (and_congr (b.mirrors_tree_iff o G) (r.mirrors_tree_iff o (b.after G)))
    rintro ⟨u, v, hu, h⟩
    rw [(Tree.alt.inj hu).1, (Tree.alt.inj hu).2]
    exact h

end

/-- The native tree of a pattern of the scalar dialect. -/
def Regexp.scalarTree (o : Options) (r : Regexp) : Native.Tree CharSet :=
  r.tree (Leaf.scalarTree o) o.caseBlind o.multiLine {}

end Grammar

open Grammar Native

/-! ## Conversions -/

theorem Conversion.Of.pattern_eq {c : Conversion} {o : Options} {d : Dialect} {r : Regexp} (h : c.Of o d r) :
    c.pattern = r.text d o {} := by
  rw [Conversion.pattern, h.fragments, h.dialect]
  rfl

theorem tree?_of_conversion {o : Options} {units : List CodeUnit} {c : Conversion} {r : Regexp}
    (h : convertPattern o (.schema .scalar) units = .ok c) (hr : r.IsSyntaxOf o units) :
    Lexis.scalar.tree? o.multiLine c.pattern = some (r.scalarTree o, c.captureCount) := by
  have hc := convertPattern_of h hr
  rw [hc.pattern_eq, hc.captureCount, tree?_text (readsLeaves_scalar o) hr.1,
    show (o.caseBlind && Dialect.scalar == .scalar) = o.caseBlind from Bool.and_true _]
  rfl

theorem convert_of_not_literal {o : Options} (hl : o.literal = false) (atoms : Atoms) (units : List CodeUnit) :
    convert o atoms units = convertPattern o atoms units := by
  rw [convert, hl, if_neg Bool.false_ne_true]

/--
What is written for an expression is a native pattern with as many groups. It mirrors any syntax tree of the expression,
and there is one, exactly when each atom of the tree is taken for what it stands for.
-/
theorem convert_mirrors_iff {o : Options} (hl : o.literal = false) {units : List CodeUnit} {c : Conversion}
    (h : convert o (.schema .scalar) units = .ok c) :
    ∃ t, Lexis.scalar.tree? o.multiLine c.pattern = some (t, c.captureCount) ∧
      (∃ r : Regexp, r.IsSyntaxOf o units) ∧
      ∀ r : Regexp, r.IsSyntaxOf o units → (r.Mirrors o {} t ↔ r.Every (Leaf.Faithful o)) := by
  rw [convert_of_not_literal hl] at h
  obtain ⟨r, hr⟩ := convertPattern_sound h
  refine ⟨r.scalarTree o, tree?_of_conversion h hr, ⟨r, hr⟩, fun r' hr' => ?_⟩
  -- The text has one tree, whichever syntax tree it is written for.
  have hsame := (tree?_of_conversion h hr).symm.trans (tree?_of_conversion h hr')
  rw [(Prod.mk.inj (Option.some.inj hsame)).1]
  exact r'.mirrors_tree_iff o {}

/-- A choice and a reference to it are mirrored. -/
theorem convert_mirrors_choice :
    ∃ t, Lexis.scalar.tree? false "(a|b)*(?:\\1)".toList = some (t, 1) ∧
      ∃ r : Regexp, r.IsSyntaxOf (.ofVariant .xpath20) (CodeUnit.encode "(a|b)*\\1".toList) ∧
        r.Mirrors (.ofVariant .xpath20) {} t := by
  let choice : Regexp := .bar (.cons (.leaf (.single (.plain 'a'))) none .nil)
    (.branch (.cons (.leaf (.single (.plain 'b'))) none .nil))
  let r : Regexp := .branch (.cons (.group true choice) (some ⟨.star, false⟩) (.cons (.reference ['1']) none .nil))
  have hr : r.IsSyntaxOf (.ofVariant .xpath20) (CodeUnit.encode "(a|b)*\\1".toList) := by
    refine ⟨⟨⟨by decide, ⟨⟨by decide, by decide⟩, nofun, trivial, trivial⟩,
        ⟨by decide, by decide⟩, nofun, trivial, trivial⟩, ?_, trivial,
      ⟨rfl, ⟨by decide, List.all_iff_forall_prop.mp (by decide)⟩, by decide, List.mem_singleton.mpr rfl⟩,
        nofun, trivial, trivial⟩, ?_⟩
    · rintro _ ⟨⟩
      exact ⟨trivial, nofun⟩
    · exact spells_iff.mpr (by decide)
  have hfaithful : r.Every (Leaf.Faithful (.ofVariant .xpath20)) :=
    ⟨⟨⟨fun _ => Iff.rfl, trivial⟩, fun _ => Iff.rfl, trivial⟩, trivial, trivial⟩
  have hconvert : convert (.ofVariant .xpath20) (.schema .scalar) (CodeUnit.encode "(a|b)*\\1".toList) =
      .ok ⟨[.verbatim ['('], .literal 'a', .verbatim ['|'], .literal 'b', .verbatim [')'], .verbatim ['*'],
        .reference 1 false], .scalar, .xpath20, false, 1, []⟩ := rfl
  obtain ⟨t, ht, _, hall⟩ := convert_mirrors_iff rfl hconvert
  exact ⟨t, ht, r, hr, (hall r hr).mpr hfaithful⟩

/-! ## A list that straddles the gap -/

/-- The syntax tree of `[^\uD7FF\uE000]`. -/
def Grammar.gapRegexp : Regexp := .branch (.cons (.leaf (.charClass (.list gapList))) none .nil)

theorem Grammar.gapRegexp_isSyntaxOf (v : Variant) :
    gapRegexp.IsSyntaxOf (.ofVariant v) (CodeUnit.encode "[^\uD7FF\uE000]".toList) :=
  ⟨⟨legal_gapList v, nofun, trivial, trivial⟩, spells_iff.mpr (by decide)⟩

/-- `[^\uD7FF\uE000]` is written as an atom that stands for other characters. -/
theorem not_mirrored_gapList :
    ¬ ∀ (o : Options) (units : List CodeUnit) (c : Conversion) (r : Regexp), o.literal = false →
      convert o (.schema .scalar) units = .ok c → r.IsSyntaxOf o units →
      ∃ t, Lexis.scalar.tree? o.multiLine c.pattern = some (t, c.captureCount) ∧ r.Mirrors o {} t := by
  intro hall
  have hr := gapRegexp_isSyntaxOf .xpath20
  obtain ⟨c, hc, _⟩ := convertPattern_complete (d := .scalar) hr
  obtain ⟨t, ht, hm⟩ := hall (.ofVariant .xpath20) _ c gapRegexp rfl (by rw [convert_of_not_literal rfl, hc]) hr
  have hsame := (tree?_of_conversion hc hr).symm.trans ht
  rw [← (Prod.mk.inj (Option.some.inj hsame)).1] at hm
  have hfaithful : gapRegexp.Every (Leaf.Faithful (.ofVariant .xpath20)) := (gapRegexp.mirrors_tree_iff _ {}).mp hm
  exact ClassTree.faithful_list.mp hfaithful.1 (straddles_gapList _)

end XmlPattern
