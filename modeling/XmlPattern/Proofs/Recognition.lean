import Mathlib
import XmlPattern.Proofs.Grammar.Language
import XmlPattern.Proofs.Native.Searching
import XmlPattern.Proofs.Structure

/-!
# What a converted expression accepts

An expression without anchors and back-references, once it is converted and compiled, is found in the texts of its
language: in a text as a whole under the schema grammars, in a part of a text under those of XPath. This holds for the
language in which each atom stands for what it is read as, and so for the language of the expression wherever no atom is
misread.

- `Variant.Accepts`: a text as a whole or a part of it is in a language.
- `isMatch_iff_accepts`: what a compiled expression is found in.
-/

namespace XmlPattern

open Grammar Native

/-- A text is in a language: as a whole under the schema grammars, and in part under those of XPath. -/
def Variant.Accepts (v : Variant) (l : Language Char) (text : List Char) : Prop :=
  if v.isAnchored then text ∈ l else ∃ w ∈ l, w <:+: text

/-- An atom of one character is read as standing for a character. -/
def Grammar.Leaf.Reads (o : Options) (x : Leaf) (c : Char) : Prop := c ∈ (x.fragment o).readBack

theorem accepts_congr {v : Variant} {l m : Language Char} {text : List Char} (h : SameOn (· ∈ text) l m) :
    v.Accepts l text ↔ v.Accepts m text := by
  unfold Variant.Accepts
  split
  · exact h text fun _ hc => hc
  · exact exists_congr fun w => ⟨fun ⟨hw, hi⟩ => ⟨(h w fun _ hc => hi.subset hc).mp hw, hi⟩,
      fun ⟨hw, hi⟩ => ⟨(h w fun _ hc => hi.subset hc).mpr hw, hi⟩⟩

/-! ## Compiled patterns -/

theorem tree?_of_ofPattern? {multiLine : Bool} {text : List Char} {a : Regex} {n : Nat}
    (h : Regex.ofPattern? multiLine text = some (a, n)) :
    ∃ t, Lexis.scalar.tree? multiLine text = some (t, n) ∧ Regex.ofTree? t = some a := by
  simp only [Regex.ofPattern?, Option.bind_eq_bind, Option.bind_eq_some_iff, Option.pure_def, Option.some.injEq] at h
  obtain ⟨⟨t, m⟩, ht, _, _, b, hb, he⟩ := h
  cases he
  exact ⟨t, ht, hb⟩

theorem tree?_of_compile {c : Conversion} {p : CompiledPattern} (hc : c.dialect = .scalar)
    (h : CompiledPattern.compile c = .ok p) :
    ∃ t n,
      Lexis.scalar.tree? c.multiLine (if c.variant.isAnchored then CompiledPattern.anchor c.pattern else c.pattern) =
      some (t, n) ∧ Regex.ofTree? t = some p.tree := by
  rw [CompiledPattern.compile, hc] at h
  dsimp only [CompiledPattern.ofPattern] at h
  split at h
  · next a n ha =>
    split at h
    · cases h
    · cases h
      obtain ⟨t, ht, hat⟩ := tree?_of_ofPattern? ha
      exact ⟨t, n, ht, hat⟩
  · cases h

/-! ## Expressions -/

variable {o : Options} {units : List CodeUnit} {c : Conversion} {p : CompiledPattern} {r : Regexp}

theorem recognizes_scalarTree {a : Regex} (ha : Regex.ofTree? (r.scalarTree o) = some a) (hr : r.Plain) :
    Recognizes (matcher a) (r.language (Leaf.Reads o)) := by
  have hleaf : ∀ x, (Leaf.scalarTree o x).IsPlain := fun _ => trivial
  have hplain : (r.scalarTree o).IsPlain := r.isPlain_tree hleaf {} hr
  have hlanguage : (r.scalarTree o).charLanguage = r.language (Leaf.Reads o) := r.language_tree (fun _ => rfl) {}
  rw [← hlanguage]
  exact recognizes_of_ofTree? ha hplain

/-- A compiled expression is found in the texts of the language that it is read as. -/
theorem isMatch_iff_reads (h : convertPattern o (.schema .scalar) units = .ok c)
    (hp : CompiledPattern.compile c = .ok p) (hr : r.IsSyntaxOf o units) (hplain : r.Plain) (text : List Char) :
    p.isMatch text = true ↔ o.variant.Accepts (r.language (Leaf.Reads o)) text := by
  have hc := convertPattern_of h hr
  obtain ⟨t, n, ht, hta⟩ := tree?_of_compile hc.dialect hp
  rw [hc.multiLine, hc.variant] at ht
  unfold Variant.Accepts
  split
  · next hv =>
    rw [if_pos hv, hc.pattern_eq, tree?_anchor hr.1, show (o.caseBlind && Dialect.scalar == .scalar) = o.caseBlind from
      Bool.and_true _] at ht
    cases ht
    obtain ⟨a, ha⟩ := ofTree?_of_anchored hta
    exact CompiledPattern.isMatch_anchored_iff hta ha (recognizes_scalarTree ha hplain)
  · next hv =>
    rw [if_neg hv, tree?_of_conversion h hr] at ht
    cases ht
    exact CompiledPattern.isMatch_iff_infix (recognizes_scalarTree hta hplain)

/--
A compiled expression without anchors and back-references is found in the texts that its language accepts when each atom
stands for what it is read as. So it is found where the language of the expression has it found exactly when the two
languages agree on the text, which they do as far as no atom is misread.
-/
theorem isMatch_iff_accepts (hl : o.literal = false) (h : convert o (.schema .scalar) units = .ok c)
    (hp : CompiledPattern.compile c = .ok p) (hr : r.IsSyntaxOf o units) (hplain : r.Plain) (text : List Char) :
    (p.isMatch text = true ↔ o.variant.Accepts (r.language (Leaf.Reads o)) text) ∧
      ((p.isMatch text = true ↔ o.variant.Accepts (r.language (Leaf.Denotes o)) text) ↔
        (o.variant.Accepts (r.language (Leaf.Reads o)) text ↔ o.variant.Accepts (r.language (Leaf.Denotes o)) text)) ∧
      (r.Every (fun x => ∀ d ∈ text, (x.Reads o d ↔ x.Denotes o d)) →
        (p.isMatch text = true ↔ o.variant.Accepts (r.language (Leaf.Denotes o)) text)) := by
  rw [convert_of_not_literal hl] at h
  have hreads := isMatch_iff_reads h hp hr hplain text
  refine ⟨hreads, by rw [hreads], fun hsame => hreads.trans ?_⟩
  exact accepts_congr (r.language_sameOn hsame)

/-- A repeated choice is found in the texts of the two letters, as in `abba`. -/
theorem isMatch_choice :
    ∃ p, CompiledPattern.compile ⟨[.verbatim ['('], .literal 'a', .verbatim ['|'], .literal 'b', .verbatim [')'],
        .verbatim ['*']], .scalar, .xsd10, false, 1, []⟩ = .ok p ∧
      ∃ r : Regexp, r.IsSyntaxOf (.ofVariant .xsd10) (CodeUnit.encode "(a|b)*".toList) ∧
        "abba".toList ∈ r.language (Leaf.Denotes (.ofVariant .xsd10)) := by
  let choice : Regexp := .bar (.cons (.leaf (.single (.plain 'a'))) none .nil)
    (.branch (.cons (.leaf (.single (.plain 'b'))) none .nil))
  let r : Regexp := .branch (.cons (.group true choice) (some ⟨.star, false⟩) .nil)
  have hr : r.IsSyntaxOf (.ofVariant .xsd10) (CodeUnit.encode "(a|b)*".toList) := by
    refine ⟨⟨⟨by decide, ⟨⟨by decide, by decide⟩, nofun, trivial, trivial⟩,
      ⟨by decide, by decide⟩, nofun, trivial, trivial⟩, ?_, trivial, trivial⟩, ?_⟩
    · rintro _ ⟨⟩
      exact ⟨trivial, nofun⟩
    · exact spells_iff.mpr (by decide)
  have hplain : r.Plain := ⟨⟨⟨trivial, trivial⟩, trivial, trivial⟩, trivial⟩
  have hsame : r.Every fun x => ∀ d ∈ "abba".toList,
      (x.Reads (.ofVariant .xsd10) d ↔ x.Denotes (.ofVariant .xsd10) d) :=
    ⟨⟨⟨fun d _ => Leaf.readBack_iff_faithful.mpr (fun _ => Iff.rfl) d, trivial⟩,
      fun d _ => Leaf.readBack_iff_faithful.mpr (fun _ => Iff.rfl) d, trivial⟩, trivial⟩
  have hconvert : convert (.ofVariant .xsd10) (.schema .scalar) (CodeUnit.encode "(a|b)*".toList) =
      .ok ⟨[.verbatim ['('], .literal 'a', .verbatim ['|'], .literal 'b', .verbatim [')'], .verbatim ['*']], .scalar,
        .xsd10, false, 1, []⟩ := rfl
  obtain ⟨p, hp, hmatch⟩ : ∃ p, CompiledPattern.compile ⟨[.verbatim ['('], .literal 'a', .verbatim ['|'], .literal 'b',
      .verbatim [')'], .verbatim ['*']], .scalar, .xsd10, false, 1, []⟩ = .ok p ∧ p.isMatch "abba".toList = true :=
    ⟨_, rfl, rfl⟩
  exact ⟨p, hp, r, hr, ((isMatch_iff_accepts rfl hconvert hp hr hplain _).2.2 hsame).mp hmatch⟩

theorem eq_ok_of_toOption {ε α : Type} {x : Except ε α} {a : α} (h : x.toOption = some a) : x = .ok a := by
  cases x with
  | error e => cases h
  | ok b => exact congrArg Except.ok (Option.some.inj h)

/-- `[^\uD7FF\uE000]` stands for U+D7FE, and is not found in it. -/
theorem not_accepts_gapList :
    ¬ ∀ (o : Options) (units : List CodeUnit) (c : Conversion) (p : CompiledPattern) (r : Regexp) (text : List Char),
      o.literal = false → convert o (.schema .scalar) units = .ok c → CompiledPattern.compile c = .ok p →
      r.IsSyntaxOf o units → r.Plain →
      (p.isMatch text = true ↔ o.variant.Accepts (r.language (Leaf.Denotes o)) text) := by
  intro hall
  have hr := gapRegexp_isSyntaxOf .xsd10
  have hanswer :
      ((convert (.ofVariant .xsd10) (.schema .scalar) (CodeUnit.encode "[^\uD7FF\uE000]".toList)).toOption.bind
        fun c => (CompiledPattern.compile c).toOption.map (·.isMatch ['\uD7FE'])) = some false := by cbv
  obtain ⟨c, hc, hanswer⟩ := Option.bind_eq_some_iff.mp hanswer
  obtain ⟨p, hp, hmatch⟩ := Option.map_eq_some_iff.mp hanswer
  have hdenotes : gapList.Denotes (.ofVariant .xsd10) '\uD7FE' := denotes_gapList rfl (by decide)
  have haccepts : ['\uD7FE'] ∈ gapRegexp.language (Leaf.Denotes (.ofVariant .xsd10)) :=
    Language.mem_mul.mpr ⟨_, ⟨_, hdenotes, rfl⟩, _, rfl, rfl⟩
  have hfound :=
    (hall _ _ c p gapRegexp ['\uD7FE'] rfl (eq_ok_of_toOption hc) (eq_ok_of_toOption hp) hr ⟨trivial, trivial⟩).mpr
      haccepts
  exact Bool.false_ne_true (hmatch.symm.trans hfound)

end XmlPattern
