import XmlPattern.Proofs.Escaping
import XmlPattern.Proofs.Structure

/-!
# The dialects agree

An expression is converted in either dialect or in neither, and fails in both for the same reason: a scan knows nothing
of the dialect. What is written in one and the other, read as native syntax, has one shape, and an atom over units
matches the encodings of what the atom over characters matches. The one exception is a set that does not survive being
written by its complement in the scalar dialect.

- `convert_dialect`: a conversion in another dialect is the same but for the dialect.
- `Tree.Agrees`: a pattern over characters and one over units have one shape, and their atoms correspond.
- `convert_agrees_iff`: what is written in either dialect agrees exactly when every set survives.
-/

namespace XmlPattern

/-! ## The scan -/

namespace Scan

theorem atom_dialect (o : Options) (d e : Dialect) (n depth : Nat) :
    atom o (.schema d) n depth = atom o (.schema e) n depth := by
  induction n generalizing depth with
  | zero => rfl
  | succ n ih => rw [atom_schema, atom_schema, enclosed, enclosed, expression, expression, ih]

theorem pattern_dialect (o : Options) (d e : Dialect) : pattern o (.schema d) = pattern o (.schema e) := by
  funext n
  rw [pattern, pattern, expression, expression, atom_dialect o d e]

end Scan

/-- A conversion in another dialect is the same but for the dialect. -/
theorem convert_dialect (o : Options) (d e : Dialect) (units : List CodeUnit) :
    convert o (.schema e) units = (convert o (.schema d) units).map fun c => { c with dialect := e } := by
  unfold convert
  split
  · unfold convertLiteral
    split <;> rfl
  · unfold convertPattern
    rw [Scan.pattern_dialect o e d]
    split <;> rfl

namespace Native

open CodeUnit

/-! ## Trees that agree -/

/-- A pattern that takes a quantifier as one atom. -/
def Tree.IsAtom {α : Type} (t : Tree α) : Prop := (∃ s, t = .chars s) ∨ ∃ a, t = .group .plain a

theorem isAtom_unitLiteral (c : Char) : (unitLiteral c).IsAtom := by
  unfold unitLiteral
  split
  · exact .inr ⟨_, rfl⟩
  · exact .inl ⟨_, rfl⟩

theorem isAtom_unitClass (s : CharSet) : (UnitClass.tree s).IsAtom := by
  unfold UnitClass.tree
  dsimp only
  split
  · exact .inl ⟨_, rfl⟩
  · exact .inl ⟨_, rfl⟩
  · exact .inr ⟨_, rfl⟩

/-- The kind of a group, whatever it does about case. -/
def GroupKind.anyCase : GroupKind → GroupKind
  | caseless => plain
  | kind => kind

/-- A pattern over characters and one over units have one shape, and their atoms match the same characters. -/
def Tree.Agrees : Tree CharSet → Tree UnitSet → Prop
  | .empty, u => u = .empty
  | .chars s, u => u.IsAtom ∧ ∀ us, us ∈ u.unitLanguage ↔ ∃ c, c ∈ s ∧ us = ofChar c
  | .boundary b, u => u = .boundary b
  | .reference number _, u => ∃ caseBlind, u = .reference number caseBlind
  | .seq a b, u => ∃ a' b', u = .seq a' b' ∧ a.Agrees a' ∧ b.Agrees b'
  | .alt a b, u => ∃ a' b', u = .alt a' b' ∧ a.Agrees a' ∧ b.Agrees b'
  | .repeated min max greedy a, u => ∃ a', u = .repeated min max greedy a' ∧ a.Agrees a'
  | .group kind a, u => ∃ kind' a', u = .group kind' a' ∧ kind'.anyCase = kind.anyCase ∧ a.Agrees a'

theorem agrees_back (number : Nat) (b : Bool) : (Tree.back number b).Agrees (Tree.back number false) := by
  refine ⟨.plain, _, rfl, ?_, _, _, rfl, ⟨false, rfl⟩, rfl⟩
  cases b <;> rfl

theorem agrees_quantify {t : Tree CharSet} {u : Tree UnitSet} {q : Option Grammar.Quantifier} :
    (t.quantify q).Agrees (u.quantify q) ↔ t.Agrees u := by
  cases q with
  | none => rfl
  | some q =>
    refine ⟨?_, fun h => ⟨u, rfl, h⟩⟩
    rintro ⟨v, hv, h⟩
    rw [(Tree.repeated.inj hv).2.2.2]
    exact h

theorem agrees_sequence {as : List (Tree CharSet)} {bs : List (Tree UnitSet)} (h : List.Forall₂ Tree.Agrees as bs) :
    (Tree.sequence as).Agrees (.sequence bs) := by
  induction h with
  | nil => rfl
  | cons ha _ ih => exact ⟨_, _, rfl, ha, ih⟩

end Native

open Native CodeUnit

/-! ## Atoms -/

/-- A set that is written by its complement in the scalar dialect is written as what it is. -/
def Fragment.Survives : Fragment → Prop
  | charClass s expand => ScalarClass.prefersComplement expand s = true → s.Canonical
  | literal _ | verbatim _ | reference .. => True

namespace Grammar

theorem isAtom_unitTree (o : Options) (x : Leaf) : (x.fragment o).unitTree.IsAtom := by
  rcases x.fragment_cases o with ⟨c, hc⟩ | ⟨s, hs⟩
  · rw [hc]
    exact isAtom_unitLiteral c
  · rw [hs]
    exact isAtom_unitClass s

/-- Characters are encoded apart, so that sets with the same encodings are the same. -/
theorem encodings_iff {p q : Char → Prop} :
    (∀ us, (∃ c, p c ∧ us = ofChar c) ↔ ∃ c, q c ∧ us = ofChar c) ↔ ∀ c, q c ↔ p c := by
  constructor
  · intro h c
    have hiff : ∀ r : Char → Prop, (∃ d, r d ∧ ofChar c = ofChar d) ↔ r c := fun r =>
      ⟨fun ⟨d, hd, he⟩ => ofChar_inj he ▸ hd, fun hc => ⟨c, hc, rfl⟩⟩
    rw [← hiff q, ← hiff p, h]
  · intro h us
    simp only [h]

/-- An atom agrees with itself in the other dialect exactly when its set survives. -/
theorem Leaf.agrees_iff (o : Options) (x : Leaf) :
    (x.scalarTree o).Agrees (x.fragment o).unitTree ↔ (x.fragment o).Survives := by
  refine (and_iff_right (isAtom_unitTree o x)).trans ?_
  simp only [mem_unitLanguage_fragment]
  rw [encodings_iff]
  have hord := ordered_fragment o x
  rcases x.fragment_cases o with ⟨c, hc⟩ | ⟨s, hs⟩
  · rw [hc]
    exact iff_of_true (fun _ => Iff.rfl) trivial
  · rw [hs] at hord ⊢
    exact ScalarClass.mem_readBack_iff hord

/-! ## Patterns -/

theorem aboutAtoms_survives : Fragment.AboutAtoms Fragment.Survives := ⟨fun _ => trivial, fun _ _ => trivial⟩

/-- What an atom of one character is read as in the UTF-16 dialect. -/
def Leaf.unitTree (o : Options) (x : Leaf) : Native.Tree UnitSet := (x.fragment o).unitTree

mutual

theorem Atom.agrees_iff (o : Options) : (G : Groups) → (a : Atom) →
    ((a.tree (Leaf.scalarTree o) o.caseBlind o.multiLine G).Agrees (a.tree (Leaf.unitTree o) false o.multiLine G) ↔
      a.Every fun x => (x.fragment o).Survives)
  | G, .leaf x => x.agrees_iff o
  | G, .anchor c => iff_of_true rfl trivial
  | G, .reference digits => iff_of_true (agrees_back _ _) trivial
  | G, .group true r => by
    refine Iff.trans ⟨?_, fun h => ⟨_, _, rfl, rfl, h⟩⟩ (r.agrees_iff o G.open)
    rintro ⟨kind, u, hu, _, h⟩
    rw [(Tree.group.inj hu).2]
    exact h
  | G, .group false r => by
    refine Iff.trans ⟨?_, fun h => ⟨_, _, rfl, rfl, h⟩⟩ (r.agrees_iff o G)
    rintro ⟨kind, u, hu, _, h⟩
    rw [(Tree.group.inj hu).2]
    exact h

theorem Branch.agrees_iff (o : Options) : (G : Groups) → (b : Branch) →
    ((b.tree (Leaf.scalarTree o) o.caseBlind o.multiLine G).Agrees (b.tree (Leaf.unitTree o) false o.multiLine G) ↔
      b.Every fun x => (x.fragment o).Survives)
  | G, .nil => iff_of_true rfl trivial
  | G, .cons a q b => by
    refine Iff.trans ⟨?_, fun h => ⟨_, _, rfl, agrees_quantify.mpr h.1, h.2⟩⟩
      (and_congr (a.agrees_iff o G) (b.agrees_iff o (a.after G)))
    rintro ⟨u, v, hu, ha, hb⟩
    obtain ⟨rfl, rfl⟩ := Tree.seq.inj hu
    exact ⟨agrees_quantify.mp ha, hb⟩

/-- The trees of a pattern in either dialect agree exactly when each set in the pattern survives. -/
theorem Regexp.agrees_iff (o : Options) : (G : Groups) → (r : Regexp) →
    ((r.tree (Leaf.scalarTree o) o.caseBlind o.multiLine G).Agrees (r.tree (Leaf.unitTree o) false o.multiLine G) ↔
      r.Every fun x => (x.fragment o).Survives)
  | G, .branch b => b.agrees_iff o G
  | G, .bar b r => by
    refine Iff.trans ⟨?_, fun h => ⟨_, _, rfl, h⟩⟩ (and_congr (b.agrees_iff o G) (r.agrees_iff o (b.after G)))
    rintro ⟨u, v, hu, h⟩
    obtain ⟨rfl, rfl⟩ := Tree.alt.inj hu
    exact h

end

end Grammar

open Grammar

/-! ## Quoted text -/

/-- Quoted text agrees in either dialect. -/
theorem agrees_literals (text : List Char) :
    (Tree.sequence (text.map fun c => .chars (.single c))).Agrees (.sequence (text.map unitLiteral)) := by
  refine agrees_sequence ?_
  rw [List.forall₂_map_left_iff, List.forall₂_map_right_iff, List.forall₂_same]
  intro c _
  refine ⟨isAtom_unitLiteral c,
    fun us => mem_unitLanguage_literal.trans ⟨fun h => ⟨c, CharSet.mem_single.mpr rfl, h⟩, ?_⟩⟩
  rintro ⟨d, hd, rfl⟩
  rw [CharSet.mem_single.mp hd]

/-! ## Conversions -/

theorem tree?_of_conversion_unit {o : Options} {units : List CodeUnit} {c : Conversion} {r : Regexp}
    (h : convertPattern o (.schema .utf16) units = .ok c) (hr : r.IsSyntaxOf o units) :
    Lexis.unit.tree? o.multiLine c.pattern = some (r.tree (Leaf.unitTree o) false o.multiLine {}, c.captureCount) := by
  have hc := convertPattern_of h hr
  rw [hc.pattern_eq, hc.captureCount, tree?_text (readsLeaves_unit o) hr.1,
    show (o.caseBlind && Dialect.utf16 == .scalar) = false from Bool.and_false _]
  rfl

/-- What is written in either dialect is a native pattern. -/
theorem trees_of_conversion {o : Options} {units : List CodeUnit} {c c' : Conversion}
    (h : convert o (.schema .scalar) units = .ok c) (h' : convert o (.schema .utf16) units = .ok c') :
    ∃ t t', Lexis.scalar.tree? o.multiLine c.pattern = some (t, c.captureCount) ∧
      Lexis.unit.tree? o.multiLine c'.pattern = some (t', c'.captureCount) ∧
      (t.Agrees t' ↔ ∀ f ∈ c.fragments, f.Survives) := by
  unfold convert at h h'
  split at h
  · next hl =>
    rw [if_pos hl] at h'
    unfold convertLiteral at h h'
    split at h
    · next text hdecode =>
      rw [hdecode] at h'
      cases h
      cases h'
      refine ⟨_, _, neutral_scalar.reads_textOf text o.multiLine, neutral_utf16.reads_textOf text o.multiLine,
        iff_of_true (agrees_literals text) fun f hf => ?_⟩
      obtain ⟨c, _, rfl⟩ := List.mem_map.mp hf
      trivial
    · cases h
  · next hl =>
    rw [if_neg hl] at h'
    obtain ⟨r, hr⟩ := convertPattern_sound h
    refine ⟨_, _, tree?_of_conversion h hr, tree?_of_conversion_unit h' hr, (r.agrees_iff o {}).trans ?_⟩
    rw [(convertPattern_of h hr).fragments]
    exact (r.written_iff aboutAtoms_survives o {}).symm

/--
An expression is converted in both dialects, or fails in both for one reason. What is written for it in the one and in
the other agrees exactly when each set survives the scalar dialect.
-/
theorem convert_agrees_iff (o : Options) (units : List CodeUnit) :
    (∃ e, convert o (.schema .scalar) units = .error e ∧ convert o (.schema .utf16) units = .error e) ∨
      ∃ c c' t t', convert o (.schema .scalar) units = .ok c ∧ convert o (.schema .utf16) units = .ok c' ∧
        c'.captureCount = c.captureCount ∧ c'.warnings = c.warnings ∧
        Lexis.scalar.tree? o.multiLine c.pattern = some (t, c.captureCount) ∧
        Lexis.unit.tree? o.multiLine c'.pattern = some (t', c'.captureCount) ∧
        (t.Agrees t' ↔ ∀ f ∈ c.fragments, f.Survives) := by
  have hdialect := convert_dialect o .scalar .utf16 units
  cases h : convert o (.schema .scalar) units with
  | error e =>
    rw [h] at hdialect
    exact .inl ⟨e, rfl, hdialect⟩
  | ok c =>
    rw [h] at hdialect
    obtain ⟨t, t', ht, ht', hagrees⟩ := trees_of_conversion h hdialect
    exact .inr ⟨c, _, t, t', rfl, hdialect, rfl, rfl, ht, ht', hagrees⟩

/-- The set that a conversion takes `[^\uD7FF\uE000]` for. -/
def gapSet : CharSet := ((Leaf.charClass (.list gapList)).fragment (.ofVariant .xsd10)).chars

theorem not_survives_gapSet : ¬ (Fragment.charClass gapSet false).Survives := by
  intro h
  have hprefers : ScalarClass.prefersComplement false gapSet = true := by cbv
  have hmem : gapSet.contains '\uD7FE' = true := by cbv
  have hlost : (ScalarClass.readBack false gapSet).contains '\uD7FE' = false := by cbv
  have hread : '\uD7FE' ∈ ScalarClass.readBack false gapSet :=
    (ScalarClass.mem_readBack_of_canonical (h hprefers)).mpr hmem
  exact Bool.false_ne_true (hlost.symm.trans hread)

/-- `[^\uD7FF\uE000]` is written in the two dialects as atoms that match different characters. -/
theorem not_agrees_gapList :
    ¬ ∀ (o : Options) (units : List CodeUnit) (c c' : Conversion) (t : Native.Tree CharSet) (t' : Native.Tree UnitSet),
      convert o (.schema .scalar) units = .ok c → convert o (.schema .utf16) units = .ok c' →
      Lexis.scalar.tree? o.multiLine c.pattern = some (t, c.captureCount) →
      Lexis.unit.tree? o.multiLine c'.pattern = some (t', c'.captureCount) → t.Agrees t' := by
  intro hall
  have hr := gapRegexp_isSyntaxOf .xsd10
  obtain ⟨c, hc, _⟩ := convertPattern_complete (d := .scalar) hr
  obtain ⟨c', hc', _⟩ := convertPattern_complete (d := .utf16) hr
  have hagrees := hall (.ofVariant .xsd10) _ c c' _ _ ((convert_of_not_literal rfl _ _).trans hc)
    ((convert_of_not_literal rfl _ _).trans hc') (tree?_of_conversion hc hr) (tree?_of_conversion_unit hc' hr)
  exact not_survives_gapSet ((gapRegexp.agrees_iff _ {}).mp hagrees).1

end XmlPattern
