import XmlPattern.Proofs.Agreement

/-!
# Closed under case folding

Where case does not count, an atom that stands for a character stands for all characters of its folding group. Items of
a list are closed under case before they are complemented, and what is closed stays so under complement and subtraction.
At the surrogate gap, where a conversion takes some classes for something else, there are no folding groups.

- `alike_equivalence`: to be equal or to differ only in case is an equivalence.
- `Grammar.Leaf.foldClosed`: what an atom stands for is closed.
- `convert_foldClosed`: so is what the text of any atom stands for, in either dialect.
-/

namespace XmlPattern

open CharSet Grammar Native Unicode

/-! ## Folding groups -/

theorem alike_symm {b : Bool} {c d : Char} (h : Alike b c d) : Alike b d c := by
  rcases h with rfl | ⟨hb, g, hg, hc, hd⟩
  · exact .inl rfl
  · exact .inr ⟨hb, g, hg, hd, hc⟩

/-- Two groups that a character links are one. -/
theorem alike_trans {b : Bool} {c d e : Char} (h : Alike b c d) (h' : Alike b d e) : Alike b c e := by
  rcases h with rfl | ⟨hb, g, hg, hc, hd⟩
  · exact h'
  · rcases h' with rfl | ⟨_, g', hg', hd', he⟩
    · exact .inr ⟨hb, g, hg, hc, hd⟩
    · rw [eq_of_mem_foldGroups hg' hg hd' hd] at he
      exact .inr ⟨hb, g, hg, hc, he⟩

/-- To be equal or to differ only in case is an equivalence. -/
theorem alike_equivalence (b : Bool) : Equivalence (Alike b) where
  refl _ := .inl rfl
  symm := alike_symm
  trans := alike_trans

/-- A property holds of every character of a folding group or of none. -/
def FoldClosed (p : Char → Prop) : Prop := ∀ g ∈ foldGroups, ∀ c ∈ g, ∀ d ∈ g, p c → p d

namespace FoldClosed

variable {p q : Char → Prop}

theorem congr (h : FoldClosed p) (hpq : ∀ g ∈ foldGroups, ∀ c ∈ g, (q c ↔ p c)) : FoldClosed q := by
  intro g hg c hc d hd hq
  exact (hpq g hg d hd).mpr (h g hg c hc d hd ((hpq g hg c hc).mp hq))

theorem not (h : FoldClosed p) : FoldClosed fun c => ¬ p c := by
  intro g hg c hc d hd hn hp
  exact hn (h g hg d hd c hc hp)

theorem and (h : FoldClosed p) (h' : FoldClosed q) : FoldClosed fun c => p c ∧ q c := by
  intro g hg c hc d hd hpq
  exact ⟨h g hg c hc d hd hpq.1, h' g hg c hc d hd hpq.2⟩

/-- What is closed stays so when it is complemented, or not. -/
theorem iff (h : FoldClosed p) (r : Prop) : FoldClosed fun c => p c ↔ r := by
  intro g hg c hc d hd hr
  exact ⟨fun hp => hr.mp (h g hg d hd c hc hp), fun hp => h g hg c hc d hd (hr.mpr hp)⟩

end FoldClosed

theorem foldClosed_alike (x : Char) : FoldClosed (Alike true · x) := by
  intro g hg c hc d hd h
  exact alike_trans (.inr ⟨rfl, g, hg, hd, hc⟩) h

theorem foldClosed_inSomeCase (p : Char → Prop) : FoldClosed (InSomeCase true p) := by
  intro g hg c hc d hd h
  obtain ⟨e, he, hp⟩ := h
  exact ⟨e, foldClosed_alike e g hg c hc d hd he, hp⟩

/-! ## Atoms -/

namespace Grammar

variable {o : Options}

theorem SetEscape.foldClosed (hb : o.caseBlind = true) (e : SetEscape) : FoldClosed (e.Denotes o) := by
  unfold SetEscape.Denotes
  rw [hb]
  exact (foldClosed_inSomeCase _).iff _

theorem ClassGroup.foldClosed (hb : o.caseBlind = true) (g : ClassGroup) : FoldClosed (g.Denotes o) := by
  unfold ClassGroup.Denotes
  rw [hb]
  exact (foldClosed_inSomeCase _).iff _

/-- Whatever a class expression subtracts, it is closed if each of its lists is. -/
theorem ClassTree.foldClosed (hb : o.caseBlind = true) (t : ClassTree) : FoldClosed (t.Denotes o) := by
  induction t with
  | list g => exact g.foldClosed hb
  | minus g t ih => exact (g.foldClosed hb).and ih.not

/-- Line ends have no case. -/
theorem foldClosed_dot (o : Options) : FoldClosed (Leaf.dot.Denotes o) := by
  intro g hg c hc d hd _
  have hcode := (code_of_mem_foldGroups hg hd).1
  refine .inr ⟨?_, ?_⟩
  · rintro rfl
    exact absurd hcode (by decide)
  · rintro rfl
    exact absurd hcode (by decide)

/-- What an atom stands for is closed. -/
theorem Leaf.foldClosed (hb : o.caseBlind = true) (x : Leaf) : FoldClosed (x.Denotes o) := by
  cases x with
  | dot => exact foldClosed_dot o
  | single x =>
    show FoldClosed (Alike o.caseBlind · x.char)
    rw [hb]
    exact foldClosed_alike x.char
  | set e => exact e.foldClosed hb
  | charClass t => exact t.foldClosed hb

/-- And so is what a conversion takes it for. -/
theorem Leaf.foldClosed_takes (hb : o.caseBlind = true) (x : Leaf) : FoldClosed (x.Takes o) := by
  refine (x.foldClosed hb).congr ?_
  intro g hg c hc
  exact x.takes_iff (not_mem_foldGroups g hg c hc)

/-! ## Seams -/

/-- The set that is computed for an atom has no seam but at the surrogate gap or next to it. -/
theorem Leaf.parted_fragment (o : Options) (x : Leaf) :
    (x.fragment o).chars.Parted fun n => gapRank ≤ n + 1 ∧ n ≤ gapRank + 1 := by
  have hplain : ∀ {s : CharSet}, s.Canonical → s.Parted fun n => gapRank ≤ n + 1 ∧ n ≤ gapRank + 1 := by
    intro s h
    apply h.mono
    intro n hn
    omega
  by_cases h : ∃ t, x = .charClass t
  · obtain ⟨t, rfl⟩ := h
    apply ClassTree.parted_chars
    by_cases hs : t.head.Straddles o
    · apply (ClassGroup.parted_chars hs).mono
      intro n hn
      omega
    · exact hplain (ClassGroup.canonical_chars hs)
  · exact hplain (canonical_of_plain fun t ht => h ⟨t, ht⟩)

/-- Folding groups are farther from the surrogate gap than such seams. -/
theorem rank_of_mem_foldGroups {g : List Char} (hg : g ∈ foldGroups) {c : Char} (hc : c ∈ g) :
    rank c + 2 < gapRank ∨ gapRank + 1 < rank c := by
  have hcode := (code_of_mem_foldGroups hg hc).2
  unfold rank charsBelow gapRank
  split
  · omega
  · split
    · omega
    · omega

/-- On the characters of folding groups, what is written for an atom over characters is what the atom is taken for. -/
theorem Leaf.mem_readBack_of_mem_foldGroups (x : Leaf) {g : List Char} (hg : g ∈ foldGroups) {c : Char} (hc : c ∈ g) :
    c ∈ (x.fragment o).readBack ↔ x.Takes o c := by
  have hparted := x.parted_fragment o
  have hchars := x.mem_chars_fragment (o := o) (c := c)
  rcases x.fragment_cases o with ⟨d, hd⟩ | ⟨s, hs⟩
  · rw [hd] at hchars ⊢
    exact hchars
  · rw [hs] at hparted hchars ⊢
    refine (ScalarClass.mem_readBack_of_not_seam hparted.ordered (not_mem_foldGroups g hg c hc) ?_).trans hchars
    intro n hn hrank
    have hnear := hparted.of_seamAt hn
    have hfar := rank_of_mem_foldGroups hg hc
    omega

end Grammar

/-! ## What is written -/

/-- A fragment is for an atom of one character. -/
def Fragment.IsAtom : Fragment → Prop
  | literal _ | charClass .. => True
  | verbatim _ | reference .. => False

/--
A text is read as one atom, wherever it stands, and matches the characters with a property, or over units their
encodings.
-/
def Dialect.Stands : Dialect → List Char → (Char → Prop) → Prop
  | scalar, text, p => ∀ s : Scope, s.caseBlind = false →
    ∃ set, ReadsAtom Lexis.scalar s text (.chars set) ∧ ∀ c, c ∈ set ↔ p c
  | utf16, text, p => ∀ s : Scope, s.caseBlind = false →
    ∃ t, ReadsAtom Lexis.unit s text t ∧ ∀ us, us ∈ t.unitLanguage ↔ ∃ c, p c ∧ us = CodeUnit.ofChar c

namespace Grammar.Leaf

variable {o : Options}

theorem isAtom_fragment (o : Options) (x : Leaf) : (x.fragment o).IsAtom := by
  rcases x.fragment_cases o with ⟨c, hc⟩ | ⟨s, hs⟩
  · rw [hc]
    trivial
  · rw [hs]
    trivial

theorem stands_scalar (o : Options) (x : Leaf) :
    Dialect.scalar.Stands ((x.fragment o).text .scalar) (· ∈ (x.fragment o).readBack) := by
  intro s hs
  rcases x.fragment_cases o with ⟨c, hc⟩ | ⟨set, hset⟩
  · rw [hc]
    exact ⟨_, readsAtom_literal hs c, fun _ => Iff.rfl⟩
  · rw [hset]
    exact ⟨_, readsAtom_class hs _ set, fun _ => Iff.rfl⟩

theorem stands_utf16 (o : Options) (x : Leaf) : Dialect.utf16.Stands ((x.fragment o).text .utf16) (x.Takes o) := by
  intro s hs
  have hread : ReadsAtom Lexis.unit s ((x.fragment o).text .utf16) (x.fragment o).unitTree := by
    rcases x.fragment_cases o with ⟨c, hc⟩ | ⟨set, hset⟩
    · rw [hc]
      exact readsAtom_unitLiteral hs c
    · rw [hset]
      exact readsAtom_unitClass hs set
  refine ⟨_, hread, fun us => (mem_unitLanguage_fragment o x).trans ?_⟩
  simp only [x.mem_chars_fragment]

/-- The text of an atom stands for a set that is closed, in either dialect. -/
theorem exists_stands (hb : o.caseBlind = true) (x : Leaf) (d : Dialect) :
    ∃ p, d.Stands ((x.fragment o).text d) p ∧ FoldClosed p := by
  have htakes := x.foldClosed_takes hb
  cases d with
  | scalar =>
    refine ⟨_, x.stands_scalar o, htakes.congr ?_⟩
    intro g hg c hc
    exact x.mem_readBack_of_mem_foldGroups hg hc
  | utf16 => exact ⟨_, x.stands_utf16 o, htakes⟩

end Grammar.Leaf

/--
Where case does not count, the text of each atom that is written for an expression stands for a set that holds all of
each folding group or nothing of it. Each atom of one character of the expression is written so.
-/
theorem convert_foldClosed {o : Options} (hl : o.literal = false) (hb : o.caseBlind = true) {d : Dialect}
    {units : List CodeUnit} {c : Conversion} (h : convert o (.schema d) units = .ok c) :
    (∀ f ∈ c.fragments, f.IsAtom → ∃ p, d.Stands (f.text d) p ∧ FoldClosed p) ∧
      (∃ r : Regexp, r.IsSyntaxOf o units) ∧
      ∀ r : Regexp, r.IsSyntaxOf o units → r.Every fun x => x.fragment o ∈ c.fragments ∧ (x.fragment o).IsAtom := by
  rw [convert_of_not_literal hl] at h
  obtain ⟨r, hr⟩ := convertPattern_sound h
  have habout : ∀ P : Fragment → Prop, Fragment.AboutAtoms fun f => f.IsAtom → P f := fun P => ⟨nofun, nofun⟩
  refine ⟨?_, ⟨r, hr⟩, ?_⟩
  · rw [(convertPattern_of h hr).fragments]
    refine (r.written_iff (habout fun f => ∃ p, d.Stands (f.text d) p ∧ FoldClosed p) o {}).mpr ?_
    exact r.every_of_forall fun x _ => x.exists_stands hb d
  · intro r' hr'
    have hfragments := (convertPattern_of h hr').fragments
    have hevery := (r'.written_iff (habout (· ∈ c.fragments)) o {}).mp fun f hf _ => by rwa [hfragments]
    refine hevery.imp ?_
    intro x hx
    exact ⟨hx (x.isAtom_fragment o), x.isAtom_fragment o⟩

/-- A complement less a letter, as in `[^k-[s]]`, which takes the long s and the Kelvin sign along. -/
theorem convert_foldClosed_difference :
    ∃ c, convert { caseBlind := true } (.schema .utf16) (CodeUnit.encode "[^k-[s]]".toList) = .ok c ∧
      ∃ f ∈ c.fragments, f.IsAtom ∧ ∃ p, Dialect.utf16.Stands (f.text .utf16) p ∧ FoldClosed p := by
  let letter (negated : Bool) (x : Char) : ClassGroup := ⟨negated, false, [.single (.plain x)], false⟩
  let r : Regexp := .branch (.cons (.leaf (.charClass (.minus (letter true 'k') (.list (letter false 's'))))) none .nil)
  have hk : (letter true 'k').Legal .xsd10 :=
    ⟨.inr (List.cons_ne_nil _ _), List.forall_mem_singleton.mpr (show 'k' ∉ classMetaChars by decide), nofun⟩
  have hs : (letter false 's').Legal .xsd10 :=
    ⟨.inr (List.cons_ne_nil _ _), List.forall_mem_singleton.mpr (show 's' ∉ classMetaChars by decide), by decide⟩
  have hr : r.IsSyntaxOf { caseBlind := true } (CodeUnit.encode "[^k-[s]]".toList) :=
    ⟨⟨⟨hk, rfl, hs⟩, nofun, trivial, trivial⟩, spells_iff.mpr (by decide)⟩
  obtain ⟨c, hc, _⟩ := convertPattern_complete (d := .utf16) hr
  have hconvert := (convert_of_not_literal rfl _ _).trans hc
  obtain ⟨hclosed, _, hatoms⟩ := convert_foldClosed rfl rfl hconvert
  obtain ⟨⟨hf, hatom⟩, _⟩ := hatoms r hr
  exact ⟨c, hconvert, _, hf, hatom, hclosed _ hf hatom⟩

end XmlPattern
