import XmlPattern.Proofs.Grammar.Denotation
import XmlPattern.Proofs.Scan.Classes
import XmlPattern.Proofs.Scan.Passage

/-!
# The sets of class expressions

A class expression that is read, to whatever depth others are subtracted in it, comes to a set and leaves the cursor
behind its closing bracket. The set is the one that the expression stands for: what its members add, closed under case
folding where case does not count, then complemented behind a caret, then without what is subtracted. The exception is a
list that straddles the surrogate gap, which is taken to hold the two characters at the gap.

- `ClassTree.takes_iff_denotes`: an expression none of whose lists straddles the gap is taken for what it stands for.
- `Scan.classExpr_denotes`: what is read, how far, and for which set.
-/

namespace XmlPattern

open Grammar

namespace Grammar.ClassTree

/-- The lists of a class expression, from the outermost in. -/
def lists : ClassTree → List ClassGroup
  | list g => [g]
  | minus g t => g :: t.lists

theorem takes_iff_denotes {o : Options} {t : ClassTree} (h : ∀ g ∈ t.lists, ¬ g.Straddles o) {c : Char} :
    t.Takes o c ↔ t.Denotes o c := by
  induction t with
  | list g => exact or_iff_left fun hs => h g List.mem_cons_self hs.1
  | minus g t ih =>
    have hg : g.Takes o c ↔ g.Denotes o c := or_iff_left fun hs => h g List.mem_cons_self hs.1
    exact and_congr hg (not_congr (ih fun g hg => h g (List.mem_cons_of_mem _ hg)))

end Grammar.ClassTree

/-! ## Brackets -/

/-- A cursor is on the bracket that opens a class expression, and more units stand behind the bracket that closes it. -/
structure Cursor.Opens (c : Cursor) (t : ClassTree) (rest : List CodeUnit) : Prop where
  bracket : c.current = some (unit '[')
  units : c.rest = t.units ++ unit ']' :: rest

/-- The cursor that has passed a class expression and its closing bracket, on the next unit that counts. -/
def Cursor.behind (c : Cursor) (t : ClassTree) (rest : List CodeUnit) : Cursor :=
  { c with passed := unit ']' :: (t.units.reverse ++ c.passed), rest }.advance

namespace Scan

variable {o : Options} {n : Nat} {s s' : ScanState} {t : ClassTree} {rest : List CodeUnit}

/-- A class expression can be followed from where its units stand, and from nowhere else. -/
theorem exists_follows_class_iff (v : Variant) :
    (∃ s', Follows (t.course v s.cursor.inClass) s s') ↔ ∃ rest, s.cursor.Opens t rest := by
  have hpassed := (t.passed_course v s.cursor.inClass s.cursor.inClass).1
  have hsome : (∃ s', Follows (t.course v s.cursor.inClass) s s') ↔
      ∃ x, s.cursor.Passes (passed s.cursor.inClass (t.course v s.cursor.inClass)) x := by
    simp only [← exists_follows_iff]
    exact ⟨fun ⟨s', hf⟩ => ⟨_, s', hf, rfl⟩, fun ⟨_, s', hf, _⟩ => ⟨s', hf⟩⟩
  rw [hsome, hpassed, Cursor.exists_passes_inside_iff]
  exact ⟨fun ⟨h, rest, hr⟩ => ⟨rest, h, hr⟩, fun ⟨rest, h, hr⟩ => ⟨h, rest, hr⟩⟩

/-- A class expression that has been followed is behind the cursor. -/
theorem cursor_of_class {v : Variant} (hf : Follows (t.course v s.cursor.inClass) s s') (ht : s.cursor.Opens t rest) :
    s'.cursor = s.cursor.behind t rest := by
  obtain ⟨hpassed, hmode, _⟩ := t.passed_course v s.cursor.inClass s.cursor.inClass
  rw [follows_cursor hf, cursorAfter, hpassed, hmode, Cursor.past_inside ht.units]
  rfl

/-- A class expression of the grammar is read wherever it stands. -/
theorem exists_finds_class (hn : s.cursor.remaining ≤ n) (ht : t.Legal o.variant) (hr : s.cursor.Opens t rest) :
    ∃ cs s', (classExpr o n).Finds s cs s' := by
  obtain ⟨s', hf⟩ := (exists_follows_class_iff o.variant).mpr ⟨rest, hr⟩
  exact ⟨_, s', classExpr_complete hn ht hf⟩

/--
A class expression that is read has a syntax tree. Whichever tree it has, the cursor is then behind its closing bracket,
inside a class if it has been before, and the set holds what the tree is taken for. That is what the tree stands for,
but for the two characters at the surrogate gap where one of its lists straddles the gap.
-/
theorem classExpr_denotes {cs : CharSet} (hn : s.cursor.remaining ≤ n) (hopen : s.cursor.current = some (unit '['))
    (h : (classExpr o n).Finds s cs s') :
    (∃ t rest, ClassTree.Legal o.variant t ∧ s.cursor.Opens t rest) ∧
      ∀ t rest, ClassTree.Legal o.variant t → s.cursor.Opens t rest →
        s'.cursor = s.cursor.behind t rest ∧ s'.cursor.inClass = s.cursor.inClass ∧
          (∀ c, c ∈ cs ↔ t.Takes o c) ∧ (∀ c, ¬ AtGap c → (c ∈ cs ↔ t.Denotes o c)) ∧
          ((∀ g ∈ t.lists, ¬ g.Straddles o) → ∀ c, c ∈ cs ↔ t.Denotes o c) := by
  constructor
  · obtain ⟨t, ht, _, hf⟩ := classExpr_sound hn hopen h
    obtain ⟨rest, hr⟩ := (exists_follows_class_iff _).mp ⟨s', hf⟩
    exact ⟨t, rest, ht, hr⟩
  · intro t rest ht hr
    obtain ⟨u, hf⟩ := (exists_follows_class_iff o.variant).mpr ⟨rest, hr⟩
    -- What is found is what this tree is found as, since a scan comes to one end.
    obtain ⟨hcs, rfl⟩ : Except.ok cs = .ok (t.chars o) ∧ s' = u :=
      Prod.mk.inj (h.symm.trans (classExpr_complete hn ht hf))
    obtain rfl := Except.ok.inj hcs
    have hcursor := cursor_of_class hf hr
    have htakes : ∀ c, c ∈ t.chars o ↔ t.Takes o c := fun c => t.mem_chars
    refine ⟨hcursor, hcursor ▸ rfl, htakes, fun c hc => ?_, fun hlists c => ?_⟩
    · rw [htakes, ClassTree.takes_iff hc]
    · rw [htakes, ClassTree.takes_iff_denotes hlists]

/-- In `[A-Z-[^K]]`, the letter `K` is left over in either case where case does not count. -/
theorem classExpr_denotes_subtraction :
    let o : Options := { Options.ofVariant .xsd10 with caseBlind := true }
    let s := (ScanState.ofUnits o (CodeUnit.encode "[A-Z-[^K]]".toList)).advance
    let t : ClassTree := .minus ⟨false, false, [.range (.plain 'A') (.plain 'Z')], false⟩
      (.list ⟨true, false, [.single (.plain 'K')], false⟩)
    ∃ cs s', (classExpr o 10).Finds s cs s' ∧ s'.cursor = s.cursor.behind t [] ∧ ∀ c, c ∈ cs ↔ t.Denotes o c := by
  intro o s t
  have ht : t.Legal o.variant := by
    refine ⟨⟨.inr (List.cons_ne_nil _ _), ?_, fun _ _ => by decide⟩, rfl, .inr (List.cons_ne_nil _ _), ?_, nofun⟩
    · rintro i (_ | ⟨_, ⟨⟩⟩)
      exact ⟨(by decide : 'A' ∉ classMetaChars), (by decide : 'Z' ∉ classMetaChars), by decide⟩
    · rintro i (_ | ⟨_, ⟨⟩⟩)
      exact (by decide : 'K' ∉ classMetaChars)
  have hopens : s.cursor.Opens t [] := ⟨rfl, rfl⟩
  have hlists : ∀ g ∈ t.lists, ¬ g.Straddles o := by
    rintro g (_ | ⟨_, _ | ⟨_, ⟨⟩⟩⟩) ⟨hn, hbefore, _⟩
    · cases hn
    · rcases hbefore with ⟨h | h, _⟩ | ⟨i, _ | ⟨_, ⟨⟩⟩, h⟩
      · cases h
      · cases h
      · exact absurd h (by decide : beforeGap ≠ 'K')
  obtain ⟨cs, s', hfinds⟩ := exists_finds_class (n := 10) (by decide) ht hopens
  obtain ⟨-, hall⟩ := classExpr_denotes (by decide) hopens.bracket hfinds
  obtain ⟨hcursor, -, -, -, hdenotes⟩ := hall t [] ht hopens
  exact ⟨cs, s', hfinds, hcursor, hdenotes hlists⟩

/-- `[^\uD7FF\uE000]` is read as a set that holds the two characters it excludes. -/
theorem not_denotes_gapList :
    ¬ ∀ (o : Options) (n : Nat) (s s' : ScanState) (cs : CharSet) (t : ClassTree) (rest : List CodeUnit),
      s.cursor.remaining ≤ n → (classExpr o n).Finds s cs s' → t.Legal o.variant → s.cursor.Opens t rest →
        ∀ c, c ∈ cs ↔ t.Denotes o c := by
  intro hall
  let o := Options.ofVariant .xsd10
  let s := (ScanState.ofUnits o (CodeUnit.encode "[^\uD7FF\uE000]".toList)).advance
  have hopens : s.cursor.Opens (.list gapList) [] := ⟨rfl, rfl⟩
  obtain ⟨s', hf⟩ := (exists_follows_class_iff o.variant).mpr ⟨[], hopens⟩
  have hn : s.cursor.remaining ≤ 5 := by decide
  have ht : (ClassTree.list gapList).Legal o.variant := legal_gapList _
  have hfinds := classExpr_complete hn ht hf
  have hread : beforeGap ∈ (ClassTree.list gapList).chars o :=
    ClassTree.mem_chars.mpr (.inr ⟨straddles_gapList o, .inl rfl⟩)
  have hdenotes := (hall o 5 s s' _ _ [] hn hfinds ht hopens beforeGap).mp hread
  exact ClassGroup.not_denotes_of_straddles (straddles_gapList o) (.inl rfl) hdenotes

end Scan

end XmlPattern
