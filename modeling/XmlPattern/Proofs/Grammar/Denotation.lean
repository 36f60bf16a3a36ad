import Mathlib.Data.Bool.AllAny
import XmlPattern.Proofs.Unicode.NamedSets

/-!
# What atoms stand for

The characters that an atom for one character denotes, and the characters that a conversion takes it for. The two differ
in one case: a complemented list that names the two characters at the surrogate gap, but by different items, is taken to
hold both. Such a list `Straddles` the gap. A subtraction may then take the characters away again, or take away too
much.

- `Leaf.Denotes`, `Leaf.Takes`: the two meanings of an atom.
- `ClassTree.mem_chars`: a set computed for a class expression holds what the expression is taken for.
- `Leaf.faithful_iff`: the meanings agree if they do at the surrogate gap.
-/

namespace XmlPattern.Grammar

open CharSet Unicode

/-! ## Denotation -/

/-- Two characters are equal or, where case does not count, differ only in case. -/
def Alike (caseBlind : Bool) (c d : Char) : Prop := c = d ∨ caseBlind = true ∧ ∃ g ∈ foldGroups, c ∈ g ∧ d ∈ g

/-- A character is like one with a property. -/
def InSomeCase (caseBlind : Bool) (p : Char → Prop) (c : Char) : Prop := ∃ d, Alike caseBlind c d ∧ p d

/-- The characters that a set escape names, before case and complement are taken into account. -/
def SetEscape.named (v : Variant) : SetEscape → CharSet
  | letter c => (Escape.ofLetter? c.toLower).getD ∅
  | property _ name => namedChars v (CodeUnit.decodeLossy name)

/-- An upper-case letter stands for a complement. -/
def SetEscape.negated : SetEscape → Bool
  | letter c => c.isUpper
  | property negated _ => negated

/-- A character is one of those that a set escape stands for. -/
def SetEscape.Denotes (o : Options) (e : SetEscape) (c : Char) : Prop :=
  InSomeCase o.caseBlind (· ∈ e.named o.variant) c ↔ e.negated = false

/-- An item of a list names a character. -/
def ClassItem.Lists (o : Options) : ClassItem → Char → Prop
  | single x, c => c = x.char
  | range lo hi, c => lo.char ≤ c ∧ c ≤ hi.char
  | set e, c => e.Denotes o c

/-- A list names a character. -/
def ClassGroup.Lists (o : Options) (g : ClassGroup) (c : Char) : Prop :=
  (g.hyphenFirst = true ∨ g.hyphenLast = true) ∧ c = '-' ∨ ∃ i ∈ g.items, i.Lists o c

/-- A character is one of those that a list stands for. -/
def ClassGroup.Denotes (o : Options) (g : ClassGroup) (c : Char) : Prop :=
  InSomeCase o.caseBlind (g.Lists o) c ↔ g.negated = false

/-- A character is one of those that a class expression stands for. -/
def ClassTree.Denotes (o : Options) : ClassTree → Char → Prop
  | list g, c => g.Denotes o c
  | minus g t, c => g.Denotes o c ∧ ¬ t.Denotes o c

/-- A character is one of those that an atom stands for. -/
def Leaf.Denotes (o : Options) : Leaf → Char → Prop
  | dot, c => o.dotAll = true ∨ c ≠ '\n' ∧ c ≠ '\r'
  | single x, c => Alike o.caseBlind c x.char
  | set e, c => e.Denotes o c
  | charClass t, c => t.Denotes o c

/-! ## What a conversion makes of it -/

/-- A complemented list names the two characters at the surrogate gap, but no item names both. -/
def ClassGroup.Straddles (o : Options) (g : ClassGroup) : Prop :=
  g.negated = true ∧ g.Lists o beforeGap ∧ g.Lists o behindGap ∧
    ¬ ∃ i ∈ g.items, i.Lists o beforeGap ∧ i.Lists o behindGap

/--
A conversion takes a list for what it stands for and, where the list straddles the gap, the characters at the gap.
-/
def ClassGroup.Takes (o : Options) (g : ClassGroup) (c : Char) : Prop := g.Denotes o c ∨ g.Straddles o ∧ AtGap c

/-- What a conversion takes a class expression for. -/
def ClassTree.Takes (o : Options) : ClassTree → Char → Prop
  | list g, c => g.Takes o c
  | minus g t, c => g.Takes o c ∧ ¬ t.Takes o c

/-- What a conversion takes an atom for. -/
def Leaf.Takes (o : Options) : Leaf → Char → Prop
  | charClass t, c => t.Takes o c
  | l, c => l.Denotes o c

/-- A conversion takes an atom for what it stands for. -/
def Leaf.Faithful (o : Options) (l : Leaf) : Prop := ∀ c, l.Takes o c ↔ l.Denotes o c

theorem ClassGroup.takes_iff {o : Options} {g : ClassGroup} {c : Char} (h : ¬ AtGap c) : g.Takes o c ↔ g.Denotes o c :=
  or_iff_left fun hs => h hs.2

theorem ClassTree.takes_iff {o : Options} {t : ClassTree} {c : Char} (h : ¬ AtGap c) : t.Takes o c ↔ t.Denotes o c := by
  induction t with
  | list g => exact g.takes_iff h
  | minus g t ih => exact and_congr (g.takes_iff h) (not_congr ih)

theorem Leaf.takes_iff {o : Options} {l : Leaf} {c : Char} (h : ¬ AtGap c) : l.Takes o c ↔ l.Denotes o c := by
  cases l with
  | charClass t => exact t.takes_iff h
  | dot => exact Iff.rfl
  | single x => exact Iff.rfl
  | set e => exact Iff.rfl

/-- The two meanings of an atom agree if they do at the surrogate gap. -/
theorem Leaf.faithful_iff {o : Options} {l : Leaf} : l.Faithful o ↔ ∀ c, AtGap c → (l.Takes o c ↔ l.Denotes o c) := by
  refine ⟨fun h c _ => h c, fun h c => ?_⟩
  by_cases hc : AtGap c
  · exact h c hc
  · exact l.takes_iff hc

/-- The list of `[^\uD7FF\uE000]`. -/
def gapList : ClassGroup where
  negated := true
  hyphenFirst := false
  items := [.single (.plain beforeGap), .single (.plain behindGap)]
  hyphenLast := false

theorem legal_gapList (v : Variant) : gapList.Legal v := by
  have hall : ∀ c ∈ [beforeGap, behindGap], c ∉ classMetaChars := List.all_iff_forall_prop.mp (by decide)
  refine ⟨.inr (List.cons_ne_nil _ _), fun i hi => ?_, nofun⟩
  simp only [gapList, List.mem_cons, List.not_mem_nil, or_false] at hi
  rcases hi with rfl | rfl
  · exact hall _ (by decide)
  · exact hall _ (by decide)

theorem straddles_gapList (o : Options) : gapList.Straddles o := by
  refine ⟨rfl, .inr ⟨_, List.mem_cons_self, rfl⟩, .inr ⟨_, List.mem_cons_of_mem _ List.mem_cons_self, rfl⟩, ?_⟩
  have hne : beforeGap ≠ behindGap := by decide
  rintro ⟨i, hi, hbefore, hbehind⟩
  simp only [gapList, List.mem_cons, List.not_mem_nil, or_false] at hi
  rcases hi with rfl | rfl
  · exact hne hbehind.symm
  · exact hne hbefore

theorem denotes_gapList {o : Options} (hb : o.caseBlind = false) {c : Char} (h : ¬ AtGap c) : gapList.Denotes o c := by
  refine iff_of_false ?_ nofun
  rintro ⟨d, rfl | ⟨hblind, _⟩, hlists⟩
  · rcases hlists with ⟨hhyphen | hhyphen, _⟩ | ⟨i, hi, hlists⟩
    · cases hhyphen
    · cases hhyphen
    · simp only [gapList, List.mem_cons, List.not_mem_nil, or_false] at hi
      rcases hi with rfl | rfl
      · exact h (.inl hlists)
      · exact h (.inr hlists)
  · exact Bool.false_ne_true (hb.symm.trans hblind)

/-! ## The sets that are computed -/

theorem mem_folded {caseBlind : Bool} {s : CharSet} {c : Char} :
    c ∈ folded caseBlind s ↔ InSomeCase caseBlind (· ∈ s) c := by
  unfold InSomeCase Alike
  cases caseBlind with
  | false => simp [folded]
  | true =>
    simp only [folded, if_true, mem_foldClosure, true_and]
    constructor
    · rintro (hc | ⟨g, hg, hcg, d, hdg, hd⟩)
      · exact ⟨c, .inl rfl, hc⟩
      · exact ⟨d, .inr ⟨g, hg, hcg, hdg⟩, hd⟩
    · rintro ⟨d, rfl | ⟨g, hg, hcg, hdg⟩, hd⟩
      · exact .inl hd
      · exact .inr ⟨g, hg, hcg, d, hdg, hd⟩

theorem canonical_folded {caseBlind : Bool} {s : CharSet} (h : s.Canonical) : (folded caseBlind s).Canonical := by
  cases caseBlind with
  | false => exact h
  | true => exact canonical_foldClosure h.ordered

theorem seamAt_folded {caseBlind : Bool} {s : CharSet} (h : s.Ordered) :
    (folded caseBlind s).SeamAt gapRank ↔ s.SeamAt gapRank := by
  cases caseBlind with
  | false => rfl
  | true => exact seamAt_foldClosure h

theorem separated_folded (caseBlind : Bool) {s : CharSet} (h : s.Separated) : (folded caseBlind s).Separated :=
  separated_resolve false h

theorem SetEscape.chars_eq (o : Options) (e : SetEscape) :
    e.chars o = resolve o.caseBlind e.negated (e.named o.variant) := by
  cases e <;> rfl

theorem SetEscape.separated_named (v : Variant) (e : SetEscape) : (e.named v).Separated := by
  cases e with
  | letter c =>
    show ((Escape.ofLetter? c.toLower).getD ∅).Separated
    cases h : Escape.ofLetter? c.toLower with
    | none => exact .nil
    | some s => exact separated_ofLetter h
  | property negated name => exact separated_namedChars _ _

theorem SetEscape.separated_chars (o : Options) (e : SetEscape) : (e.chars o).Separated := by
  rw [chars_eq]
  exact separated_resolve _ (e.separated_named _)

theorem SetEscape.mem_chars {o : Options} {e : SetEscape} {c : Char} : c ∈ e.chars o ↔ e.Denotes o c := by
  have h := separated_folded o.caseBlind (e.separated_named o.variant)
  rw [chars_eq, mem_resolve fun _ => h, Denotes, ← mem_folded]
  rfl

theorem ClassItem.separated_chars (o : Options) (i : ClassItem) : (i.chars o).Separated := by
  cases i with
  | single x => exact separated_single _
  | range lo hi => exact separated_span _ _
  | set e => exact e.separated_chars o

theorem ClassItem.mem_chars {o : Options} {i : ClassItem} {c : Char} : c ∈ i.chars o ↔ i.Lists o c := by
  cases i with
  | single x => exact mem_single
  | range lo hi => exact mem_span
  | set e => exact e.mem_chars

/-- A set escape or a range that names both characters at the gap has a run across it. -/
theorem ClassItem.bridged_chars {o : Options} {i : ClassItem} :
    (i.chars o).Bridged ↔ i.Lists o beforeGap ∧ i.Lists o behindGap := by
  rw [(i.separated_chars o).bridged_iff, ← mem_chars, ← mem_chars]
  exact ⟨fun h => ⟨h _ (.inl rfl), h _ (.inr rfl)⟩, fun h c hc => hc.elim (· ▸ h.1) (· ▸ h.2)⟩

theorem mem_withHyphen {hyphen : Bool} {s : CharSet} {c : Char} :
    c ∈ withHyphen hyphen s ↔ c ∈ s ∨ hyphen = true ∧ c = '-' := by
  cases hyphen <;> simp [withHyphen, mem_union, mem_single]

theorem canonical_withHyphen {hyphen : Bool} {s : CharSet} (h : s.Canonical) : (withHyphen hyphen s).Canonical := by
  cases hyphen with
  | false => exact h
  | true => exact canonical_union h.ordered ((separated_single _).parted _)

theorem bridged_withHyphen {hyphen : Bool} {s : CharSet} : (withHyphen hyphen s).Bridged ↔ s.Bridged := by
  cases hyphen with
  | false => rfl
  | true => exact bridged_union.trans (or_iff_left (not_bridged_single _))

theorem mem_withItems {o : Options} {s : CharSet} {items : List ClassItem} {c : Char} :
    c ∈ withItems o s items ↔ c ∈ s ∨ ∃ i ∈ items, i.Lists o c := by
  unfold withItems
  induction items generalizing s with
  | nil => simp
  | cons i items ih => simp [ih, mem_union, ClassItem.mem_chars, or_assoc]

theorem canonical_withItems {o : Options} {s : CharSet} (h : s.Canonical) (items : List ClassItem) :
    (withItems o s items).Canonical := by
  unfold withItems
  induction items generalizing s with
  | nil => exact h
  | cons i items ih => exact ih (canonical_union h.ordered ((i.separated_chars o).parted _))

theorem bridged_withItems {o : Options} {s : CharSet} {items : List ClassItem} :
    (withItems o s items).Bridged ↔ s.Bridged ∨ ∃ i ∈ items, i.Lists o beforeGap ∧ i.Lists o behindGap := by
  unfold withItems
  induction items generalizing s with
  | nil => simp
  | cons i items ih => simp [ih, bridged_union, ClassItem.bridged_chars, or_assoc]

namespace ClassGroup

variable {o : Options} {g : ClassGroup} {c : Char}

theorem mem_listed : c ∈ g.listed o ↔ g.Lists o c := by
  simp only [listed, mem_withHyphen, mem_withItems, not_mem_empty, false_or, Lists, or_and_right]
  constructor
  · rintro ((h | h) | h)
    · exact .inl (.inl h)
    · exact .inr h
    · exact .inl (.inr h)
  · rintro ((h | h) | h)
    · exact .inl (.inl h)
    · exact .inr h
    · exact .inl (.inr h)

theorem canonical_listed : (g.listed o).Canonical :=
  canonical_withHyphen (canonical_withItems (canonical_withHyphen canonical_empty) _)

theorem canonical_folded_listed : (folded o.caseBlind (g.listed o)).Canonical := canonical_folded canonical_listed

/-- A list that straddles the gap is one whose set has a seam there. -/
theorem straddles_iff :
    g.Straddles o ↔ g.negated = true ∧ (folded o.caseBlind (g.listed o)).SeamAt gapRank := by
  rw [seamAt_folded canonical_listed.ordered, seamAt_gap_iff canonical_listed.ordered, mem_listed, mem_listed, listed,
    bridged_withHyphen, bridged_withItems, bridged_withHyphen, or_iff_right not_bridged_empty]
  rfl

theorem chars_of_negated (h : g.negated = true) : g.chars o = (folded o.caseBlind (g.listed o)).compl := by
  rw [chars, h]
  rfl

theorem chars_of_not_negated (h : g.negated = false) : g.chars o = folded o.caseBlind (g.listed o) := by
  rw [chars, h]
  rfl

theorem mem_chars : c ∈ g.chars o ↔ g.Takes o c := by
  have hlisted : InSomeCase o.caseBlind (g.Lists o) c ↔ c ∈ folded o.caseBlind (g.listed o) := by
    rw [mem_folded]
    exact exists_congr fun d => and_congr_right fun _ => mem_listed.symm
  rw [Takes, Denotes, straddles_iff, hlisted]
  cases hn : g.negated with
  | false => simp [chars_of_not_negated hn]
  | true => simp [chars_of_negated hn, mem_compl_of_canonical canonical_folded_listed]

end ClassGroup

/-- A set computed for a class expression holds what the expression is taken for. -/
theorem ClassTree.mem_chars {o : Options} {t : ClassTree} {c : Char} : c ∈ t.chars o ↔ t.Takes o c := by
  induction t with
  | list g => exact g.mem_chars
  | minus g t ih => rw [chars, mem_diff, ClassGroup.mem_chars, ih, Takes]

/-! ## Their seams -/

theorem ClassGroup.canonical_chars {o : Options} {g : ClassGroup} (h : ¬ g.Straddles o) : (g.chars o).Canonical := by
  cases hn : g.negated with
  | false =>
    rw [chars_of_not_negated hn]
    exact canonical_folded_listed
  | true =>
    rw [straddles_iff, hn] at h
    rw [chars_of_negated hn]
    exact (canonical_folded_listed.separated fun hs => h ⟨rfl, hs⟩).compl.parted _

theorem ClassGroup.parted_chars {o : Options} {g : ClassGroup} (h : g.Straddles o) :
    (g.chars o).Parted fun n => n + 1 = gapRank ∨ n - 1 = gapRank := by
  rw [chars_of_negated h.1]
  exact parted_compl (fun _ => id) canonical_folded_listed

theorem ClassGroup.ordered_chars (o : Options) (g : ClassGroup) : (g.chars o).Ordered := by
  by_cases h : g.Straddles o
  · exact (parted_chars h).ordered
  · exact (canonical_chars h).ordered

theorem ClassGroup.not_denotes_of_straddles {o : Options} {g : ClassGroup} (h : g.Straddles o) {c : Char}
    (hc : AtGap c) : ¬ g.Denotes o c := by
  obtain ⟨hn, hbefore, hbehind, _⟩ := h
  rw [Denotes, hn]
  exact fun hd => Bool.noConfusion (hd.mp ⟨c, .inl rfl, hc.elim (· ▸ hbefore) (· ▸ hbehind)⟩)

/-- A list by itself is taken for what it stands for unless it straddles the gap. -/
theorem ClassTree.faithful_list {o : Options} {g : ClassGroup} :
    (Leaf.charClass (.list g)).Faithful o ↔ ¬ g.Straddles o := by
  constructor
  · exact fun h hs => ClassGroup.not_denotes_of_straddles hs (.inl rfl) ((h beforeGap).mp (.inr ⟨hs, .inl rfl⟩))
  · exact fun h c => or_iff_left fun hs => h hs.1

/-- The list in front of everything that is subtracted. -/
def ClassTree.head : ClassTree → ClassGroup
  | list g => g
  | minus g _ => g

theorem ClassTree.parted_chars {o : Options} {P : Nat → Prop} {t : ClassTree} (h : (t.head.chars o).Parted P) :
    (t.chars o).Parted P := by
  cases t with
  | list g => exact h
  | minus g t => exact parted_diff h

theorem ClassTree.denotes_head {o : Options} {t : ClassTree} {c : Char} (h : t.Denotes o c) : t.head.Denotes o c := by
  cases t with
  | list g => exact h
  | minus g t => exact h.1

theorem ClassTree.ordered_chars (o : Options) (t : ClassTree) : (t.chars o).Ordered :=
  parted_chars (t.head.ordered_chars o)

/-- A class expression that is taken for what it stands for has a seam at the gap alone. -/
theorem ClassTree.canonical_chars {o : Options} {t : ClassTree} (h : ∀ c, AtGap c → (t.Takes o c ↔ t.Denotes o c)) :
    (t.chars o).Canonical := by
  by_cases hs : t.head.Straddles o
  · have hgap : ∀ c, AtGap c → c ∉ t.chars o := fun c hc hmem =>
      ClassGroup.not_denotes_of_straddles hs hc (denotes_head ((h c hc).mp (mem_chars.mp hmem)))
    refine parted_of_seams (t.ordered_chars o) fun n hn => ?_
    have hbefore := rank_beforeGap
    have hbehind := rank_behindGap
    rcases (parted_chars (ClassGroup.parted_chars hs)).of_seamAt hn with he | he
    · exact (hgap beforeGap (.inl rfl) (mem_of_seamAt hn (by omega))).elim
    · exact (hgap behindGap (.inr rfl) (mem_of_seamAt hn (.inl (by unfold gapRank at *; omega)))).elim
  · exact parted_chars (ClassGroup.canonical_chars hs)

end XmlPattern.Grammar

/-! ## Fragments -/

namespace XmlPattern

open CharSet Grammar Unicode

/-- The characters that a fragment for one character is written for. -/
def Fragment.chars : Fragment → CharSet
  | literal c => .single c
  | charClass s _ => s
  | verbatim _ | reference .. => ∅

theorem CharSet.eq_of_single? {s : CharSet} (h : s.single?.isSome = true) {c d : Char} (hc : c ∈ s) (hd : d ∈ s) :
    c = d := by
  obtain ⟨runs⟩ := s
  unfold single? at h
  dsimp only at h
  split at h
  · next r =>
    split at h
    · next he =>
      obtain ⟨x, hx, hxc⟩ := mem_iff.mp hc
      obtain ⟨y, hy, hyd⟩ := mem_iff.mp hd
      obtain rfl := List.mem_singleton.mp hx
      obtain rfl := List.mem_singleton.mp hy
      rw [Run.contains_iff] at hxc hyd
      exact rank_inj (by omega)
    · cases h
  · cases h

namespace Grammar.Leaf

variable {o : Options} {l : Leaf}

/-- An atom of one character is written as a literal or a class. -/
theorem fragment_cases (o : Options) (l : Leaf) :
    (∃ c, l.fragment o = .literal c) ∨ ∃ s, l.fragment o = .charClass s o.expandComplements := by
  cases l with
  | dot => exact .inr ⟨_, rfl⟩
  | set e => exact .inr ⟨_, rfl⟩
  | charClass t => exact .inr ⟨_, rfl⟩
  | single x =>
    show (∃ c, (if o.caseBlind then _ else _) = Fragment.literal c) ∨ _
    cases hb : o.caseBlind with
    | false => exact .inl ⟨x.char, rfl⟩
    | true =>
      show (∃ c, Scan.foldedFragment o.expandComplements x.char = Fragment.literal c) ∨
        ∃ s, fragment o (single x) = Fragment.charClass s o.expandComplements
      rw [show fragment o (single x) = Scan.foldedFragment o.expandComplements x.char from if_pos hb]
      unfold Scan.foldedFragment
      dsimp only
      split
      · exact .inl ⟨_, rfl⟩
      · exact .inr ⟨_, rfl⟩

theorem chars_foldedFragment {expand : Bool} {c d : Char} :
    d ∈ (Scan.foldedFragment expand c).chars ↔ Alike true d c := by
  have hmem : d ∈ foldClosure (.single c) ↔ Alike true d c := by
    rw [show foldClosure (.single c) = folded true (.single c) from rfl, mem_folded]
    simp only [InSomeCase, mem_single, exists_eq_right]
  unfold Scan.foldedFragment
  dsimp only
  split
  · next h =>
    rw [← hmem]
    have hc : c ∈ foldClosure (.single c) := mem_foldClosure.mpr (.inl (mem_single.mpr rfl))
    refine mem_single.trans ⟨fun he => he ▸ hc, fun hd => eq_of_single? h hd hc⟩
  · exact hmem

theorem mem_dotChars {dotAll : Bool} {c : Char} : c ∈ Scan.dotChars dotAll ↔ dotAll = true ∨ c ≠ '\n' ∧ c ≠ '\r' := by
  cases dotAll with
  | true => simp [Scan.dotChars, mem_full]
  | false => simp [Scan.dotChars, mem_diff, mem_full, mem_ofList]

/-- The fragment of an atom is written for what the atom is taken for. -/
theorem mem_chars_fragment {c : Char} : c ∈ (l.fragment o).chars ↔ l.Takes o c := by
  cases l with
  | dot => exact mem_dotChars
  | single x =>
    show c ∈ (if o.caseBlind then _ else Fragment.literal x.char).chars ↔ Alike o.caseBlind c x.char
    cases o.caseBlind with
    | false => exact mem_single.trans (by simp [Alike])
    | true => exact chars_foldedFragment
  | set e => exact e.mem_chars
  | charClass t => exact t.mem_chars

theorem canonical_foldedFragment {expand : Bool} {c : Char} : (Scan.foldedFragment expand c).chars.Canonical := by
  unfold Scan.foldedFragment
  dsimp only
  split
  · exact (separated_single c).parted _
  · exact canonical_foldClosure ((separated_single c).parted _)

theorem canonical_of_plain (h : ∀ t, l ≠ .charClass t) : (l.fragment o).chars.Canonical := by
  cases l with
  | dot =>
    show (Scan.dotChars o.dotAll).Canonical
    unfold Scan.dotChars
    split
    · exact separated_full.parted _
    · exact (separated_full_diff _).parted _
  | single x =>
    show (if o.caseBlind then _ else Fragment.literal x.char).chars.Canonical
    split
    · exact canonical_foldedFragment
    · exact (separated_single _).parted _
  | set e => exact (e.separated_chars o).parted _
  | charClass t => exact absurd rfl (h t)

theorem ordered_fragment (o : Options) (l : Leaf) : (l.fragment o).chars.Ordered := by
  cases l with
  | charClass t => exact t.ordered_chars o
  | dot => exact (canonical_of_plain (l := .dot) fun _ => nofun).ordered
  | single x => exact (canonical_of_plain (l := .single x) fun _ => nofun).ordered
  | set e => exact (canonical_of_plain (l := .set e) fun _ => nofun).ordered

/-- The set of an atom that is taken for what it stands for has a seam at the gap alone. -/
theorem canonical_fragment (h : l.Faithful o) : (l.fragment o).chars.Canonical := by
  cases l with
  | charClass t => exact t.canonical_chars fun c _ => h c
  | dot => exact canonical_of_plain (l := .dot) fun _ => nofun
  | single x => exact canonical_of_plain (l := .single x) fun _ => nofun
  | set e => exact canonical_of_plain (l := .set e) fun _ => nofun

end Grammar.Leaf

end XmlPattern
