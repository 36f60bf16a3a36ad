import XmlPattern.Dialect.CharClass
import XmlPattern.Proofs.CharSet.Ranges

/-!
# What a class of the scalar dialect says

A set is written as its ranges, or as a complement by the ranges of what it lacks. `ScalarClass.readBack` is the set
that an engine makes of such a text: the union of the ranges, and the complement of that. Written as a complement, a set
comes back unchanged exactly when it has no seam but at the surrogate gap; written by its own ranges, it always does.

- `mem_ofRanges_ranges`: the ranges of a set read back as the set.
- `ScalarClass.takes_bracketClass`: the class of a canonical set stands for the set.
- `mem_readBack_iff`: when a set is what its class says.
-/

namespace XmlPattern

open CharSet

namespace CharSet

/-! ## Reading ranges back -/

/-- The characters of a range. -/
def ofRange (r : Range) : CharSet := if r.min < r.max then span r.min r.max else single (Char.ofNat r.min)

/-- The characters of any of the ranges, added one after another. -/
def ofRanges (ranges : List Range) : CharSet := ranges.foldl (fun s r => s ∪ ofRange r) ∅

theorem mem_ofRange {r : Range} (h : IsRange r) {c : Char} : c ∈ ofRange r ↔ r.contains c.toNat = true := by
  rw [Range.contains_iff]
  unfold ofRange
  split
  · exact mem_span
  · next hlt =>
    have hord := h.ordered
    rw [mem_single, ← Char.toNat_inj, toNat_ofNat h.min]
    omega

theorem separated_ofRange (r : Range) : (ofRange r).Separated := by
  unfold ofRange
  split
  · exact separated_span _ _
  · exact separated_single _

theorem canonical_foldl_ofRange {s : CharSet} (h : s.Canonical) (ranges : List Range) :
    (ranges.foldl (fun s r => s ∪ ofRange r) s).Canonical := by
  induction ranges generalizing s with
  | nil => exact h
  | cons r ranges ih => exact ih (canonical_union h.ordered ((separated_ofRange r).parted _))

theorem canonical_ofRanges (ranges : List Range) : (ofRanges ranges).Canonical :=
  canonical_foldl_ofRange canonical_empty ranges

theorem mem_foldl_ofRange {s : CharSet} {ranges : List Range} (h : ∀ r ∈ ranges, IsRange r) {c : Char} :
    c ∈ ranges.foldl (fun s r => s ∪ ofRange r) s ↔ c ∈ s ∨ ∃ r ∈ ranges, r.contains c.toNat = true := by
  induction ranges generalizing s with
  | nil => simp
  | cons r ranges ih =>
    have hr := h r List.mem_cons_self
    simp [ih fun x hx => h x (List.mem_cons_of_mem _ hx), mem_union, mem_ofRange hr, or_assoc]

theorem mem_ofRanges {ranges : List Range} (h : ∀ r ∈ ranges, IsRange r) {c : Char} :
    c ∈ ofRanges ranges ↔ ∃ r ∈ ranges, r.contains c.toNat = true :=
  (mem_foldl_ofRange h).trans (or_iff_right (not_mem_empty c))

/-- The ranges of a set read back as the set. -/
theorem mem_ofRanges_ranges {s : CharSet} {c : Char} : c ∈ ofRanges s.ranges ↔ c ∈ s :=
  (mem_ofRanges fun _ => isRange_of_mem).trans mem_ranges

theorem isRange_all : IsRange ⟨0, 0x10FFFF⟩ :=
  ⟨Nat.zero_le _, show (0).isValidChar by decide, show (0x10FFFF).isValidChar by decide⟩

theorem contains_all (c : Char) : (⟨0, 0x10FFFF⟩ : Range).contains c.toNat = true := by
  have := toNat_gap c
  exact Range.contains_iff.mpr ⟨Nat.zero_le _, by dsimp only; omega⟩

theorem ranges_ne_nil {t : CharSet} (h : t.isEmpty = false) : t.ranges ≠ [] := by
  intro he
  have hle := length_runs_le t.runs
  rw [show t.runs.flatMap rangesOfRun = t.ranges from rfl, he] at hle
  rw [isEmpty, List.isEmpty_eq_false_iff] at h
  exact h (List.length_eq_zero_iff.mp (Nat.le_zero.mp hle))

end CharSet

/-! ## Classes in brackets -/

/-- A class in brackets: ranges of code points, and whether it stands for the characters outside them. -/
structure BracketClass where
  negated : Bool
  ranges : List Range

namespace BracketClass

/-- The text of a class. -/
def text (b : BracketClass) : List Char := '[' :: (if b.negated then ['^'] else []) ++ scalarRanges b.ranges ++ [']']

/-- A character is one of those that a class stands for. -/
def Takes (b : BracketClass) (c : Char) : Prop := (∃ r ∈ b.ranges, r.contains c.toNat = true) ↔ b.negated = false

end BracketClass

/-! ## What a class says -/

namespace ScalarClass

/-- A set is written as a complement. -/
def prefersComplement (expand : Bool) (s : CharSet) : Bool :=
  !expand && !s.compl.ranges.isEmpty && s.compl.ranges.length < s.ranges.length

/-- What the class that is written for a set says. -/
def readBack (expand : Bool) (s : CharSet) : CharSet :=
  if s.isEmpty then (ofRanges [⟨0, 0x10FFFF⟩]).compl
  else if prefersComplement expand s then (ofRanges s.compl.ranges).compl
  else ofRanges s.ranges

/-- The class in brackets that is written for a set of characters. -/
def bracketClass (expand : Bool) (s : CharSet) : BracketClass :=
  if s.isEmpty then ⟨true, [⟨0, 0x10FFFF⟩]⟩
  else if prefersComplement expand s then ⟨true, s.compl.ranges⟩
  else ⟨false, s.ranges⟩

theorem text_bracketClass (expand : Bool) (s : CharSet) : (bracketClass expand s).text = scalarClass expand s := by
  unfold bracketClass scalarClass prefersComplement
  split
  · rfl
  · dsimp only
    split
    · rfl
    · rfl

theorem ranges_bracketClass_ne_nil (expand : Bool) (s : CharSet) : (bracketClass expand s).ranges ≠ [] := by
  unfold bracketClass
  split
  · exact List.cons_ne_nil _ _
  · next he =>
    split
    · next hp =>
      simp only [prefersComplement, Bool.and_eq_true, Bool.not_eq_true', List.isEmpty_eq_false_iff] at hp
      exact hp.1.2
    · exact ranges_ne_nil (Bool.eq_false_iff.mpr he)

theorem isRange_of_bracketClass {expand : Bool} {s : CharSet} {r : Range} (h : r ∈ (bracketClass expand s).ranges) :
    IsRange r := by
  unfold bracketClass at h
  split at h
  · rw [List.mem_singleton.mp h]
    exact isRange_all
  · split at h
    · exact isRange_of_mem h
    · exact isRange_of_mem h

/-- The class that is written says what is read back. -/
theorem readBack_eq (expand : Bool) (s : CharSet) :
    readBack expand s = if (bracketClass expand s).negated then (ofRanges (bracketClass expand s).ranges).compl
      else ofRanges (bracketClass expand s).ranges := by
  unfold readBack bracketClass
  split
  · rfl
  · split
    · rfl
    · rfl

variable {expand : Bool} {s : CharSet} {c : Char}

theorem not_bridged_of_bridged_compl (h : s.Canonical) (hb : s.compl.Bridged) : ¬ s.Bridged := by
  intro hs
  have hmem := mem_of_bridged hb (c := beforeGap) (.inl rfl)
  rcases (mem_compl_of_canonical h).mp hmem with hc | ⟨hseam, _⟩
  · exact hc (mem_of_bridged hs (.inl rfl))
  · exact ((seamAt_gap_iff h.ordered).mp hseam).2.2 hs

/-- The complement of a canonical set has no seam at the gap. -/
theorem bridged_compl_of_canonical (h : s.Canonical) (hb : beforeGap ∈ s.compl) (hb' : behindGap ∈ s.compl) :
    s.compl.Bridged := by
  have hparted := parted_compl (fun _ => id) h
  have hns : ¬ s.compl.SeamAt gapRank := fun hs => by
    have := hparted.of_seamAt hs
    unfold gapRank at this
    omega
  rw [seamAt_gap_iff hparted.ordered] at hns
  exact Decidable.byContradiction fun hn => hns ⟨hb, hb', hn⟩

/-- Where a canonical set is written as a complement, that has no run across the gap: it would not be shorter. -/
theorem not_bridged_compl (h : s.Canonical) (hp : prefersComplement expand s = true) : ¬ s.compl.Bridged := by
  intro hb
  have h₁ := length_ranges_of_bridged hb
  have h₂ := length_ranges_of_not_bridged (not_bridged_of_bridged_compl h hb)
  have h₃ := length_runs_compl s
  simp only [prefersComplement, Bool.and_eq_true, decide_eq_true_eq] at hp
  omega

theorem mem_readBack_of_isEmpty (h : s.isEmpty = true) : c ∉ readBack expand s := by
  have hall : ∀ c, c ∈ ofRanges [⟨0, 0x10FFFF⟩] := by
    intro c
    rw [mem_ofRanges (by simpa using isRange_all)]
    exact ⟨_, List.mem_singleton.mpr rfl, contains_all c⟩
  have hbridged : (ofRanges [⟨0, 0x10FFFF⟩]).Bridged :=
    bridged_union.mpr (.inr (bridged_span.mpr ⟨mem_span.mpr (by decide), mem_span.mpr (by decide)⟩))
  have hsep : (ofRanges [⟨0, 0x10FFFF⟩]).Separated :=
    (canonical_ofRanges _).separated fun hs => ((seamAt_gap_iff (canonical_ofRanges _).ordered).mp hs).2.2 hbridged
  unfold readBack
  rw [if_pos h, mem_compl hsep]
  exact fun hn => hn (hall c)

theorem mem_readBack_of_not_prefers (h : prefersComplement expand s = false) : c ∈ readBack expand s ↔ c ∈ s := by
  by_cases he : s.isEmpty = true
  · refine iff_of_false (mem_readBack_of_isEmpty he) ?_
    rw [mem_iff, List.isEmpty_iff.mp he]
    rintro ⟨r, hr, _⟩
    cases hr
  · unfold readBack
    rw [if_neg he, if_neg (by rw [h]; decide)]
    exact mem_ofRanges_ranges

theorem isEmpty_of_prefers (h : prefersComplement expand s = true) : s.isEmpty = false := by
  cases he : s.isEmpty with
  | false => rfl
  | true =>
    have hranges : s.ranges = [] := by rw [ranges, List.isEmpty_iff.mp he, List.flatMap_nil]
    simp only [prefersComplement, Bool.and_eq_true, decide_eq_true_eq, hranges] at h
    exact absurd h.2 (Nat.not_lt_zero _)

theorem readBack_of_prefers (h : prefersComplement expand s = true) :
    readBack expand s = (ofRanges s.compl.ranges).compl := by
  unfold readBack
  rw [isEmpty_of_prefers h, if_neg (by decide), if_pos h]

/-- Where a canonical set is written as a complement, it has no seam at the gap either. -/
theorem separated_of_prefers (h : s.Canonical) (hp : prefersComplement expand s = true) : s.Separated := by
  apply h.separated
  intro hs
  exact not_bridged_compl h hp (bridged_compl_of_canonical h ((mem_compl_of_canonical h).mpr (.inr ⟨hs, .inl rfl⟩))
    ((mem_compl_of_canonical h).mpr (.inr ⟨hs, .inr rfl⟩)))

theorem mem_readBack_of_canonical (h : s.Canonical) : c ∈ readBack expand s ↔ c ∈ s := by
  cases hp : prefersComplement expand s with
  | false => exact mem_readBack_of_not_prefers hp
  | true =>
    have hnb := not_bridged_compl h hp
    have hsep := separated_of_prefers h hp
    have hread : (ofRanges s.compl.ranges).Separated := by
      refine (canonical_ofRanges _).separated fun hs => hnb ?_
      have hmem := (seamAt_gap_iff (canonical_ofRanges _).ordered).mp hs
      exact bridged_compl_of_canonical h (mem_ofRanges_ranges.mp hmem.1) (mem_ofRanges_ranges.mp hmem.2.1)
    rw [readBack_of_prefers hp, mem_compl hread, mem_ofRanges_ranges, mem_compl hsep, Decidable.not_not]

/-- The class that is written for a canonical set stands for it. -/
theorem takes_bracketClass (h : s.Canonical) :
    (bracketClass expand s).Takes c ↔ c ∈ s := by
  unfold bracketClass BracketClass.Takes
  split
  · next he =>
    have hempty : c ∉ s := by
      rw [mem_iff, List.isEmpty_iff.mp he]
      simp
    simp [hempty, contains_all]
  · split
    · next hp =>
      have hcompl := mem_compl (separated_of_prefers h hp) (c := c)
      rw [mem_ranges, hcompl]
      simp
    · rw [mem_ranges]
      simp

/-- A character that is at no seam, and not at the gap, is in a set exactly if the class of the set says so. -/
theorem mem_readBack_of_not_seam (h : s.Ordered) (hgap : ¬ AtGap c)
    (hc : ∀ n, s.SeamAt n → ¬ (rank c + 1 = n ∨ rank c = n)) : c ∈ readBack expand s ↔ c ∈ s := by
  cases hp : prefersComplement expand s with
  | false => exact mem_readBack_of_not_prefers hp
  | true =>
    have hseam : ¬ ∃ n, s.SeamAt n ∧ (rank c + 1 = n ∨ rank c = n) := fun ⟨n, hs, hn⟩ => hc n hs hn
    have hread := mem_compl_of_canonical (canonical_ofRanges s.compl.ranges) (c := c)
    rw [or_iff_left fun hs => hgap hs.2] at hread
    rw [readBack_of_prefers hp, hread, mem_ofRanges_ranges, mem_compl_iff h, or_iff_left hseam, Decidable.not_not]

/-- Away from the gap, what is at a seam is lost where a set is written as a complement. -/
theorem exists_lost (h : s.Ordered) (hp : prefersComplement expand s = true) (hn : ¬ s.Canonical) :
    ∃ c, ¬ AtGap c ∧ c ∈ s ∧ c ∉ readBack expand s := by
  have hlost : ∀ {n : Nat} {c : Char}, s.SeamAt n → (rank c + 1 = n ∨ rank c = n) → ¬ AtGap c →
      c ∈ s ∧ c ∉ readBack expand s := by
    intro n c hs hc hgap
    refine ⟨mem_of_seamAt hs hc, ?_⟩
    rw [readBack_of_prefers hp, mem_compl_of_canonical (canonical_ofRanges _), mem_ofRanges_ranges, mem_compl_iff h]
    exact fun hmem => hmem.elim (fun hno => hno (.inr ⟨n, hs, hc⟩)) fun hg => hgap hg.2
  have hseam : ∃ n, s.SeamAt n ∧ n ≠ gapRank := Classical.byContradiction fun hno =>
    hn (parted_of_seams h fun n hs => Decidable.byContradiction fun hne => hno ⟨n, hs, hne⟩)
  obtain ⟨n, hs, hne⟩ := hseam
  obtain ⟨a, _, b, _, h₁, h₂⟩ := id hs
  have hb := b.bounded
  have hbo := b.ordered
  have hlast : rank (ofRank (n - 1)) = n - 1 := rank_ofRank (by omega)
  have hfirst : rank (ofRank n) = n := rank_ofRank (by omega)
  -- Of the two characters at a seam elsewhere, at most one is at the gap.
  by_cases hgap : n - 1 = gapRank
  · exact ⟨ofRank n, by rw [atGap_iff]; omega, hlost hs (.inr hfirst) (by rw [atGap_iff]; omega)⟩
  · exact ⟨ofRank (n - 1), by rw [atGap_iff]; omega, hlost hs (.inl (by omega)) (by rw [atGap_iff]; omega)⟩

/-- A set is what its class says, unless it is written as a complement and has a seam that is not at the gap. -/
theorem mem_readBack_iff (h : s.Ordered) :
    (∀ c, c ∈ readBack expand s ↔ c ∈ s) ↔ (prefersComplement expand s = true → s.Canonical) := by
  constructor
  · intro hall hp
    refine Classical.byContradiction fun hn => ?_
    obtain ⟨c, _, hc, hno⟩ := exists_lost h hp hn
    exact hno ((hall c).mpr hc)
  · intro hcan c
    cases hp : prefersComplement expand s with
    | false => exact mem_readBack_of_not_prefers hp
    | true => exact mem_readBack_of_canonical (hcan hp)

end ScalarClass

end XmlPattern
