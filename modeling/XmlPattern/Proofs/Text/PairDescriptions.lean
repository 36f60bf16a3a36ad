import XmlPattern.Proofs.Text.SurrogateCover

/-!
# How often a pair is described

The runs of a list of supplementary ranges describe surrogate pairs. Where no two of the ranges share a code point, each
pair of a code point of the list is described by one run and no more, though several ranges may have part of one row.

- `Range.descriptions_le_one`: within a range the full rows and the rows at its ends do not overlap.
- `descriptions_of_disjoint`: the runs of disjoint ranges describe the pairs of their code points, each once.
-/

namespace XmlPattern

open CodeUnit

/-- A pair is one of a run: its first unit is in the run, and its second is any low surrogate. -/
def HighRun.describes (run : HighRun) (high low : CodeUnit) : Bool :=
  run.min ≤ high && high ≤ run.max && low.isLowSurrogate

/-- A pair is one of a run: it has the first unit of the run, and its second unit is in the run. -/
def LowRun.describes (run : LowRun) (high low : CodeUnit) : Bool :=
  high == run.high && run.min ≤ low && low ≤ run.max

/-- How many runs of a list of ranges describe a pair. -/
def descriptions (ranges : List Range) (high low : CodeUnit) : Nat :=
  (highRuns ranges).countP (·.describes high low) + (lowRuns ranges).countP (·.describes high low)

/-- A run of first units is in order, and its ends are high surrogates. -/
structure HighRun.Valid (run : HighRun) : Prop where
  min : run.min.isHighSurrogate = true
  max : run.max.isHighSurrogate = true
  ordered : run.min ≤ run.max

/-- A run of second units is in order, its ends are low surrogates, and a high surrogate stands in front of it. -/
structure LowRun.Valid (run : LowRun) : Prop where
  high : run.high.isHighSurrogate = true
  min : run.min.isLowSurrogate = true
  max : run.max.isLowSurrogate = true
  ordered : run.min ≤ run.max

/-- Two ranges share no code point. -/
def Range.Disjoint (r r' : Range) : Prop := ∀ v, r.contains v = true → r'.contains v = false

/-- A pair is that of a code point of a range. -/
def Range.HasPair (r : Range) (high low : CodeUnit) : Prop :=
  ∃ v, r.contains v = true ∧ high = highOf v ∧ low = lowOf v

theorem descriptions_cons (r : Range) (ranges : List Range) (high low : CodeUnit) :
    descriptions (r :: ranges) high low = descriptions [r] high low + descriptions ranges high low := by
  have hhigh : highRuns (r :: ranges) = highRuns [r] ++ highRuns ranges := List.filterMap_append (l := [r])
  have hlow : lowRuns (r :: ranges) = lowRuns [r] ++ lowRuns ranges := by simp [lowRuns]
  unfold descriptions
  rw [hhigh, hlow, List.countP_append, List.countP_append]
  omega

/-- What holds of no two members of a list holds of one at most. -/
theorem countP_le_one {α : Type} {p : α → Bool} {l : List α} (h : l.Pairwise fun a b => p a = true → p b = false) :
    l.countP p ≤ 1 := by
  induction h with
  | nil => exact Nat.zero_le _
  | @cons a l ha _ ih =>
    cases hp : p a with
    | false => rwa [List.countP_cons_of_neg (by rw [hp]; decide)]
    | true =>
      have hzero : l.countP p = 0 := List.countP_eq_zero.mpr fun b hb => by rw [ha b hb hp]; decide
      exact Nat.le_of_eq (by rw [List.countP_cons_of_pos hp, hzero])

namespace Range

variable {r : Range} {high low : CodeUnit}

/-! ## The runs of one range -/

theorem exists_highRun_iff :
    (∃ run ∈ highRuns [r], run.describes high low = true) ↔
      ∃ run, r.highRun? = some run ∧ run.min ≤ high ∧ high ≤ run.max ∧ low.isLowSurrogate = true := by
  simp [mem_highRuns, HighRun.describes, and_assoc]

theorem exists_lowRun_iff :
    (∃ run ∈ XmlPattern.lowRuns [r], run.describes high low = true) ↔
      ∃ run ∈ r.lowRuns, high = run.high ∧ run.min ≤ low ∧ low ≤ run.max := by
  simp [mem_lowRuns, LowRun.describes, and_assoc]

theorem descriptions_pos_iff : 0 < descriptions [r] high low ↔ r.Covers high low := by
  rw [descriptions, Nat.add_pos_iff_pos_or_pos, List.countP_pos_iff, List.countP_pos_iff, exists_highRun_iff,
    exists_lowRun_iff, Covers]

/-- The full rows of a range are not among the rows at its ends that it has only part of. -/
theorem not_low_of_high (h : r.IsSupplementary)
    (hhigh : ∃ run, r.highRun? = some run ∧ run.min ≤ high ∧ high ≤ run.max) :
    ¬ ∃ run ∈ r.lowRuns, high = run.high ∧ run.min ≤ low ∧ low ≤ run.max := by
  rw [mem_highRun?_iff high h] at hhigh
  rw [mem_lowRuns_iff]
  obtain ⟨hmin, hmax⟩ := h.toNat_highOf
  simp only [← UInt16.toNat_inj]
  cases hs : r.startsFull <;> cases he : r.endsFull <;>
    simp only [hs, he, Bool.false_eq_true, if_true, if_false, reduceCtorEq, true_and, false_and, and_false, not_true,
      not_false_eq_true, or_false, false_or, ite_self] at hhigh ⊢ <;> (try split) <;> omega

/-- The rows at the ends of a range are different ones. -/
theorem pairwise_lowRuns : r.lowRuns.Pairwise fun a b => a.high ≠ b.high := by
  unfold lowRuns
  split
  · split <;> simp
  · next hne => split <;> split <;> simp [hne]

theorem countP_highRuns_le_one (r : Range) (high low : CodeUnit) :
    (highRuns [r]).countP (·.describes high low) ≤ 1 := by
  refine Nat.le_trans List.countP_le_length ?_
  unfold highRuns
  cases hr : r.highRun? <;> simp [hr]

theorem countP_lowRuns_le_one (r : Range) (high low : CodeUnit) :
    (XmlPattern.lowRuns [r]).countP (·.describes high low) ≤ 1 := by
  rw [XmlPattern.lowRuns, List.flatMap_singleton]
  refine countP_le_one (pairwise_lowRuns.imp fun {a b} hne ha => ?_)
  simp only [LowRun.describes, Bool.and_eq_true, beq_iff_eq] at ha
  simp [LowRun.describes, ha.1.1, hne]

/-- Within a range the full rows and the rows at its ends do not overlap. -/
theorem descriptions_le_one (h : r.IsSupplementary) (high low : CodeUnit) : descriptions [r] high low ≤ 1 := by
  have hhighs := countP_highRuns_le_one r high low
  have hlows := countP_lowRuns_le_one r high low
  have hexcl : 0 < (highRuns [r]).countP (·.describes high low) →
      ¬ 0 < (XmlPattern.lowRuns [r]).countP (·.describes high low) := by
    rw [List.countP_pos_iff, List.countP_pos_iff, exists_highRun_iff, exists_lowRun_iff]
    rintro ⟨run, hr, hmin, hmax, _⟩
    exact not_low_of_high h ⟨run, hr, hmin, hmax⟩
  unfold descriptions
  omega

/-- The runs of a range describe the pairs of its code points. -/
theorem descriptions_pos_iff_hasPair (h : r.IsSupplementary) (high low : CodeUnit) :
    0 < descriptions [r] high low ↔ r.HasPair high low := by
  rw [descriptions_pos_iff, covers_iff h]
  simp only [HasPair, contains_iff, and_assoc]

/-- A pair is that of one code point, so disjoint ranges share no pair. -/
theorem HasPair.not_of_disjoint {r' : Range} (h : r.IsSupplementary) (h' : r'.IsSupplementary) (hd : r.Disjoint r')
    (hp : r.HasPair high low) : ¬ r'.HasPair high low := by
  obtain ⟨v, hv, rfl, rfl⟩ := hp
  rintro ⟨w, hw, hhigh, hlow⟩
  rw [contains_iff] at hv
  have hw' := contains_iff.mp hw
  have heq : combine (highOf v) (lowOf v) = combine (highOf w) (lowOf w) := by rw [hhigh, hlow]
  rw [combine_highOf_lowOf (Nat.le_trans h.min hv.1) (Nat.lt_of_le_of_lt hv.2 h.max),
    combine_highOf_lowOf (Nat.le_trans h'.min hw'.1) (Nat.lt_of_le_of_lt hw'.2 h'.max)] at heq
  rw [← heq, hd v (contains_iff.mpr hv)] at hw
  cases hw

/-! ## Their bounds -/

theorem valid_of_highRun? (h : r.IsSupplementary) {run : HighRun} (hr : r.highRun? = some run) : run.Valid := by
  have hle := highRun?_ordered h hr
  have hmin := (mem_highRun?_iff run.min h).mp ⟨run, hr, UInt16.le_refl _, hle⟩
  have hmax := (mem_highRun?_iff run.max h).mp ⟨run, hr, hle, UInt16.le_refl _⟩
  obtain ⟨h₁, h₂⟩ := h.toNat_highOf
  have hbound := h.max
  exact ⟨isHighSurrogate_iff.mpr (by omega), isHighSurrogate_iff.mpr (by omega), hle⟩

theorem valid_of_mem_lowRuns (h : r.IsSupplementary) {run : LowRun} (hr : run ∈ r.lowRuns) : run.Valid := by
  have hle := lowRuns_ordered h hr
  have hmin : r.Covers run.high run.min := .inr ⟨run, hr, rfl, UInt16.le_refl _, hle⟩
  have hmax : r.Covers run.high run.max := .inr ⟨run, hr, rfl, hle, UInt16.le_refl _⟩
  obtain ⟨v, _, hv, hhigh, hlow⟩ := (covers_iff h).mp hmin
  obtain ⟨w, _, _, _, hlow'⟩ := (covers_iff h).mp hmax
  refine ⟨?_, hlow ▸ isLowSurrogate_lowOf v, hlow' ▸ isLowSurrogate_lowOf w, hle⟩
  rw [hhigh]
  exact isHighSurrogate_highOf (Nat.lt_of_le_of_lt hv h.max)

end Range

/-! ## The runs of a list of ranges -/

/-- Where no two ranges share a code point, a pair is described once or not at all. -/
theorem descriptions_spec {ranges : List Range} (h : ∀ r ∈ ranges, r.IsSupplementary)
    (hd : ranges.Pairwise Range.Disjoint) (high low : CodeUnit) :
    descriptions ranges high low ≤ 1 ∧
      (descriptions ranges high low = 1 ↔ ∃ r ∈ ranges, r.HasPair high low) := by
  induction ranges with
  | nil => exact ⟨Nat.zero_le _, iff_of_false Nat.zero_ne_one nofun⟩
  | cons r ranges ih =>
    obtain ⟨hr, h⟩ := List.forall_mem_cons.mp h
    obtain ⟨hdr, hd⟩ := List.pairwise_cons.mp hd
    obtain ⟨hle, hone⟩ := ih h hd
    have hle' := Range.descriptions_le_one hr high low
    have hpos := Range.descriptions_pos_iff_hasPair hr high low
    have hexcl : 0 < descriptions [r] high low → ¬ descriptions ranges high low = 1 := by
      rw [hpos, hone]
      rintro hp ⟨r', hr', hp'⟩
      exact hp.not_of_disjoint hr (h r' hr') (hdr r' hr') hp'
    rw [descriptions_cons]
    simp only [List.mem_cons, exists_eq_or_imp, ← hone, ← hpos]
    omega

/--
The runs of disjoint supplementary ranges describe the pairs of their code points and no others, each once. Their bounds
are surrogates of their kind and in order, and a pair stands for the code point that it is the pair of.
-/
theorem descriptions_of_disjoint {ranges : List Range} (h : ∀ r ∈ ranges, r.IsSupplementary)
    (hd : ranges.Pairwise Range.Disjoint) :
    (∀ high low, descriptions ranges high low ≤ 1 ∧
      (descriptions ranges high low = 1 ↔
        ∃ r ∈ ranges, ∃ v, r.contains v = true ∧ high = highOf v ∧ low = lowOf v)) ∧
      (∀ run ∈ highRuns ranges, run.Valid) ∧ (∀ run ∈ lowRuns ranges, run.Valid) ∧
        ∀ v, 0x10000 ≤ v → v < 0x110000 → combine (highOf v) (lowOf v) = v := by
  refine ⟨descriptions_spec h hd, fun run hrun => ?_, fun run hrun => ?_, fun v => combine_highOf_lowOf⟩
  · obtain ⟨r, hr, hrun⟩ := mem_highRuns.mp hrun
    exact Range.valid_of_highRun? (h r hr) hrun
  · obtain ⟨r, hr, hrun⟩ := mem_lowRuns.mp hrun
    exact Range.valid_of_mem_lowRuns (h r hr) hrun

/-- Two ranges that have part of one row each: the row is described in two parts. -/
theorem descriptions_shared_row :
    (∀ r ∈ [(⟨0x10005, 0x10801⟩ : Range), ⟨0x10810, 0x10BFF⟩], r.IsSupplementary) ∧
      [(⟨0x10005, 0x10801⟩ : Range), ⟨0x10810, 0x10BFF⟩].Pairwise Range.Disjoint ∧
        descriptions [⟨0x10005, 0x10801⟩, ⟨0x10810, 0x10BFF⟩] 0xD802 0xDC10 = 1 := by
  have h : ∀ r ∈ [(⟨0x10005, 0x10801⟩ : Range), ⟨0x10810, 0x10BFF⟩], r.IsSupplementary := by
    simp only [List.mem_cons, List.not_mem_nil, or_false]
    rintro r (rfl | rfl)
    · exact ⟨by decide, by decide, by decide⟩
    · exact ⟨by decide, by decide, by decide⟩
  have hd : [(⟨0x10005, 0x10801⟩ : Range), ⟨0x10810, 0x10BFF⟩].Pairwise Range.Disjoint := by
    refine List.pairwise_pair.mpr fun v hv => ?_
    simp only [Range.contains, Bool.and_eq_true, decide_eq_true_eq, Bool.and_eq_false_iff,
      decide_eq_false_iff_not] at hv ⊢
    omega
  refine ⟨h, hd, ((descriptions_of_disjoint h hd).1 _ _).2.mpr ?_⟩
  exact ⟨⟨0x10810, 0x10BFF⟩, by decide, 0x10810, by decide, by decide, by decide⟩

end XmlPattern
