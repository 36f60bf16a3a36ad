import Mathlib.Data.List.Forall2
import XmlPattern.Dialect.CharClass
import XmlPattern.Native.UnitLexis
import XmlPattern.Proofs.CharSet.Ranges
import XmlPattern.Proofs.Text.SurrogateCover

/-!
# What a class of the UTF-16 dialect says

A set is written as alternatives: its characters of one unit, the first units that any low surrogate may follow, and the
first units with the low surrogates that may follow them. `UnitClass.alternatives` are the classes of units in each
alternative. Together they match the encodings of the members of the set and nothing else.

- `matches_alternatives_iff`: the alternatives of a set are the encodings of its members.
-/

namespace XmlPattern.UnitClass

open Native CharSet CodeUnit

variable {s : CharSet} {u high low : CodeUnit} {us : List CodeUnit} {ranges basic supplementary : List Range}

/-- The units in some of the spans. -/
def listed (spans : List UnitSpan) : UnitSet := ⟨false, spans⟩

/-- A range of code points that are units. -/
def spanOf (r : Range) : UnitSpan := ⟨.ofNat r.min, .ofNat r.max⟩

/-- The low surrogates. -/
def lows : UnitSet := listed [⟨0xDC00, 0xDFFF⟩]

/-- The classes of units in each alternative. -/
def alternatives (basic supplementary : List Range) : List (List UnitSet) :=
  (if basic.isEmpty then [] else [[listed (basic.map spanOf)]]) ++
  (if (highRuns supplementary).isEmpty then []
    else [[listed ((highRuns supplementary).map fun run => ⟨run.min, run.max⟩), lows]]) ++
  (lowRuns supplementary).map fun run => [.single run.high, listed [⟨run.min, run.max⟩]]

/-- Units match one of the alternatives, class by class. -/
def Matches (alternatives : List (List UnitSet)) (us : List CodeUnit) : Prop :=
  ∃ classes ∈ alternatives, List.Forall₂ (fun c u => c.contains u = true) classes us

/-! ## Single units and pairs -/

theorem contains_span {r : UnitSpan} : r.contains u = true ↔ r.min ≤ u ∧ u ≤ r.max := by
  simp [UnitSpan.contains]

theorem contains_listed {spans : List UnitSpan} :
    (listed spans).contains u = true ↔ ∃ r ∈ spans, r.contains u = true := by
  simp [listed, UnitSet.contains]

theorem contains_single {v : CodeUnit} : (UnitSet.single v).contains u = true ↔ u = v := by
  have h : (UnitSet.single v).contains u = true ↔ v ≤ u ∧ u ≤ v := by
    simp [UnitSet.single, UnitSet.contains, UnitSpan.contains, UnitSpan.single]
  rw [h]
  constructor
  · exact fun ⟨h₁, h₂⟩ => UInt16.le_antisymm h₂ h₁
  · rintro rfl
    exact ⟨UInt16.le_refl _, UInt16.le_refl _⟩

theorem contains_lows : lows.contains u = true ↔ u.isLowSurrogate = true := by
  simp [lows, contains_listed, UnitSpan.contains, isLowSurrogate]

theorem matches_append {as bs : List (List UnitSet)} : Matches (as ++ bs) us ↔ Matches as us ∨ Matches bs us := by
  simp only [Matches, List.mem_append, or_and_right, exists_or]

theorem forall₂_one {c : UnitSet} :
    List.Forall₂ (fun c u => c.contains u = true) [c] us ↔ ∃ u, us = [u] ∧ c.contains u = true := by
  simp only [List.forall₂_cons_left_iff, List.forall₂_nil_left_iff, exists_and_left]
  constructor
  · rintro ⟨u, hu, _, rfl, rfl⟩
    exact ⟨u, rfl, hu⟩
  · rintro ⟨u, rfl, hu⟩
    exact ⟨u, hu, [], rfl, rfl⟩

theorem forall₂_two {c d : UnitSet} :
    List.Forall₂ (fun c u => c.contains u = true) [c, d] us ↔
      ∃ high low, us = [high, low] ∧ c.contains high = true ∧ d.contains low = true := by
  rw [List.forall₂_cons_left_iff]
  constructor
  · rintro ⟨high, rest, hc, hd, rfl⟩
    obtain ⟨low, rfl, hlow⟩ := forall₂_one.mp hd
    exact ⟨high, low, rfl, hc, hlow⟩
  · rintro ⟨high, low, rfl, hc, hd⟩
    exact ⟨high, [low], hc, forall₂_one.mpr ⟨low, rfl, hd⟩, rfl⟩

/-- An alternative without spans may be left out. -/
theorem matches_unless_empty {α : Type} {xs : List α} {classes : List UnitSet}
    (h : xs = [] → ¬ List.Forall₂ (fun c u => c.contains u = true) classes us) :
    Matches (if xs.isEmpty then [] else [classes]) us ↔
      List.Forall₂ (fun c u => c.contains u = true) classes us := by
  split
  · next he => exact iff_of_false (by simp [Matches]) (h (List.isEmpty_iff.mp he))
  · simp [Matches]

theorem matches_basic : Matches (if basic.isEmpty then [] else [[listed (basic.map spanOf)]]) us ↔
    ∃ u, us = [u] ∧ ∃ r ∈ basic, (spanOf r).contains u = true := by
  rw [matches_unless_empty, forall₂_one]
  · simp [contains_listed]
  · rintro rfl
    simp [forall₂_one, contains_listed]

theorem matches_highRuns :
    Matches (if (highRuns supplementary).isEmpty then []
      else [[listed ((highRuns supplementary).map fun run => ⟨run.min, run.max⟩), lows]]) us ↔
      ∃ high low, us = [high, low] ∧ ∃ r ∈ supplementary, ∃ run, r.highRun? = some run ∧ run.min ≤ high ∧
        high ≤ run.max ∧ low.isLowSurrogate = true := by
  rw [matches_unless_empty, forall₂_two]
  · refine exists₂_congr fun high low => and_congr_right fun _ => ?_
    simp only [contains_listed, contains_lows, List.mem_map, exists_exists_and_eq_and, mem_highRuns, contains_span]
    constructor
    · rintro ⟨⟨run, ⟨r, hr, hrun⟩, hmin, hmax⟩, hlow⟩
      exact ⟨r, hr, run, hrun, hmin, hmax, hlow⟩
    · rintro ⟨r, hr, run, hrun, hmin, hmax, hlow⟩
      exact ⟨⟨run, ⟨r, hr, hrun⟩, hmin, hmax⟩, hlow⟩
  · intro h
    rw [h, forall₂_two]
    rintro ⟨high, low, _, hhigh, _⟩
    obtain ⟨r, hr, _⟩ := contains_listed.mp hhigh
    cases hr

theorem matches_lowRuns :
    Matches ((lowRuns supplementary).map fun run => [.single run.high, listed [⟨run.min, run.max⟩]]) us ↔
      ∃ high low, us = [high, low] ∧ ∃ r ∈ supplementary, ∃ run ∈ r.lowRuns, high = run.high ∧ run.min ≤ low ∧
        low ≤ run.max := by
  unfold Matches
  simp only [List.mem_map, exists_exists_and_eq_and, forall₂_two, mem_lowRuns, contains_single, contains_listed,
    List.mem_singleton, exists_eq_left, contains_span]
  constructor
  · rintro ⟨run, ⟨r, hr, hrun⟩, high, low, rfl, hhigh, hmin, hmax⟩
    exact ⟨high, low, rfl, r, hr, run, hrun, hhigh, hmin, hmax⟩
  · rintro ⟨high, low, rfl, r, hr, run, hrun, hhigh, hmin, hmax⟩
    exact ⟨run, ⟨r, hr, hrun⟩, high, low, rfl, hhigh, hmin, hmax⟩

/-- The alternatives match the units of the basic ranges and the pairs that the supplementary ones cover. -/
theorem matches_alternatives_iff_units :
    Matches (alternatives basic supplementary) us ↔
      (∃ u, us = [u] ∧ ∃ r ∈ basic, (spanOf r).contains u = true) ∨
        ∃ high low, us = [high, low] ∧ ∃ r ∈ supplementary, r.Covers high low := by
  rw [alternatives, matches_append, matches_append, matches_basic, matches_highRuns, matches_lowRuns, or_assoc]
  simp only [Range.Covers, and_or_left, exists_or]

/-! ## The ranges of a set -/

theorem mem_splitAtBasic_fst {r : Range} :
    r ∈ (splitAtBasic ranges).1 ↔ ∃ q ∈ ranges, q.min < 0x10000 ∧ (⟨q.min, min q.max 0xFFFF⟩ : Range) = r := by
  simp only [splitAtBasic, List.mem_filterMap, Option.ite_none_right_eq_some, Option.some.injEq]

theorem mem_splitAtBasic_snd {r : Range} :
    r ∈ (splitAtBasic ranges).2 ↔ ∃ q ∈ ranges, 0x10000 ≤ q.max ∧ (⟨max q.min 0x10000, q.max⟩ : Range) = r := by
  simp only [splitAtBasic, List.mem_filterMap, Option.ite_none_right_eq_some, Option.some.injEq]

theorem contains_spanOf {r : Range} (h : r.max < 0x10000) (hr : r.min ≤ r.max) :
    (spanOf r).contains u = true ↔ r.contains u.toNat = true := by
  rw [contains_span, Range.contains_iff, UInt16.le_iff_toNat_le, UInt16.le_iff_toNat_le, spanOf, UInt16.toNat_ofNat',
    UInt16.toNat_ofNat']
  omega

theorem isBasic_of_mem {r : Range} (h : r ∈ (splitAtBasic s.ranges).1) : r.min ≤ r.max ∧ r.max < 0x10000 := by
  obtain ⟨q, hq, hmin, rfl⟩ := mem_splitAtBasic_fst.mp h
  have hord := (isRange_of_mem hq).ordered
  dsimp only
  omega

/-- The basic ranges of a set hold the units of its members below U+10000. -/
theorem contains_basic_iff :
    (∃ r ∈ (splitAtBasic s.ranges).1, (spanOf r).contains u = true) ↔
      ∃ c, c ∈ s ∧ c.toNat < 0x10000 ∧ u = ofBasic c := by
  constructor
  · rintro ⟨r, hr, hu⟩
    obtain ⟨q, hq, hmin, rfl⟩ := mem_splitAtBasic_fst.mp hr
    have hord := (isRange_of_mem hq).ordered
    have hmiss := misses_surrogates hq
    rw [contains_spanOf (by dsimp only; omega) (by dsimp only; omega), Range.contains_iff] at hu
    dsimp only at hu
    have hlt := u.toNat_lt
    have hvalid : u.toNat.isValidChar := by unfold Nat.isValidChar; omega
    have hc := toNat_ofNat hvalid
    refine ⟨Char.ofNat u.toNat, mem_ranges.mp ⟨q, hq, ?_⟩, by omega, ?_⟩
    · rw [hc, Range.contains_iff]
      omega
    · rw [ofBasic, hc, UInt16.ofNat_toNat]
  · rintro ⟨c, hc, hlt, rfl⟩
    obtain ⟨q, hq, hqc⟩ := mem_ranges.mpr hc
    rw [Range.contains_iff] at hqc
    refine ⟨_, mem_splitAtBasic_fst.mpr ⟨q, hq, by omega, rfl⟩, ?_⟩
    rw [contains_spanOf (by dsimp only; omega) (by dsimp only; omega), Range.contains_iff, toNat_ofBasic hlt]
    dsimp only
    omega

theorem isSupplementary_of_mem {r : Range} (h : r ∈ (splitAtBasic s.ranges).2) : r.IsSupplementary := by
  obtain ⟨q, hq, hmax, rfl⟩ := mem_splitAtBasic_snd.mp h
  obtain ⟨hord, _, hvalid⟩ := isRange_of_mem hq
  unfold Nat.isValidChar at hvalid
  exact ⟨Nat.max_le.mpr ⟨hord, hmax⟩, Nat.le_max_right _ _, by dsimp only; omega⟩

/-- The supplementary ranges of a set cover the pairs of its members from U+10000 on. -/
theorem covers_supplementary_iff :
    (∃ r ∈ (splitAtBasic s.ranges).2, r.Covers high low) ↔
      ∃ c, c ∈ s ∧ 0x10000 ≤ c.toNat ∧ high = highOf c.toNat ∧ low = lowOf c.toNat := by
  constructor
  · rintro ⟨r, hr, hcov⟩
    have hsup := isSupplementary_of_mem hr
    obtain ⟨v, hmin, hmax, rfl, rfl⟩ := (Range.covers_iff hsup).mp hcov
    obtain ⟨q, hq, _, rfl⟩ := mem_splitAtBasic_snd.mp hr
    have hv : v.isValidChar := by
      have h₁ := hsup.min
      have h₂ := hsup.max
      unfold Nat.isValidChar
      omega
    have hc := toNat_ofNat hv
    refine ⟨Char.ofNat v, mem_ranges.mp ⟨q, hq, ?_⟩, ?_, by rw [hc], by rw [hc]⟩
    · rw [hc, Range.contains_iff]
      exact ⟨Nat.le_trans (Nat.le_max_left _ _) hmin, hmax⟩
    · rw [hc]
      exact Nat.le_trans hsup.min hmin
  · rintro ⟨c, hc, hle, rfl, rfl⟩
    obtain ⟨q, hq, hqc⟩ := mem_ranges.mpr hc
    rw [Range.contains_iff] at hqc
    have hr := mem_splitAtBasic_snd.mpr ⟨q, hq, Nat.le_trans hle hqc.2, rfl⟩
    exact ⟨_, hr, (Range.covers_iff (isSupplementary_of_mem hr)).mpr
      ⟨c.toNat, Nat.max_le.mpr ⟨hqc.1, hle⟩, hqc.2, rfl, rfl⟩⟩

/-- The alternatives of a set match the encodings of its members and nothing else. -/
theorem matches_alternatives_iff :
    Matches (alternatives (splitAtBasic s.ranges).1 (splitAtBasic s.ranges).2) us ↔ ∃ c, c ∈ s ∧ us = ofChar c := by
  rw [matches_alternatives_iff_units]
  simp only [contains_basic_iff, covers_supplementary_iff]
  constructor
  · rintro (⟨_, rfl, c, hc, hlt, rfl⟩ | ⟨_, _, rfl, c, hc, hle, rfl, rfl⟩)
    · exact ⟨c, hc, (if_pos hlt).symm⟩
    · exact ⟨c, hc, (if_neg (Nat.not_lt_of_le hle)).symm⟩
  · rintro ⟨c, hc, rfl⟩
    unfold ofChar
    split
    · next hlt => exact .inl ⟨_, rfl, c, hc, hlt, rfl⟩
    · next hle => exact .inr ⟨_, _, rfl, c, hc, Nat.le_of_not_lt hle, rfl, rfl⟩

end XmlPattern.UnitClass
