import XmlPattern.Proofs.Text.Unit
import XmlPattern.Text.SurrogateCover

/-!
# The pairs of a supplementary range

The runs of a range of supplementary code points cover exactly the surrogate pairs of these. In numbers, a pair is a
place in rows of 0x400, and the runs are the full rows between the ends of the range and what the range has of the rows
at either end.

- `covers_iff`: the runs of a range cover the pairs of its code points.
-/

namespace XmlPattern.Range

open CodeUnit

variable {r : Range} {high low : CodeUnit}

/-- A range of supplementary code points. -/
structure IsSupplementary (r : Range) : Prop where
  ordered : r.min ≤ r.max
  min : 0x10000 ≤ r.min
  max : r.max < 0x110000

/-- The rows that the ends of the range are in. -/
theorem IsSupplementary.toNat_highOf (h : r.IsSupplementary) :
    (highOf r.min).toNat = 0xD800 + (r.min - 0x10000) / 0x400 ∧
      (highOf r.max).toNat = 0xD800 + (r.max - 0x10000) / 0x400 :=
  ⟨CodeUnit.toNat_highOf (Nat.lt_of_le_of_lt h.ordered h.max), CodeUnit.toNat_highOf h.max⟩

/-- The runs of a range cover a pair of units. -/
def Covers (r : Range) (high low : CodeUnit) : Prop :=
  (∃ run, r.highRun? = some run ∧ run.min ≤ high ∧ high ≤ run.max ∧ low.isLowSurrogate = true) ∨
    ∃ run ∈ r.lowRuns, high = run.high ∧ run.min ≤ low ∧ low ≤ run.max

theorem startsFull_iff : r.startsFull = true ↔ (r.min - 0x10000) % 0x400 = 0 := by
  have := toNat_lowOf r.min
  simp only [startsFull, beq_iff_eq, ← UInt16.toNat_inj, UInt16.reduceToNat]
  omega

theorem endsFull_iff : r.endsFull = true ↔ (r.max - 0x10000) % 0x400 = 0x3FF := by
  have := toNat_lowOf r.max
  simp only [endsFull, beq_iff_eq, ← UInt16.toNat_inj, UInt16.reduceToNat]
  omega

/-- The pairs of the code points of a range, in numbers. -/
theorem exists_pair_iff (high low : CodeUnit) (h : r.IsSupplementary) :
    (∃ v, r.min ≤ v ∧ v ≤ r.max ∧ high = highOf v ∧ low = lowOf v) ↔
      low.isLowSurrogate = true ∧ 0xD800 ≤ high.toNat ∧ r.min ≤ combine high low ∧ combine high low ≤ r.max := by
  obtain ⟨hord, hmin, hmax⟩ := h
  rw [isLowSurrogate_iff]
  constructor
  · rintro ⟨v, h₁, h₂, rfl, rfl⟩
    have hv := combine_highOf_lowOf (v := v) (by omega) (by omega)
    have hh := toNat_highOf (v := v) (by omega)
    have hl := toNat_lowOf v
    omega
  · rintro ⟨hl, hh, h₁, h₂⟩
    refine ⟨combine high low, h₁, h₂, ?_, ?_⟩
    · rw [← UInt16.toNat_inj, toNat_highOf (by omega)]
      unfold combine at h₁ h₂ ⊢
      omega
    · rw [← UInt16.toNat_inj, toNat_lowOf]
      unfold combine
      omega

/-- The rows that are full. -/
theorem mem_highRun?_iff (high : CodeUnit) (h : r.IsSupplementary) :
    (∃ run, r.highRun? = some run ∧ run.min ≤ high ∧ high ≤ run.max) ↔
      (highOf r.min).toNat + (if r.startsFull then 0 else 1) ≤ high.toNat ∧
        high.toNat ≤ (highOf r.max).toNat - (if r.endsFull then 0 else 1) := by
  obtain ⟨h₁, h₂⟩ := h.toNat_highOf
  obtain ⟨hord, hmin, hmax⟩ := h
  have hfirst : (if r.startsFull then 0 else 1) ≤ 1 := by split <;> decide
  unfold highRun?
  generalize (if r.startsFull then 0 else 1) = i at hfirst ⊢
  generalize (if r.endsFull then 0 else 1) = j
  dsimp only
  split
  · next hle =>
    simp only [Option.some.injEq, exists_eq_left', UInt16.le_iff_toNat_le, UInt16.toNat_ofNat']
    omega
  · next hlt =>
    simp only [reduceCtorEq, false_and, exists_false, false_iff]
    omega

/-- The first units of a run are in order. -/
theorem highRun?_ordered (h : r.IsSupplementary) {run : HighRun} (hr : r.highRun? = some run) : run.min ≤ run.max := by
  obtain ⟨_, h₂⟩ := h.toNat_highOf
  have hmax := h.max
  simp only [highRun?, Option.ite_none_right_eq_some, Option.some.injEq] at hr
  obtain ⟨hle, rfl⟩ := hr
  simp only [UInt16.le_iff_toNat_le, UInt16.toNat_ofNat']
  omega

/-- The second units of a run are in order. -/
theorem lowRuns_ordered (h : r.IsSupplementary) {run : LowRun} (hr : run ∈ r.lowRuns) : run.min ≤ run.max := by
  have hfirst := (isLowSurrogate_iff.mp (isLowSurrogate_lowOf r.min)).2
  have hlast := (isLowSurrogate_iff.mp (isLowSurrogate_lowOf r.max)).1
  unfold lowRuns at hr
  split at hr
  · next hrow =>
    obtain ⟨h₁, h₂⟩ := h.toNat_highOf
    obtain ⟨hord, hmin, hmax⟩ := h
    obtain ⟨_, hr⟩ := List.mem_ite_nil_left.mp hr
    rw [← UInt16.toNat_inj] at hrow
    rw [List.mem_singleton.mp hr, UInt16.le_iff_toNat_le, toNat_lowOf, toNat_lowOf]
    omega
  · simp only [List.mem_append, List.mem_ite_nil_left, List.mem_singleton] at hr
    rcases hr with ⟨_, rfl⟩ | ⟨_, rfl⟩
    · exact UInt16.le_iff_toNat_le.mpr hfirst
    · exact UInt16.le_iff_toNat_le.mpr hlast

/-- The rows at the ends of a range, as far as it has them. -/
theorem mem_lowRuns_iff :
    (∃ run ∈ r.lowRuns, high = run.high ∧ run.min ≤ low ∧ low ≤ run.max) ↔
      if highOf r.min = highOf r.max then
        ¬ (r.startsFull = true ∧ r.endsFull = true) ∧ high = highOf r.min ∧ lowOf r.min ≤ low ∧ low ≤ lowOf r.max
      else
        r.startsFull = false ∧ high = highOf r.min ∧ lowOf r.min ≤ low ∧ low ≤ 0xDFFF ∨
          r.endsFull = false ∧ high = highOf r.max ∧ 0xDC00 ≤ low ∧ low ≤ lowOf r.max := by
  unfold lowRuns
  split
  · cases r.startsFull <;> cases r.endsFull <;> simp
  · cases r.startsFull <;> cases r.endsFull <;> simp

/-- The runs of a range cover the pairs of its code points and no others. -/
theorem covers_iff (h : r.IsSupplementary) :
    r.Covers high low ↔ ∃ v, r.min ≤ v ∧ v ≤ r.max ∧ high = highOf v ∧ low = lowOf v := by
  have hhigh := mem_highRun?_iff high h
  have hstart := startsFull_iff (r := r)
  have hend := endsFull_iff (r := r)
  have hpair := exists_pair_iff high low h
  obtain ⟨h₁, h₂⟩ := h.toNat_highOf
  obtain ⟨hord, hmin, hmax⟩ := h
  have h₃ := toNat_lowOf r.min
  have h₄ := toNat_lowOf r.max
  rw [hpair, Covers, mem_lowRuns_iff]
  simp only [← and_assoc, exists_and_right] at hhigh ⊢
  rw [hhigh]
  clear hhigh hpair
  simp only [isLowSurrogate_iff, ← UInt16.toNat_inj, UInt16.le_iff_toNat_le, UInt16.reduceToNat]
  unfold combine
  generalize high.toNat = x
  generalize low.toNat = y
  rw [h₁, h₂, h₃, h₄]
  clear h₁ h₂ h₃ h₄
  -- Whether either end of the range fills its row, and whether both ends share one.
  generalize r.startsFull = startsFull at hstart ⊢
  generalize r.endsFull = endsFull at hend ⊢
  cases startsFull <;> cases endsFull <;> simp only [Bool.false_eq_true, false_iff, true_iff] at hstart hend <;>
    simp only [Bool.false_eq_true, reduceCtorEq, if_true, if_false, ite_self, true_and, false_and, and_true, and_false,
      not_true, not_false_eq_true, or_false, false_or] <;> (try split) <;> omega

end XmlPattern.Range
