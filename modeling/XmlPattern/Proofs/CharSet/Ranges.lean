import XmlPattern.Proofs.CharSet.Complement
import XmlPattern.Proofs.Text.Unit

/-!
# The ranges of a set

The runs of a set, written by code points, are ranges of characters. A run across the surrogate gap makes two of them,
so that no range holds a surrogate.

- `mem_ranges`: the ranges of a set hold what the set does.
- `length_ranges_of_bridged`, `length_ranges_of_not_bridged`: there are more ranges than runs only for a run across the
  gap.
-/

namespace XmlPattern.CharSet

/-- A range of code points of characters. -/
structure IsRange (r : Range) : Prop where
  ordered : r.min ≤ r.max
  min : r.min.isValidChar
  max : r.max.isValidChar

theorem codePointAt_le_iff {m n : Nat} : codePointAt m ≤ codePointAt n ↔ m ≤ n := by
  unfold codePointAt
  split <;> split <;> omega

theorem codePointAt_le_gap_iff {n : Nat} : codePointAt n ≤ 0xD7FF ↔ n < gapRank := by
  unfold codePointAt gapRank
  split <;> omega

theorem gap_le_codePointAt_iff {n : Nat} : 0xE000 ≤ codePointAt n ↔ gapRank ≤ n := by
  unfold codePointAt gapRank
  split <;> omega

theorem rangesOfRun_eq (r : Run) :
    rangesOfRun r = if r.IsBridge then [⟨codePointAt r.first, 0xD7FF⟩, ⟨0xE000, codePointAt r.last⟩]
      else [⟨codePointAt r.first, codePointAt r.last⟩] := by
  by_cases h : r.IsBridge
  · rw [if_pos h, show codePointAt r.first = r.first from if_pos h.1]
    exact if_pos h
  · rw [if_neg h]
    exact if_neg h

theorem isRange_of_mem {s : CharSet} {r : Range} (h : r ∈ s.ranges) : IsRange r := by
  obtain ⟨run, _, hr⟩ := List.mem_flatMap.mp h
  have hfirst := codePointAt_isValidChar (Nat.lt_of_le_of_lt run.ordered run.bounded)
  have hlast := codePointAt_isValidChar run.bounded
  have hgap : (0xD7FF).isValidChar ∧ (0xE000).isValidChar := by decide
  rw [rangesOfRun_eq] at hr
  split at hr
  · next hb =>
    simp only [List.mem_cons, List.not_mem_nil, or_false] at hr
    rcases hr with rfl | rfl
    · exact ⟨codePointAt_le_gap_iff.mpr hb.1, hfirst, hgap.1⟩
    · exact ⟨gap_le_codePointAt_iff.mpr hb.2, hgap.2, hlast⟩
  · simp only [List.mem_singleton] at hr
    subst hr
    exact ⟨codePointAt_le_iff.mpr run.ordered, hfirst, hlast⟩

/-- No range of a set holds a surrogate. -/
theorem misses_surrogates {s : CharSet} {r : Range} (h : r ∈ s.ranges) : r.max < 0xD800 ∨ 0xE000 ≤ r.min := by
  obtain ⟨run, _, hr⟩ := List.mem_flatMap.mp h
  rw [rangesOfRun_eq] at hr
  split at hr
  · simp only [List.mem_cons, List.not_mem_nil, or_false] at hr
    rcases hr with rfl | rfl
    · exact .inl (Nat.lt_succ_self 0xD7FF)
    · exact .inr (Nat.le_refl _)
  · next hb =>
    simp only [List.mem_singleton] at hr
    subst hr
    rcases Nat.lt_or_ge run.last gapRank with hlt | hle
    · exact .inl (Nat.lt_succ_of_le (codePointAt_le_gap_iff.mpr hlt))
    · exact .inr (gap_le_codePointAt_iff.mpr (Nat.le_of_not_lt fun hf => hb ⟨hf, hle⟩))

theorem contains_rangesOfRun {run : Run} {c : Char} :
    (∃ r ∈ rangesOfRun run, r.contains c.toNat = true) ↔ run.contains (rank c) = true := by
  rw [rangesOfRun_eq, Run.contains_iff, ← codePointAt_rank c]
  split
  · next hb =>
    simp only [List.mem_cons, List.not_mem_nil, or_false, exists_eq_or_imp, exists_eq_left, Range.contains_iff,
      codePointAt_le_iff, codePointAt_le_gap_iff, gap_le_codePointAt_iff]
    unfold Run.IsBridge at hb
    omega
  · simp only [List.mem_singleton, exists_eq_left, Range.contains_iff, codePointAt_le_iff]

/-- The ranges of a set hold the code points of its members. -/
theorem mem_ranges {s : CharSet} {c : Char} : (∃ r ∈ s.ranges, r.contains c.toNat = true) ↔ c ∈ s := by
  rw [mem_iff, ranges]
  constructor
  · rintro ⟨r, hr, hc⟩
    obtain ⟨run, hrun, hr⟩ := List.mem_flatMap.mp hr
    exact ⟨run, hrun, contains_rangesOfRun.mp ⟨r, hr, hc⟩⟩
  · rintro ⟨run, hrun, hc⟩
    obtain ⟨r, hr, hc⟩ := contains_rangesOfRun.mpr hc
    exact ⟨r, List.mem_flatMap.mpr ⟨run, hrun, hr⟩, hc⟩

theorem length_rangesOfRun (run : Run) : (rangesOfRun run).length = if run.IsBridge then 2 else 1 := by
  rw [rangesOfRun_eq]
  split <;> rfl

theorem length_runs_le (rs : List Run) : rs.length ≤ (rs.flatMap rangesOfRun).length := by
  induction rs with
  | nil => exact Nat.le_refl _
  | cons r rs ih =>
    simp only [List.flatMap_cons, List.length_append, List.length_cons, length_rangesOfRun]
    split <;> omega

/-- A run across the gap makes one range more than there are runs. -/
theorem length_ranges_of_bridged {s : CharSet} (h : s.Bridged) : s.runs.length < s.ranges.length := by
  obtain ⟨r, hr, hb⟩ := h
  obtain ⟨before, behind, he⟩ := List.append_of_mem hr
  have h₁ := length_runs_le before
  have h₂ := length_runs_le behind
  rw [ranges, he]
  simp only [List.flatMap_append, List.flatMap_cons, List.length_append, List.length_cons,
    length_rangesOfRun, if_pos hb]
  omega

theorem length_ranges_of_not_bridged {s : CharSet} (h : ¬ s.Bridged) : s.ranges.length = s.runs.length := by
  have hall : ∀ rs : List Run, (∀ r ∈ rs, ¬ r.IsBridge) → (rs.flatMap rangesOfRun).length = rs.length := by
    intro rs hrs
    induction rs with
    | nil => rfl
    | cons r rs ih =>
      simp only [List.flatMap_cons, List.length_append, List.length_cons, length_rangesOfRun,
        if_neg (hrs r List.mem_cons_self), ih fun x hx => hrs x (List.mem_cons_of_mem _ hx)]
      omega
  exact hall s.runs fun r hr hb => h ⟨r, hr, hb⟩

/-- A complement has at most one run less than its set. -/
theorem length_runs_compl (s : CharSet) : s.runs.length ≤ s.compl.runs.length + 1 := by
  have hgaps : ∀ (a : Run) (rest : List Run), rest.length ≤ (gapsAfter a rest).length := by
    intro a rest
    induction rest generalizing a with
    | nil => exact Nat.zero_le _
    | cons b rest ih => exact Nat.succ_le_succ (ih b)
  obtain ⟨runs⟩ := s
  cases runs with
  | nil => exact Nat.zero_le _
  | cons a rest =>
    have := hgaps a rest
    simp only [compl, List.length_cons, List.length_append]
    omega

end XmlPattern.CharSet
