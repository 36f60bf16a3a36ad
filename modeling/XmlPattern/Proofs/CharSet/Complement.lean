import XmlPattern.Proofs.CharSet.Seam

/-!
# Complements at seams

A complement takes each seam of a set for a gap between two runs, and puts the two characters at the seam into the set.
So it is right for sets without seams, and wrong at the seams of others.

- `mem_compl_iff`: the complement of a set whose runs are in order.
- `mem_compl_of_canonical`: the complement of a set whose only seam is the surrogate gap.
- `parted_compl`: a complement has seams on both sides of a seam of its set.
-/

namespace XmlPattern

namespace CharSet

/-! ## Members -/

/-- A seam of a list of runs, as in `SeamAt`. -/
theorem seam_cons {a b : Run} {rest : List Run} (h : (a :: b :: rest).Pairwise (Run.Apart fun _ => True)) {n : Nat} :
    SeamAt ⟨a :: b :: rest⟩ n ↔ a.last + 1 = n ∧ b.first = n ∨ SeamAt ⟨b :: rest⟩ n := by
  obtain ⟨ha, hb⟩ := List.pairwise_cons.mp h
  have hab := (ha b List.mem_cons_self).1
  have hao := a.ordered
  have hbo := b.ordered
  constructor
  · rintro ⟨x, hx, y, hy, h₁, h₂⟩
    have hxo := x.ordered
    have hyo := y.ordered
    rcases List.mem_cons.mp hy with rfl | hy'
    · rcases List.mem_cons.mp hx with rfl | hx'
      · omega
      · have := (ha x hx').1
        omega
    · rcases List.mem_cons.mp hx with rfl | hx'
      · rcases List.mem_cons.mp hy' with rfl | hy''
        · exact .inl ⟨h₁, h₂⟩
        · have := ((List.pairwise_cons.mp hb).1 y hy'').1
          omega
      · exact .inr ⟨x, hx', y, hy', h₁, h₂⟩
  · rintro (⟨h₁, h₂⟩ | ⟨x, hx, y, hy, h₁, h₂⟩)
    · exact ⟨a, List.mem_cons_self, b, List.mem_cons_of_mem _ List.mem_cons_self, h₁, h₂⟩
    · exact ⟨x, List.mem_cons_of_mem _ hx, y, List.mem_cons_of_mem _ hy, h₁, h₂⟩

theorem not_seam_single {a : Run} {n : Nat} : ¬ SeamAt ⟨[a]⟩ n := by
  rintro ⟨x, hx, y, hy, h₁, h₂⟩
  have hx := List.mem_singleton.mp hx
  have hy := List.mem_singleton.mp hy
  have := a.ordered
  subst hx hy
  omega

theorem contains_ofEnds_gap {a b : Run} (h : a.last < b.first) {n : Nat} :
    (Run.ofEnds (a.last + 1) (b.first - 1)).contains n = true ↔
      (a.last < n ∧ n < b.first) ∨ (a.last + 1 = b.first ∧ (n + 1 = b.first ∨ n = b.first)) := by
  have := b.bounded
  have := b.ordered
  rw [Run.contains_iff, Run.ofEnds]
  dsimp only
  omega

/-- The gaps behind a run hold what the runs behind it do not, and the ranks at the seams. -/
theorem contains_gapsAfter_iff {n : Nat} (hn : n < charCount) {a : Run} {rest : List Run}
    (h : (a :: rest).Pairwise (Run.Apart fun _ => True)) :
    (∃ r ∈ gapsAfter a rest, r.contains n = true) ↔
      (a.last < n ∧ ¬ ∃ r ∈ rest, r.contains n = true) ∨ ∃ m, SeamAt ⟨a :: rest⟩ m ∧ (n + 1 = m ∨ n = m) := by
  induction rest generalizing a with
  | nil =>
    simp only [not_seam_single, false_and, exists_false, or_false]
    exact contains_gapsAfter hn (List.pairwise_singleton _ _)
  | cons b rest ih =>
    obtain ⟨ha, hb⟩ := List.pairwise_cons.mp h
    have hab := (ha b List.mem_cons_self).1
    have hbo := b.ordered
    simp only [gapsAfter, List.mem_cons, exists_eq_or_imp, ih hb, contains_ofEnds_gap hab, seam_cons h, not_or,
      Run.contains_iff (r := b)]
    constructor
    · rintro ((⟨h₁, h₂⟩ | ⟨h₁, h₂⟩) | (⟨h₁, h₂⟩ | ⟨m, hm, h₁⟩))
      · refine .inl ⟨h₁, by omega, ?_⟩
        rintro ⟨r, hr, hrn⟩
        have := ((List.pairwise_cons.mp hb).1 r hr).1
        rw [Run.contains_iff] at hrn
        omega
      · exact .inr ⟨b.first, .inl ⟨h₁, rfl⟩, h₂⟩
      · exact .inl ⟨by omega, by omega, h₂⟩
      · exact .inr ⟨m, .inr hm, h₁⟩
    · rintro (⟨h₁, h₂, h₃⟩ | ⟨m, ⟨h₁, rfl⟩ | hm, h₂⟩)
      · by_cases hlt : n < b.first
        · exact .inl (.inl ⟨h₁, hlt⟩)
        · exact .inr (.inl ⟨by omega, h₃⟩)
      · exact .inl (.inr ⟨h₁, h₂⟩)
      · exact .inr (.inr ⟨m, hm, h₂⟩)

/-- A complement holds what the set does not, and the characters at the seams of the set. -/
theorem mem_compl_iff {s : CharSet} (h : s.Ordered) {c : Char} :
    c ∈ s.compl ↔ c ∉ s ∨ ∃ n, s.SeamAt n ∧ (rank c + 1 = n ∨ rank c = n) := by
  obtain ⟨runs⟩ := s
  cases runs with
  | nil => exact iff_of_true (mem_full c) (.inl (not_mem_empty c))
  | cons a rest =>
    have hao := a.ordered
    have hrest : rank c < a.first → ¬ ∃ r ∈ rest, r.contains (rank c) = true := by
      rintro hc ⟨r, hr, hrc⟩
      have := ((List.pairwise_cons.mp h).1 r hr).1
      rw [Run.contains_iff] at hrc
      omega
    rw [mem_iff, mem_iff, compl]
    simp only [List.mem_append, or_and_right, exists_or, contains_gapBefore, contains_gapsAfter_iff (rank_lt c) h,
      List.mem_cons, exists_eq_left, not_or, Run.contains_iff (r := a)]
    rw [← or_assoc]
    refine or_congr_left ⟨?_, fun ⟨hc, hr⟩ => ?_⟩
    · rintro (hc | hc)
      · exact ⟨by omega, hrest hc⟩
      · exact ⟨by omega, hc.2⟩
    · by_cases hlt : rank c < a.first
      · exact .inl hlt
      · exact .inr ⟨by omega, hr⟩

/-- The complement of a canonical set, in terms of members and of runs across the gap. -/
theorem mem_compl_of_canonical {s : CharSet} (h : s.Canonical) {c : Char} :
    c ∈ s.compl ↔ c ∉ s ∨ s.SeamAt gapRank ∧ AtGap c := by
  rw [mem_compl_iff h.ordered, atGap_iff]
  refine or_congr_right ⟨?_, fun hc => ⟨gapRank, hc⟩⟩
  rintro ⟨n, hn, hc⟩
  obtain rfl := h.of_seamAt hn
  exact ⟨hn, hc⟩

/-! ## Seams -/

theorem ends_gap {a b : Run} (h : a.last < b.first) :
    (Run.ofEnds (a.last + 1) (b.first - 1)).first = min (a.last + 1) (b.first - 1) ∧
      (Run.ofEnds (a.last + 1) (b.first - 1)).last = max (a.last + 1) (b.first - 1) := by
  have hbo := b.ordered
  have hbb := b.bounded
  unfold Run.ofEnds
  dsimp only
  omega

/-- The gaps behind a run begin behind its last rank, or with it, where a seam is next to it. -/
theorem first_of_mem_gapsAfter {P : Nat → Prop} {a : Run} {rest : List Run} (h : (a :: rest).Pairwise (Run.Apart P)) :
    ∀ r ∈ gapsAfter a rest, a.last < r.first ∨ r.first = a.last ∧ P (r.first + 1) := by
  induction rest generalizing a with
  | nil =>
    intro r hr
    unfold gapsAfter at hr
    split at hr
    · obtain rfl := List.mem_singleton.mp hr
      unfold Run.ofEnds
      dsimp only
      omega
    · cases hr
  | cons b rest ih =>
    obtain ⟨ha, hb⟩ := List.pairwise_cons.mp h
    obtain ⟨hlt, hseam⟩ := ha b List.mem_cons_self
    have hbo := b.ordered
    have hfirst := (ends_gap hlt).1
    unfold gapsAfter
    rintro r (_ | ⟨_, hr⟩)
    · rw [hfirst]
      by_cases hab : b.first = a.last + 1
      · refine .inr ⟨by omega, ?_⟩
        rw [show min (a.last + 1) (b.first - 1) + 1 = b.first by omega]
        exact hseam hab
      · exact .inl (by omega)
    · rcases ih hb r hr with hr | ⟨hr, hp⟩
      · exact .inl (by omega)
      · exact .inl (by omega)

theorem apart_gaps {P : Nat → Prop} (hP : ∀ n, P n → n = gapRank) {a : Run} {rest : List Run}
    (h : (a :: rest).Pairwise (Run.Apart P)) :
    (gapsAfter a rest).Pairwise (Run.Apart fun n => P (n + 1) ∨ P (n - 1)) := by
  induction rest generalizing a with
  | nil =>
    unfold gapsAfter
    split
    · exact List.pairwise_singleton _ _
    · exact .nil
  | cons b rest ih =>
    obtain ⟨ha, hb⟩ := List.pairwise_cons.mp h
    obtain ⟨hlt, hseam⟩ := ha b List.mem_cons_self
    have hle := first_of_mem_gapsAfter hb
    have hbo := b.ordered
    have hlast := (ends_gap hlt).2
    unfold gapsAfter
    refine List.pairwise_cons.mpr ⟨fun r hr => ?_, ih hb⟩
    -- Behind a seam the gap ends with the run's first rank, and before one the next gap starts with its last.
    by_cases hab : b.first = a.last + 1
    · have hgap := hP _ (hseam hab)
      refine ⟨?_, fun he => .inr ?_⟩
      · rcases hle r hr with hr | ⟨hr, hp⟩
        · omega
        · have := hP _ hp
          omega
      · rw [show r.first - 1 = b.first by omega]
        exact hseam hab
    · rcases hle r hr with hr | ⟨hr, hp⟩
      · exact ⟨by omega, fun he => by omega⟩
      · exact ⟨by omega, fun _ => .inl hp⟩

/-- A complement has seams on both sides of where its set has one. -/
theorem parted_compl {P : Nat → Prop} (hP : ∀ n, P n → n = gapRank) {s : CharSet} (h : s.Parted P) :
    s.compl.Parted fun n => P (n + 1) ∨ P (n - 1) := by
  obtain ⟨runs⟩ := s
  cases runs with
  | nil => exact List.pairwise_singleton _ _
  | cons a rest =>
    have hrest := apart_gaps hP h
    have hle := first_of_mem_gapsAfter h
    have hao := a.ordered
    have hab := a.bounded
    refine List.pairwise_append.mpr ⟨?_, hrest, fun x hx y hy => ?_⟩
    · split
      · exact List.pairwise_singleton _ _
      · exact .nil
    · split at hx
      · obtain rfl := List.mem_singleton.mp hx
        have hx : (Run.ofEnds 0 (a.first - 1)).last = a.first - 1 := by
          unfold Run.ofEnds
          dsimp only
          omega
        unfold Run.Apart
        rw [hx]
        rcases hle y hy with hy | ⟨hy, hp⟩
        · exact ⟨by omega, fun he => by omega⟩
        · exact ⟨by omega, fun _ => .inl hp⟩
      · cases hx

theorem Separated.compl {s : CharSet} (h : s.Separated) : s.compl.Separated :=
  parted_false_iff.mp
    ((parted_compl (P := fun _ => False) nofun (parted_false_iff.mpr h)).mono fun _ hn => hn.elim id id)

end CharSet

end XmlPattern
