import XmlPattern.Proofs.CharSet.Complement
import XmlPattern.Proofs.Scan.Course
import XmlPattern.Proofs.Unicode.FoldGroups

/-!
# Seams of the named sets

The sets that escapes name have no seams, since no assigned character is right before the surrogate gap, and neither is
any in a folding group. So complements of these sets are right, and closing a set under case adds no seam to it.

- `separated_foldClosure`, `separated_resolve`: case and complement keep a set without seams.
- `separated_ofLetter`, `Grammar.separated_namedChars`: what a letter or a name stands for has no seams.
-/

namespace XmlPattern

open CharSet Unicode

/-! ## Tables -/

theorem not_mem_table : ∀ k ∈ Category.assigned, beforeGap ∉ k.table.toCharSet := by
  simp only [CodeTable.mem_toCharSet]
  decide +kernel

theorem not_mem_blocks : ∀ b ∈ Block.all, ¬ (b.first ≤ beforeGap.toNat ∧ beforeGap.toNat ≤ b.last) := by
  decide +kernel

theorem not_mem_foldGroups : ∀ g ∈ foldGroups, ∀ c ∈ g, ¬ AtGap c := by
  intro g hg c hc hgap
  have hcode := (code_of_mem_foldGroups hg hc).2
  rcases hgap with rfl | rfl
  · exact absurd hcode (by decide)
  · exact absurd hcode (by decide)

theorem canonical_toCharSet (t : CodeTable) : t.toCharSet.Canonical :=
  canonical_union (canonical_ofSpans _).ordered (canonical_ofSpans _).ordered

theorem separated_full_diff (s : CharSet) : (CharSet.full \ s).Separated :=
  parted_false_iff.mp (parted_diff (parted_false_iff.mpr separated_full))

theorem chars_of_assigned {k : Category} (hk : k ≠ .unassigned) :
    k ∈ Category.assigned ∧ k.chars = k.table.toCharSet := by
  cases k <;> first | exact absurd rfl hk | exact ⟨by decide, rfl⟩

theorem separated_category (k : Category) : k.chars.Separated := by
  by_cases hk : k = .unassigned
  · rw [hk]
    exact separated_full_diff _
  · obtain ⟨hmem, hchars⟩ := chars_of_assigned hk
    rw [hchars]
    exact (canonical_toCharSet _).separated_of_not_mem (.inl rfl) (not_mem_table k hmem)

theorem separated_charsOfAll (ks : List Category) : (Category.charsOfAll ks).Separated := by
  unfold Category.charsOfAll
  split
  · exact separated_full_diff _
  · next hks =>
    refine Parted.separated_of_not_mem (c := beforeGap) (canonical_unions fun s hs => ?_) (.inl rfl) ?_
    · obtain ⟨k, _, rfl⟩ := List.mem_map.mp hs
      exact (separated_category k).parted _
    · rw [mem_unions_map]
      rintro ⟨k, hk, hc⟩
      obtain ⟨hmem, hchars⟩ := chars_of_assigned fun h => hks (h ▸ hk)
      exact not_mem_table k hmem (hchars ▸ hc)

theorem separated_charsOfCode {code : List Char} {s : CharSet} (h : Category.charsOfCode? code = some s) :
    s.Separated := by
  unfold Category.charsOfCode? at h
  split at h
  · cases h
  · cases h
    exact separated_charsOfAll _

theorem separated_charsNamed {loose : Bool} {name : List Char} {s : CharSet}
    (h : Block.charsNamed? loose name = some s) : s.Separated := by
  have hmem := Block.mem_charsNamed h (c := beforeGap)
  unfold Block.charsNamed? at h
  split at h
  · cases h
  · cases h
    refine Parted.separated_of_not_mem (c := beforeGap) (canonical_unions fun s hs => ?_) (.inl rfl) ?_
    · obtain ⟨b, _, rfl⟩ := List.mem_map.mp hs
      exact (separated_span _ _).parted _
    · rw [hmem]
      rintro ⟨b, hb, hc⟩
      exact not_mem_blocks b (List.mem_filter.mp hb).1 hc

theorem separated_ofLetter {c : Char} {s : CharSet} (h : Escape.ofLetter? c = some s) : s.Separated := by
  have hspans : ∀ spans : List (Nat × Nat), (∀ p ∈ spans, ¬ (p.1 ≤ behindGap.toNat ∧ behindGap.toNat ≤ p.2)) →
      behindGap ∉ CharSet.ofSpans spans := by
    intro spans hall hc
    obtain ⟨p, hp, hc⟩ := mem_ofSpans.mp hc
    exact hall p hp hc
  unfold Escape.ofLetter? at h
  split at h <;> cases h
  · exact (canonical_ofSpans _).separated_of_not_mem (.inr rfl) (hspans _ (by decide))
  · exact (canonical_ofSpans _).separated_of_not_mem (.inr rfl) (hspans _ (by decide))
  · refine Parted.separated_of_not_mem (c := behindGap)
      (canonical_union (canonical_ofSpans _).ordered (canonical_ofSpans _).ordered) (.inr rfl) ?_
    rw [Escape.nameChars, mem_union, not_or]
    exact ⟨hspans _ (by decide), hspans _ (by decide)⟩
  · exact separated_category _
  · exact separated_full_diff _

/-! ## Case and complement -/

theorem canonical_foldClosure {s : CharSet} (h : s.Ordered) : (foldClosure s).Canonical :=
  canonical_union h (canonical_ofList _).ordered

theorem bridged_foldClosure {s : CharSet} : (foldClosure s).Bridged ↔ s.Bridged := by
  rw [foldClosure, bridged_union]
  exact or_iff_left (not_bridged_ofList _)

theorem mem_foldClosure_of_atGap {s : CharSet} {c : Char} (hc : AtGap c) : c ∈ foldClosure s ↔ c ∈ s := by
  rw [mem_foldClosure]
  refine or_iff_left ?_
  rintro ⟨g, hg, hcg, _⟩
  exact not_mem_foldGroups g hg c hcg hc

theorem seamAt_foldClosure {s : CharSet} (h : s.Ordered) : (foldClosure s).SeamAt gapRank ↔ s.SeamAt gapRank := by
  rw [seamAt_gap_iff h, seamAt_gap_iff (canonical_foldClosure h).ordered, mem_foldClosure_of_atGap (.inl rfl),
    mem_foldClosure_of_atGap (.inr rfl), bridged_foldClosure]

theorem separated_foldClosure {s : CharSet} (h : s.Separated) : (foldClosure s).Separated := by
  refine (canonical_foldClosure (h.parted _)).separated ?_
  rw [seamAt_foldClosure (h.parted _)]
  exact (parted_false_iff.mpr h).of_seamAt

/-- A set, closed under case folding if case does not count. -/
def folded (caseBlind : Bool) (s : CharSet) : CharSet := if caseBlind then foldClosure s else s

theorem separated_resolve {caseBlind : Bool} (negated : Bool) {s : CharSet} (h : s.Separated) :
    (resolve caseBlind negated s).Separated := by
  have hf : (folded caseBlind s).Separated := by
    cases caseBlind with
    | false => exact h
    | true => exact separated_foldClosure h
  cases negated with
  | false => exact hf
  | true => exact hf.compl

/-! ## Escapes -/

theorem Grammar.separated_namedChars (v : Variant) (name : List Char) : (namedChars v name).Separated := by
  unfold namedChars
  split
  · next block =>
    cases h : Block.charsNamed? v.isLenient block with
    | none => exact separated_full
    | some s => exact separated_charsNamed h
  · cases h : Category.charsOfCode? name with
    | none => exact .nil
    | some s => exact separated_charsOfCode h

end XmlPattern
