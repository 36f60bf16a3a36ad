import Mathlib.Data.List.Nodup
import Mathlib.Data.List.Pairwise
import XmlPattern.Proofs.Text.Unit
import XmlPattern.Unicode.CaseFolding

/-!
# Folding groups

No character is in two folding groups, so that to be equal or to differ only in case is an equivalence. The table is
checked once, as numbers: each is new to a mask of those in front of it, and none is that of a control character or near
the surrogates.

- `eq_of_mem_foldGroups`: groups that share a character are one.
- `code_of_mem_foldGroups`: where the characters of a group are.
-/

namespace XmlPattern.Unicode

/-! ## Numbers without repetition -/

/-- Numbers stand at most once, and none has its bit in the mask. -/
def freshIn : (mask : Nat) → List Nat → Bool
  | _, [] => true
  | mask, n :: ns => !mask.testBit n && freshIn (mask ||| 1 <<< n) ns

theorem nodup_of_freshIn {mask : Nat} {ns : List Nat} (h : freshIn mask ns = true) :
    ns.Nodup ∧ ∀ n ∈ ns, mask.testBit n = false := by
  induction ns generalizing mask with
  | nil => exact ⟨List.nodup_nil, nofun⟩
  | cons n ns ih =>
    rw [freshIn, Bool.and_eq_true, Bool.not_eq_true'] at h
    obtain ⟨hnodup, hrest⟩ := ih h.2
    have hbits : ∀ m ∈ ns, mask.testBit m = false ∧ m ≠ n := by
      intro m hm
      have hor := hrest m hm
      rw [Nat.testBit_or, Bool.or_eq_false_iff] at hor
      refine ⟨hor.1, ?_⟩
      intro he
      rw [he] at hor
      simp at hor
    refine ⟨List.nodup_cons.mpr ⟨fun hn => (hbits n hn).2 rfl, hnodup⟩, ?_⟩
    intro m hm
    rcases List.mem_cons.mp hm with rfl | hm
    · exact h.1
    · exact (hbits m hm).1

/-! ## The table -/

theorem freshIn_groups : freshIn 0 CaseFolding.groups.flatten = true := by
  decide +kernel

theorem bounds_of_groups :
    (CaseFolding.groups.all fun g => g.all fun n => 0x20 < n && (n < 0xD7FE || 0xE001 < n && n < 0x110000)) = true := by
  decide +kernel

theorem toNat_of_mem_groups {ns : List Nat} (hns : ns ∈ CaseFolding.groups) {n : Nat} (hn : n ∈ ns) :
    (Char.ofNat n).toNat = n ∧ 0x20 < n ∧ (n < 0xD7FE ∨ 0xE001 < n) := by
  have hbounds := List.all_eq_true.mp (List.all_eq_true.mp bounds_of_groups ns hns) n hn
  simp only [Bool.and_eq_true, Bool.or_eq_true, decide_eq_true_eq] at hbounds
  refine ⟨toNat_ofNat ?_, by omega⟩
  unfold Nat.isValidChar
  omega

/-- The characters of folding groups are behind the control characters, and away from the surrogates. -/
theorem code_of_mem_foldGroups {g : List Char} (hg : g ∈ foldGroups) {c : Char} (hc : c ∈ g) :
    0x20 < c.toNat ∧ (c.toNat < 0xD7FE ∨ 0xE001 < c.toNat) := by
  obtain ⟨ns, hns, rfl⟩ := List.mem_map.mp hg
  obtain ⟨n, hn, rfl⟩ := List.mem_map.mp hc
  obtain ⟨hvalue, hbounds⟩ := toNat_of_mem_groups hns hn
  rw [hvalue]
  exact hbounds

theorem nodup_foldGroups : foldGroups.flatten.Nodup := by
  rw [foldGroups, ← List.map_flatten]
  apply (nodup_of_freshIn freshIn_groups).1.map_on
  intro m hm n hn he
  obtain ⟨ms, hms, hm⟩ := List.mem_flatten.mp hm
  obtain ⟨ns, hns, hn⟩ := List.mem_flatten.mp hn
  rw [← (toNat_of_mem_groups hms hm).1, ← (toNat_of_mem_groups hns hn).1, he]

/-- Groups that share a character are one. -/
theorem eq_of_mem_foldGroups {g h : List Char} (hg : g ∈ foldGroups) (hh : h ∈ foldGroups) {c : Char} (hcg : c ∈ g)
    (hch : c ∈ h) : g = h := by
  have hdisjoint := (List.nodup_flatten.mp nodup_foldGroups).2
  have : Std.Symm (@List.Disjoint Char) := ⟨fun _ _ h _ hc hc' => h hc' hc⟩
  by_contra hne
  exact hdisjoint.forall hg hh hne hcg hch

end XmlPattern.Unicode
