import Mathlib.Computability.Language
import XmlPattern.Proofs.Native.Atoms

/-!
# The language of a native pattern

The texts that a native pattern matches from end to end, given what its atoms match. Alternatives, sequences and
repetitions are those of languages; groups and laziness make no difference. A pattern that looks at what is around a
text, or at what a group has matched before, has no language in this sense.

- `Tree.language`: the language of a pattern.
- `mem_language_sequence`, `mem_language_sequence_single`: sequences of atoms, and of patterns that match one text each.
- `mem_language_alternation`: alternatives of several patterns.
-/

namespace XmlPattern.Native

open Computability

/-- The texts that are texts of a language one after another, as many as the bounds allow. -/
def rounds {σ : Type} (l : Language σ) (min : Nat) (max : Option Nat) : Language σ :=
  {w | ∃ n, min ≤ n ∧ (∀ m ∈ max, n ≤ m) ∧ w ∈ l ^ n}

theorem mem_rounds {σ : Type} {l : Language σ} {min : Nat} {max : Option Nat} {w : List σ} :
    w ∈ rounds l min max ↔ ∃ n, min ≤ n ∧ (∀ m ∈ max, n ≤ m) ∧ w ∈ l ^ n := Iff.rfl

theorem rounds_zero {σ : Type} (l : Language σ) : rounds l 0 (some 0) = 1 := by
  ext w
  simp [mem_rounds]

/-- At most one more round is one round and at most as many as before, or none. -/
theorem rounds_succ {σ : Type} (l : Language σ) (n : Nat) :
    rounds l 0 (some (n + 1)) = l * rounds l 0 (some n) + 1 := by
  ext w
  constructor
  · rintro ⟨k, _, hk, hw⟩
    cases k with
    | zero => exact .inr hw
    | succ k =>
      rw [pow_succ'] at hw
      obtain ⟨u, hu, v, hv, rfl⟩ := Language.mem_mul.mp hw
      have hle := hk _ rfl
      exact .inl (Language.append_mem_mul hu ⟨k, Nat.zero_le _, by rintro _ ⟨⟩; omega, hv⟩)
  · rintro (hw | hw)
    · obtain ⟨u, hu, v, ⟨k, _, hk, hv⟩, rfl⟩ := Language.mem_mul.mp hw
      have hle := hk _ rfl
      refine ⟨k + 1, Nat.zero_le _, by rintro _ ⟨⟩; omega, ?_⟩
      rw [pow_succ']
      exact Language.append_mem_mul hu hv
    · exact ⟨0, Nat.zero_le _, by rintro _ ⟨⟩; omega, hw⟩

/-- The rounds that there must be come first. -/
theorem rounds_add {σ : Type} (l : Language σ) (m n : Nat) (max : Option Nat) :
    rounds l (m + n) (max.map (m + ·)) = l ^ m * rounds l n max := by
  ext w
  constructor
  · rintro ⟨k, hk, hmax, hw⟩
    obtain ⟨k, rfl⟩ := Nat.exists_eq_add_of_le (show m ≤ k by omega)
    rw [pow_add] at hw
    obtain ⟨u, hu, v, hv, rfl⟩ := Language.mem_mul.mp hw
    refine Language.append_mem_mul hu ⟨k, by omega, fun x hx => ?_, hv⟩
    have := hmax (m + x) (by rw [Option.mem_def.mp hx]; rfl)
    omega
  · intro hw
    obtain ⟨u, hu, v, ⟨k, hk, hmax, hv⟩, rfl⟩ := Language.mem_mul.mp hw
    refine ⟨m + k, by omega, fun x hx => ?_, ?_⟩
    · obtain ⟨y, hy, rfl⟩ := Option.mem_map.mp hx
      have := hmax y hy
      omega
    · rw [pow_add]
      exact Language.append_mem_mul hu hv

theorem rounds_none {σ : Type} (l : Language σ) : rounds l 0 none = l∗ := by
  ext w
  rw [Language.kstar_eq_iSup_pow, Language.mem_iSup]
  exact ⟨fun ⟨n, _, _, hw⟩ => ⟨n, hw⟩, fun ⟨n, hw⟩ => ⟨n, Nat.zero_le _, nofun, hw⟩⟩

namespace Tree

variable {α σ : Type}

/-- The texts of one letter that is of a kind. -/
def letters (p : σ → Prop) : Language σ := {w | ∃ x, p x ∧ w = [x]}

/-- The texts that a pattern matches from end to end. -/
def language (members : α → σ → Prop) : Tree α → Language σ
  | .empty => 1
  | .chars s => letters (members s)
  | .seq a b => a.language members * b.language members
  | .alt a b => a.language members + b.language members
  | .repeated min max _ a => rounds (a.language members) min max
  | .group (.capturing _) a | .group .plain a | .group .caseless a => a.language members
  | .group (.lookAhead _) _ | .group (.lookBehind _) _ | .boundary _ | .reference .. => 0

variable {members : α → σ → Prop} {w : List σ}

/-- A sequence of atoms matches texts letter by letter. -/
theorem mem_language_sequence {sets : List α} :
    w ∈ (sequence (sets.map .chars)).language members ↔ List.Forall₂ members sets w := by
  induction sets generalizing w with
  | nil => exact Language.mem_one w |>.trans List.forall₂_nil_left_iff.symm
  | cons s sets ih =>
    show w ∈ letters (members s) * (sequence (sets.map .chars)).language members ↔ _
    rw [Language.mem_mul, List.forall₂_cons_left_iff]
    constructor
    · rintro ⟨_, ⟨x, hx, rfl⟩, v, hv, rfl⟩
      exact ⟨x, v, hx, ih.mp hv, rfl⟩
    · rintro ⟨x, v, hx, hv, rfl⟩
      exact ⟨[x], ⟨x, hx, rfl⟩, v, ih.mpr hv, rfl⟩

/-- A sequence of patterns that match one text each matches those texts one after another. -/
theorem mem_language_sequence_single {ι : Type} {a : ι → Tree α} {f : ι → List σ}
    (h : ∀ i w, w ∈ (a i).language members ↔ w = f i) {is : List ι} :
    w ∈ (sequence (is.map a)).language members ↔ w = is.flatMap f := by
  induction is generalizing w with
  | nil => exact Language.mem_one w
  | cons i is ih =>
    show w ∈ (a i).language members * (sequence (is.map a)).language members ↔ _
    rw [Language.mem_mul, List.flatMap_cons]
    constructor
    · rintro ⟨u, hu, v, hv, rfl⟩
      rw [(h i u).mp hu, ih.mp hv]
    · rintro rfl
      exact ⟨f i, (h i _).mpr rfl, is.flatMap f, ih.mpr rfl, rfl⟩

/-- Alternatives match what any of them matches. -/
theorem mem_language_alternation {as : List (Tree α)} (h : as ≠ []) :
    w ∈ (alternation as).language members ↔ ∃ a ∈ as, w ∈ a.language members := by
  induction as with
  | nil => exact absurd rfl h
  | cons a rest ih =>
    cases rest with
    | nil => simp [alternation]
    | cons b rest =>
      rw [alternation_cons, language, Language.mem_add, ih (List.cons_ne_nil _ _)]
      simp

end Tree

end XmlPattern.Native
