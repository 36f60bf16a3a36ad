import XmlPattern.CharSet.Basic
import XmlPattern.Unicode.CaseFolding.Table
import XmlPattern.Unicode.CodeTable

/-!
# Simple case folding

Characters that differ only in case form a folding group. A set is closed under folding when it holds all of a group
or nothing of it; `foldClosure` is the least such set above a given one.

- `mem_foldClosure`: what the closure holds, in terms of the groups.
-/

namespace XmlPattern.Unicode

namespace CaseFolding

/-- The pairs of one run. -/
def pairsOf (starts : List Nat) (distance : Nat) : List (List Nat) := starts.map fun n => [n, n + distance]

/-- All folding groups of more than one code point. -/
def groups : List (List Nat) :=
  runs.flatMap (fun (first, last, distance) => pairsOf (List.range' first (last + 1 - first)) distance) ++
    alternatingRuns.flatMap (fun (first, last, distance) => pairsOf (everySecond (first, last)) distance) ++
      largerGroups

end CaseFolding

/-- The folding groups of more than one character. -/
def foldGroups : List (List Char) := CaseFolding.groups.map (·.map Char.ofNat)

/-- Whether two characters are equal or differ only in case. -/
def foldEq (c d : Char) : Bool := c == d || foldGroups.any fun g => g.contains c && g.contains d

/-- The set together with everything that differs from a member only in case. -/
def foldClosure (s : CharSet) : CharSet :=
  s ∪ CharSet.ofList (foldGroups.filter fun g => g.any s.contains).flatten

theorem mem_foldClosure {s : CharSet} {c : Char} :
    c ∈ foldClosure s ↔ c ∈ s ∨ ∃ g ∈ foldGroups, c ∈ g ∧ ∃ d ∈ g, d ∈ s := by
  rw [foldClosure, CharSet.mem_union, CharSet.mem_ofList, List.mem_flatten]
  refine or_congr_right ⟨?_, ?_⟩
  · rintro ⟨g, hg, hc⟩
    obtain ⟨hg, hany⟩ := List.mem_filter.mp hg
    obtain ⟨d, hd, hs⟩ := List.any_eq_true.mp hany
    exact ⟨g, hg, hc, d, hd, hs⟩
  · rintro ⟨g, hg, hc, d, hd, hs⟩
    exact ⟨g, List.mem_filter.mpr ⟨hg, List.any_eq_true.mpr ⟨d, hd, hs⟩⟩, hc⟩

end XmlPattern.Unicode
