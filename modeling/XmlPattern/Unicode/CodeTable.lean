import XmlPattern.CharSet.Basic

/-!
# Tables of code points

The form in which the data of a character property is written down: spans of consecutive code points and, since
upper and lower case often take turns, spans of which only every second code point counts.

- `mem_toCharSet`: the characters of a table.
-/

namespace XmlPattern.Unicode

/-- Code points listed by spans `(first, last)`. -/
structure CodeTable where
  /-- Spans of which every code point counts. -/
  spans : List (Nat × Nat)
  /-- Spans of which every second code point counts, beginning with the first. -/
  alternating : List (Nat × Nat) := []

/-- Every second number of a span, beginning with the first. -/
def everySecond (p : Nat × Nat) : List Nat :=
  (List.range ((p.2 - p.1) / 2 + 1)).map (p.1 + 2 * ·)

namespace CodeTable

/-- The characters of the table. -/
def toCharSet (t : CodeTable) : CharSet :=
  CharSet.ofSpans t.spans ∪ CharSet.ofSpans ((t.alternating.flatMap everySecond).map fun n => (n, n))

theorem mem_toCharSet {t : CodeTable} {c : Char} :
    c ∈ t.toCharSet ↔
      (∃ p ∈ t.spans, p.1 ≤ c.toNat ∧ c.toNat ≤ p.2) ∨
        ∃ p ∈ t.alternating, c.toNat ∈ everySecond p := by
  rw [toCharSet, CharSet.mem_union, CharSet.mem_ofSpans, CharSet.mem_ofSpans]
  refine or_congr_right ⟨?_, ?_⟩
  · rintro ⟨p, hp, h₁, h₂⟩
    obtain ⟨n, hn, rfl⟩ := List.mem_map.mp hp
    obtain ⟨q, hq, hqn⟩ := List.mem_flatMap.mp hn
    exact ⟨q, hq, Nat.le_antisymm h₁ h₂ ▸ hqn⟩
  · rintro ⟨p, hp, h⟩
    exact ⟨_, List.mem_map_of_mem (List.mem_flatMap.mpr ⟨p, hp, h⟩), Nat.le_refl _, Nat.le_refl _⟩

end CodeTable

end XmlPattern.Unicode
