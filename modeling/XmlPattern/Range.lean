/-!
# Closed intervals of code points

A `Range` runs from its start to its end, both included. Ranges are ordered by start, and of two with one start
the wider comes first.

- `Range.compare_eq_eq_iff`: only equal ranges compare as equal.
-/

namespace XmlPattern

/-- The code points from `min` to `max`, both included. -/
structure Range where
  min : Nat
  max : Nat
  deriving DecidableEq, Repr, Inhabited

namespace Range

/-- The range of one code point. -/
def single (value : Nat) : Range := ⟨value, value⟩

/-- Whether a code point lies in the range. -/
def contains (r : Range) (value : Nat) : Bool := r.min ≤ value && value ≤ r.max

/-- Starts ascending, then ends descending. -/
protected def compare (a b : Range) : Ordering := (compare a.min b.min).then (compare b.max a.max)

instance : Ord Range := ⟨Range.compare⟩

/-- The ranges in ascending order. -/
def sort (ranges : List Range) : List Range := ranges.mergeSort fun a b => (Range.compare a b).isLE

theorem contains_iff {r : Range} {value : Nat} : r.contains value = true ↔ r.min ≤ value ∧ value ≤ r.max := by
  simp [contains]

theorem compare_eq_eq_iff {a b : Range} : Range.compare a b = .eq ↔ a = b := by
  cases a
  cases b
  simp only [Range.compare, Ordering.then_eq_eq, Nat.compare_eq_eq, mk.injEq]
  exact ⟨fun h => ⟨h.1, h.2.symm⟩, fun h => ⟨h.1, h.2.symm⟩⟩

end Range

end XmlPattern
