import XmlPattern.Text.Rank

/-!
# Runs of characters

A `Run` is a non-empty interval of characters, given by the ranks of its ends. Two runs meet when they overlap or
when the code point behind one is the first of the other; on either side of the surrogate gap no code point is behind
another, so that runs there never meet without overlapping.

- `contains_join`: joining two runs that meet adds nothing between them.
- `contains_without`: taking a run away leaves the ranks that it does not hold.
-/

namespace XmlPattern

/-- The characters from one rank to another, both included. -/
structure Run where
  first : Nat
  last : Nat
  ordered : first ≤ last
  bounded : last < charCount
  deriving DecidableEq

namespace Run

/-- Whether a rank lies in the run. -/
def contains (r : Run) (n : Nat) : Bool := r.first ≤ n && n ≤ r.last

/-- The run between two ranks, given in either order. -/
def ofEnds (m n : Nat) : Run where
  first := min (min m n) (charCount - 1)
  last := min (max m n) (charCount - 1)
  ordered := by omega
  bounded := by unfold charCount; omega

/-- The code point behind the first run, or one before it, starts the second. -/
def reaches (a b : Run) : Bool := b.first ≤ a.last || b.first = a.last + 1 && b.first != 0xD800

/-- Whether two runs overlap or are consecutive. -/
def meets (a b : Run) : Bool := a.reaches b && b.reaches a

/-- The run from the first end of two runs to the last. -/
def join (a b : Run) : Run where
  first := min a.first b.first
  last := max a.last b.last
  ordered := by have := a.ordered; omega
  bounded := by have := a.bounded; have := b.bounded; omega

/-- The part of a run before another. -/
def before (a b : Run) : List Run :=
  if h : a.first < b.first then
    [⟨a.first, min a.last (b.first - 1), by have := a.ordered; omega, by have := a.bounded; omega⟩]
  else []

/-- The part of a run behind another. -/
def behind (a b : Run) : List Run :=
  if h : b.last < a.last then [⟨max a.first (b.last + 1), a.last, by have := a.ordered; omega, a.bounded⟩] else []

/-- What a run keeps when another is taken away. -/
def without (a b : Run) : List Run := a.before b ++ a.behind b

theorem contains_iff {r : Run} {n : Nat} : r.contains n = true ↔ r.first ≤ n ∧ n ≤ r.last := by
  simp [contains]

theorem contains_ofEnds {m n k : Nat} (hn : n < charCount) (h : m ≤ n) :
    (ofEnds m n).contains k = true ↔ m ≤ k ∧ k ≤ n := by
  rw [contains_iff, ofEnds]
  dsimp only
  omega

theorem le_of_reaches {a b : Run} (h : a.reaches b = true) : b.first ≤ a.last + 1 := by
  simp only [reaches, Bool.or_eq_true, Bool.and_eq_true, decide_eq_true_eq] at h
  omega

theorem contains_join {a b : Run} (h : a.meets b = true) {n : Nat} :
    (a.join b).contains n = true ↔ a.contains n = true ∨ b.contains n = true := by
  simp only [meets, Bool.and_eq_true] at h
  have h₁ := le_of_reaches h.1
  have h₂ := le_of_reaches h.2
  have := a.ordered
  have := b.ordered
  simp only [contains_iff, join]
  omega

theorem contains_before {a b : Run} {n : Nat} :
    (∃ r ∈ a.before b, r.contains n = true) ↔ a.contains n = true ∧ n < b.first := by
  have := a.ordered
  simp only [before, contains_iff]
  split
  · simp only [List.mem_singleton, exists_eq_left]
    omega
  · simp only [List.not_mem_nil, false_and, exists_false, false_iff]
    omega

theorem contains_behind {a b : Run} {n : Nat} :
    (∃ r ∈ a.behind b, r.contains n = true) ↔ a.contains n = true ∧ b.last < n := by
  have := a.ordered
  simp only [behind, contains_iff]
  split
  · simp only [List.mem_singleton, exists_eq_left]
    omega
  · simp only [List.not_mem_nil, false_and, exists_false, false_iff]
    omega

theorem contains_without {a b : Run} {n : Nat} :
    (∃ r ∈ a.without b, r.contains n = true) ↔ a.contains n = true ∧ ¬ b.contains n = true := by
  have h₁ := @contains_before a b n
  have h₂ := @contains_behind a b n
  have h₃ := @contains_iff b n
  simp only [without, List.mem_append, or_and_right, exists_or, h₁, h₂, h₃, ← and_or_left]
  have := b.ordered
  exact and_congr_right fun _ => by omega

end Run

end XmlPattern
