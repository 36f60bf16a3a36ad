import XmlPattern.CharSet.Run
import XmlPattern.Range

/-!
# Sets of characters

A `CharSet` is a list of runs, kept as it came about. Union sorts runs and joins those that meet; difference cuts
runs to pieces. The complement is read off the gaps between neighbouring runs, and takes each gap as it finds it:
where the runs on both sides of the surrogate gap have nothing between them, it takes the two characters there. The
view of a set is membership, `c ∈ s`; every operation below comes with the lemma that says what it does to the view.

- `mem_union`, `mem_diff`, `mem_unions`: union and difference, for all sets.
- `mem_compl`: the complement, for sets whose runs are all separated.
- `mem_span`: the characters of a span of code points, the surrogate gap left out.
-/

namespace XmlPattern

/-- A set of characters as a list of runs. -/
structure CharSet where
  runs : List Run
  deriving DecidableEq

namespace CharSet

/-- Whether a character belongs to the set. -/
def contains (s : CharSet) (c : Char) : Bool := s.runs.any (·.contains (rank c))

instance : Membership Char CharSet := ⟨fun s c => s.contains c = true⟩

instance (c : Char) (s : CharSet) : Decidable (c ∈ s) := inferInstanceAs (Decidable (s.contains c = true))

theorem mem_iff {c : Char} {s : CharSet} : c ∈ s ↔ ∃ r ∈ s.runs, r.contains (rank c) = true :=
  List.any_eq_true

/-- No character. -/
def empty : CharSet := ⟨[]⟩

/-- Every character, as one run. -/
def full : CharSet := ⟨[.ofEnds 0 (charCount - 1)]⟩

instance : EmptyCollection CharSet := ⟨empty⟩

instance : Inhabited CharSet := ⟨empty⟩

/-- Whether the set has no member. -/
def isEmpty (s : CharSet) : Bool := s.runs.isEmpty

theorem not_mem_empty (c : Char) : c ∉ (∅ : CharSet) := by
  rw [mem_iff]
  rintro ⟨r, h, _⟩
  cases h

theorem mem_full (c : Char) : c ∈ full := by
  have := rank_lt c
  rw [mem_iff]
  exact ⟨_, List.mem_singleton.mpr rfl, (Run.contains_ofEnds (by decide) (Nat.zero_le _)).mpr (by omega)⟩

/-! ## Union -/

/-- Joins to a run those that follow, as long as they meet. -/
def joinFrom (a : Run) : List Run → List Run
  | [] => [a]
  | b :: rest => if a.meets b then joinFrom (a.join b) rest else a :: joinFrom b rest

/-- Joins neighbouring runs that meet. -/
def joinRuns : List Run → List Run
  | [] => []
  | a :: rest => joinFrom a rest

/-- Both sets. -/
protected def union (s t : CharSet) : CharSet := ⟨joinRuns (s.runs.merge t.runs fun a b => a.first ≤ b.first)⟩

instance : Union CharSet := ⟨CharSet.union⟩

theorem contains_joinFrom {n : Nat} (a : Run) (rest : List Run) :
    (∃ r ∈ joinFrom a rest, r.contains n = true) ↔ ∃ r ∈ a :: rest, r.contains n = true := by
  induction rest generalizing a with
  | nil => rfl
  | cons b rest ih =>
    unfold joinFrom
    split
    · next h => simp only [ih, List.mem_cons, exists_eq_or_imp, Run.contains_join h, or_assoc]
    · simp only [List.mem_cons, exists_eq_or_imp, ih]

theorem contains_joinRuns {n : Nat} (rs : List Run) :
    (∃ r ∈ joinRuns rs, r.contains n = true) ↔ ∃ r ∈ rs, r.contains n = true := by
  cases rs with
  | nil => rfl
  | cons a rest => exact contains_joinFrom a rest

theorem mem_union {c : Char} {s t : CharSet} : c ∈ s ∪ t ↔ c ∈ s ∨ c ∈ t := by
  simp only [mem_iff, show (s ∪ t).runs = joinRuns _ from rfl, contains_joinRuns, List.mem_merge, or_and_right,
    exists_or]

/-- Joins neighbours, which halves the list. -/
def unionPairs : List CharSet → List CharSet
  | s :: t :: rest => (s ∪ t) :: unionPairs rest
  | short => short

/-- Joins neighbours until one set is left, in at most the given number of rounds. -/
def unionRounds : Nat → List CharSet → CharSet
  | _, [] => ∅
  | _, [s] => s
  | 0, s :: rest => rest.foldl (· ∪ ·) s
  | rounds + 1, sets => unionRounds rounds (unionPairs sets)

/-- The union of a list of sets. -/
def unions (sets : List CharSet) : CharSet := unionRounds sets.length sets

theorem mem_unionPairs {c : Char} (sets : List CharSet) :
    (∃ s ∈ unionPairs sets, c ∈ s) ↔ ∃ s ∈ sets, c ∈ s := by
  fun_induction unionPairs sets with
  | case1 s t rest ih => simp [ih, mem_union, or_assoc]
  | case2 => rfl

theorem mem_foldl_union {c : Char} (s : CharSet) (rest : List CharSet) :
    c ∈ rest.foldl (· ∪ ·) s ↔ c ∈ s ∨ ∃ t ∈ rest, c ∈ t := by
  induction rest generalizing s with
  | nil => simp
  | cons t rest ih => simp [ih, mem_union, or_assoc]

theorem mem_unionRounds {c : Char} (rounds : Nat) (sets : List CharSet) :
    c ∈ unionRounds rounds sets ↔ ∃ s ∈ sets, c ∈ s := by
  fun_induction unionRounds rounds sets with
  | case1 => simp [not_mem_empty]
  | case2 => simp
  | case3 s rest => simp [mem_foldl_union]
  | case4 rounds sets _ _ ih => rw [ih, mem_unionPairs]

theorem mem_unions {c : Char} {sets : List CharSet} : c ∈ unions sets ↔ ∃ s ∈ sets, c ∈ s :=
  mem_unionRounds ..

theorem mem_unions_map {α : Type} {c : Char} {f : α → CharSet} {xs : List α} :
    c ∈ unions (xs.map f) ↔ ∃ x ∈ xs, c ∈ f x := by
  rw [mem_unions]
  constructor
  · rintro ⟨s, hs, hc⟩
    obtain ⟨x, hx, rfl⟩ := List.mem_map.mp hs
    exact ⟨x, hx, hc⟩
  · rintro ⟨x, hx, hc⟩
    exact ⟨_, List.mem_map_of_mem hx, hc⟩

/-! ## Difference -/

/-- What runs keep when others are taken away. -/
def removeRuns (kept : List Run) : List Run → List Run
  | [] => kept
  | b :: rest => removeRuns (kept.flatMap (·.without b)) rest

instance : SDiff CharSet := ⟨fun s t => ⟨s.runs.flatMap fun a => removeRuns [a] t.runs⟩⟩

theorem contains_removeRuns {n : Nat} (kept taken : List Run) :
    (∃ r ∈ removeRuns kept taken, r.contains n = true) ↔
      (∃ r ∈ kept, r.contains n = true) ∧ ¬ ∃ r ∈ taken, r.contains n = true := by
  induction taken generalizing kept with
  | nil => simp [removeRuns]
  | cons b rest ih =>
    have h : (∃ r ∈ kept.flatMap (·.without b), r.contains n = true) ↔
        (∃ r ∈ kept, r.contains n = true) ∧ ¬ b.contains n = true := by
      constructor
      · rintro ⟨r, hr, hn⟩
        obtain ⟨a, ha, hr⟩ := List.mem_flatMap.mp hr
        have := Run.contains_without.mp ⟨r, hr, hn⟩
        exact ⟨⟨a, ha, this.1⟩, this.2⟩
      · rintro ⟨⟨a, ha, hn⟩, hb⟩
        obtain ⟨r, hr, hn⟩ := Run.contains_without.mpr ⟨hn, hb⟩
        exact ⟨r, List.mem_flatMap.mpr ⟨a, ha, hr⟩, hn⟩
    simp only [removeRuns, ih, h, List.mem_cons, exists_eq_or_imp, not_or, and_assoc]

theorem mem_diff {c : Char} {s t : CharSet} : c ∈ s \ t ↔ c ∈ s ∧ c ∉ t := by
  simp only [mem_iff, show (s \ t).runs = s.runs.flatMap fun a => removeRuns [a] t.runs from rfl]
  constructor
  · rintro ⟨r, hr, hn⟩
    obtain ⟨a, ha, hr⟩ := List.mem_flatMap.mp hr
    obtain ⟨⟨b, hb, hn⟩, ht⟩ := (contains_removeRuns [a] t.runs).mp ⟨r, hr, hn⟩
    rw [List.mem_singleton] at hb
    exact ⟨⟨a, ha, hb ▸ hn⟩, ht⟩
  · rintro ⟨⟨a, ha, hn⟩, ht⟩
    obtain ⟨r, hr, hn⟩ := (contains_removeRuns [a] t.runs).mpr ⟨⟨a, List.mem_singleton.mpr rfl, hn⟩, ht⟩
    exact ⟨r, List.mem_flatMap.mpr ⟨a, ha, hr⟩, hn⟩

/-! ## Complement -/

/-- The gaps behind a run: between it and the next, and so on to the last character. -/
def gapsAfter (a : Run) : List Run → List Run
  | [] => if a.last + 1 < charCount then [.ofEnds (a.last + 1) (charCount - 1)] else []
  | b :: rest => .ofEnds (a.last + 1) (b.first - 1) :: gapsAfter b rest

/-- The gaps before, between and behind the runs of a set. -/
def compl (s : CharSet) : CharSet :=
  match s.runs with
  | [] => full
  | a :: rest => ⟨(if 0 < a.first then [.ofEnds 0 (a.first - 1)] else []) ++ gapsAfter a rest⟩

/-- Between any two runs of the set there is a character that is no member. -/
def Separated (s : CharSet) : Prop := s.runs.Pairwise fun a b => a.last + 1 < b.first

instance (s : CharSet) : Decidable s.Separated := inferInstanceAs (Decidable (List.Pairwise _ _))

theorem contains_gapsAfter {n : Nat} (hn : n < charCount) {a : Run} {rest : List Run}
    (h : (a :: rest).Pairwise fun a b => a.last + 1 < b.first) :
    (∃ r ∈ gapsAfter a rest, r.contains n = true) ↔ a.last < n ∧ ¬ ∃ r ∈ rest, r.contains n = true := by
  induction rest generalizing a with
  | nil =>
    unfold gapsAfter
    split
    · next ha =>
      simp only [List.mem_singleton, exists_eq_left, List.not_mem_nil, false_and, exists_false, not_false_eq_true,
        and_true]
      rw [Run.contains_ofEnds (by decide) (by omega)]
      omega
    · simp only [List.not_mem_nil, false_and, exists_false, not_false_eq_true, and_true, false_iff]
      omega
  | cons b rest ih =>
    obtain ⟨ha, hb⟩ := List.pairwise_cons.mp h
    have hab := ha b List.mem_cons_self
    have := b.bounded
    have := b.ordered
    simp only [gapsAfter, List.mem_cons, exists_eq_or_imp, ih hb, not_or]
    rw [Run.contains_ofEnds (by omega) (by omega), Run.contains_iff]
    constructor
    · rintro (h | h)
      · refine ⟨by omega, by omega, ?_⟩
        rintro ⟨r, hr, hrn⟩
        have := (List.pairwise_cons.mp hb).1 r hr
        rw [Run.contains_iff] at hrn
        omega
      · exact ⟨by omega, by omega, h.2⟩
    · rintro ⟨h₁, h₂, h₃⟩
      by_cases hlt : n < b.first
      · exact .inl (by omega)
      · exact .inr ⟨by omega, h₃⟩

theorem contains_gapBefore {a : Run} {n : Nat} :
    (∃ r ∈ if 0 < a.first then [Run.ofEnds 0 (a.first - 1)] else [], r.contains n = true) ↔ n < a.first := by
  have := a.ordered
  have := a.bounded
  split
  · simp only [List.mem_singleton, exists_eq_left]
    rw [Run.contains_ofEnds (by omega) (by omega)]
    omega
  · simp only [List.not_mem_nil, false_and, exists_false, false_iff]
    omega

theorem mem_compl {c : Char} {s : CharSet} (h : s.Separated) : c ∈ s.compl ↔ c ∉ s := by
  have hn := rank_lt c
  unfold compl
  split
  · next hs =>
    refine iff_of_true (mem_full c) fun hc => ?_
    obtain ⟨r, hr, _⟩ := mem_iff.mp hc
    rw [hs] at hr
    cases hr
  · next a rest hs =>
    unfold Separated at h
    rw [hs] at h
    have ha := a.ordered
    have hrest : rank c < a.first → ¬ ∃ r ∈ rest, r.contains (rank c) = true := by
      rintro hc ⟨r, hr, hrc⟩
      have := (List.pairwise_cons.mp h).1 r hr
      rw [Run.contains_iff] at hrc
      omega
    rw [mem_iff, mem_iff, hs]
    simp only [List.mem_append, or_and_right, exists_or, contains_gapBefore, contains_gapsAfter hn h, List.mem_cons,
      exists_eq_left, not_or]
    rw [Run.contains_iff]
    constructor
    · rintro (hc | hc)
      · exact ⟨by omega, hrest hc⟩
      · exact ⟨by omega, hc.2⟩
    · rintro ⟨hc, hr⟩
      by_cases hlt : rank c < a.first
      · exact .inl hlt
      · exact .inr ⟨by omega, hr⟩

/-! ## Spans of code points -/

/-- The characters with ranks from `first` on and below `stop`. -/
def interval (first stop : Nat) : CharSet :=
  ⟨if first < stop ∧ first < charCount then [.ofEnds first (min stop charCount - 1)] else []⟩

theorem mem_interval {c : Char} {first stop : Nat} :
    c ∈ interval first stop ↔ first ≤ rank c ∧ rank c < stop := by
  have hc := rank_lt c
  simp only [mem_iff, interval]
  split
  · next h =>
    simp only [List.mem_singleton, exists_eq_left]
    rw [Run.contains_ofEnds (by omega) (by omega)]
    omega
  · simp only [List.not_mem_nil, false_and, exists_false, false_iff]
    omega

/-- The characters of a span of code points, both ends included. -/
def span (lo hi : Nat) : CharSet := interval (charsBelow lo) (charsBelow (hi + 1))

/-- The set of one character. -/
def single (c : Char) : CharSet := interval (rank c) (rank c + 1)

/-- The characters of any of the spans. -/
def ofSpans (spans : List (Nat × Nat)) : CharSet := unions (spans.map fun p => span p.1 p.2)

/-- The set of the characters listed. -/
def ofList (cs : List Char) : CharSet := unions (cs.map single)

theorem mem_span {c : Char} {lo hi : Nat} : c ∈ span lo hi ↔ lo ≤ c.toNat ∧ c.toNat ≤ hi := by
  rw [span, mem_interval, rank_lt_charsBelow_iff]
  have h := @rank_lt_charsBelow_iff c lo
  constructor
  · rintro ⟨h₁, h₂⟩
    exact ⟨by omega, by omega⟩
  · rintro ⟨h₁, h₂⟩
    exact ⟨by omega, by omega⟩

theorem mem_single {c d : Char} : c ∈ single d ↔ c = d := by
  rw [single, mem_interval]
  constructor
  · intro h
    exact rank_inj (by omega)
  · rintro rfl
    omega

theorem mem_ofSpans {c : Char} {spans : List (Nat × Nat)} :
    c ∈ ofSpans spans ↔ ∃ p ∈ spans, p.1 ≤ c.toNat ∧ c.toNat ≤ p.2 := by
  simp only [ofSpans, mem_unions_map, mem_span]

theorem mem_ofList {c : Char} {cs : List Char} : c ∈ ofList cs ↔ c ∈ cs := by
  simp [ofList, mem_unions_map, mem_single]

/-! ## Ranges of code points -/

/-- The one member of a set that has exactly one. -/
def single? (s : CharSet) : Option Char :=
  match s.runs with
  | [r] => if r.first = r.last then some (ofRank r.first) else none
  | _ => none

/-- The code points of a run; a run across the surrogate gap is two ranges. -/
def rangesOfRun (r : Run) : List Range :=
  if r.first < 0xD800 ∧ 0xD800 ≤ r.last then [⟨r.first, 0xD7FF⟩, ⟨0xE000, codePointAt r.last⟩]
  else [⟨codePointAt r.first, codePointAt r.last⟩]

/-- The set as ranges of code points that hold no surrogate. -/
def ranges (s : CharSet) : List Range := s.runs.flatMap rangesOfRun

end CharSet

end XmlPattern
