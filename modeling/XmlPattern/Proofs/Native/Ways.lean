import XmlPattern.Native.Matcher

/-!
# All the ways to match

The matcher hands what comes behind a pattern one place after another, in the order of its preferences, until that
succeeds. Here is the list of those places, with what the groups have matched on the way: `Regex.ways`. It needs no
continuation, and so says what a pattern can match apart from how the matcher looks for it. Look-around asks for the
first way alone.

- `Tries`: a matcher tries the places of a list in their order.
- `matcher_tries`: the matcher of a pattern tries the places of its ways.
-/

namespace XmlPattern

namespace Native

/-- Places that may be reached, with what the groups have matched then, the preferred ones first. -/
abbrev Ways := Place → Groups → List (Place × Groups)

/-! ## Repetition -/

/-- The ways with one more round and the way without, whichever is preferred first. -/
def Ways.choose (greedy : Bool) (more stop : List (Place × Groups)) : List (Place × Groups) :=
  if greedy then more ++ stop else stop ++ more

/-- The ways of a fixed number of rounds. -/
def Ways.exactly (w : Ways) : Nat → Ways
  | 0, p, g => [(p, g)]
  | n + 1, p, g => (w p g).flatMap fun (q, g) => exactly w n q g

/-- The ways of rounds up to a number. -/
def Ways.upTo (w : Ways) (greedy : Bool) : Nat → Ways
  | 0, p, g => [(p, g)]
  | n + 1, p, g => choose greedy ((w p g).flatMap fun (q, g) => upTo w greedy n q g) [(p, g)]

/-- The ways of further rounds, each of which takes a character. -/
def Ways.further (w : Ways) (greedy : Bool) : (fuel : Nat) → Ways
  | 0, p, g => [(p, g)]
  | n + 1, p, g =>
    choose greedy ((w p g).flatMap fun (q, g) => if q.rest.length < p.rest.length then further w greedy n q g else [])
      [(p, g)]

/-- The ways of one round and, if it takes a character, further ones. -/
def Ways.atLeastOne (w : Ways) (greedy : Bool) : Ways := fun p g =>
  (w p g).flatMap fun (q, g) => if q.rest.length < p.rest.length then w.further greedy q.rest.length q g else [(q, g)]

/-- The ways of rounds between bounds. -/
def Ways.repeatedly (w : Ways) (min : Nat) (max : Option Nat) (greedy : Bool) : Ways := fun p g =>
  match max, min with
  | some max, min => (w.exactly min p g).flatMap fun (q, g) => w.upTo greedy (max - min) q g
  | none, 0 => choose greedy (w.atLeastOne greedy p g) [(p, g)]
  | none, min + 1 => (w.exactly min p g).flatMap fun (q, g) => w.atLeastOne greedy q g

/-! ## Patterns -/

/-- The ways behind a look-around: to stay, with the groups of what a positive one has seen first. -/
def Ways.afterLook (positive : Bool) (seen : List (Place × Groups)) (p : Place) (g : Groups) : List (Place × Groups) :=
  match positive, seen with
  | true, (_, g) :: _ => [(p, g)]
  | false, [] => [(p, g)]
  | _, _ => []

/-- The way to match again what a group has matched. -/
def Ways.reference (number : Nat) (caseBlind : Bool) : Ways := fun p g =>
  match g.lookup number with
  | none => []
  | some span =>
    match p.ahead? (span.slice p.text).length with
    | some q =>
      if repeats caseBlind (span.slice p.text) (p.rest.take (span.slice p.text).length) then [(q, g)] else []
    | none => []

end Native

/-- The ways to match a pattern from a place on. -/
def Regex.ways : Regex → Native.Ways
  | .empty, p, g => [(p, g)]
  | .chars s, p, g =>
    match p.rest with
    | c :: rest => if s.contains c then [(⟨c :: p.passed, rest⟩, g)] else []
    | [] => []
  | .seq a b, p, g => (a.ways p g).flatMap fun (q, g) => b.ways q g
  | .alt a b, p, g => a.ways p g ++ b.ways p g
  | .repeated min max greedy a, p, g => Native.Ways.repeatedly (fun p g => a.ways p g) min max greedy p g
  | .group number a, p, g => (a.ways p g).map fun (q, g) => (q, (number, ⟨p.index, q.index⟩) :: g)
  | .reference number caseBlind, p, g => Native.Ways.reference number caseBlind p g
  | .boundary b, p, g => if p.satisfies b then [(p, g)] else []
  | .lookAhead positive a, p, g => Native.Ways.afterLook positive (a.ways p g) p g
  | .lookBehind positive width a, p, g =>
    Native.Ways.afterLook positive ((p.back? width).elim [] fun q => a.ways q g) p g

namespace Native

/-- What comes behind, given a place and groups at once. -/
def atWay (k : Next) (x : Place × Groups) : Outcome := k x.1 x.2

/-- A matcher tries the places of a list in their order. -/
def Tries (m : Matcher) (w : Ways) : Prop := ∀ p g k, m p g k = (w p g).findSome? (atWay k)

variable {m : Matcher} {w : Ways} {greedy : Bool} {p : Place} {g : Groups} {k : Next}

theorem Tries.run (h : Tries m w) (p : Place) (g : Groups) (k : Next) : m p g k = (w p g).findSome? (atWay k) := h p g k

theorem findSome?_one : [(p, g)].findSome? (atWay k) = k p g := by
  rw [List.findSome?_cons, List.findSome?_nil, atWay]
  cases k p g <;> rfl

theorem findSome?_ite {c : Prop} [Decidable c] {xs ys : List (Place × Groups)} :
    (if c then xs else ys).findSome? (atWay k) = if c then xs.findSome? (atWay k) else ys.findSome? (atWay k) := by
  split <;> rfl

theorem findSome?_flatMap (xs : List (Place × Groups)) (f : Place × Groups → List (Place × Groups)) :
    (xs.flatMap f).findSome? (atWay k) = xs.findSome? (atWay fun q g => (f (q, g)).findSome? (atWay k)) := by
  induction xs with
  | nil => rfl
  | cons x xs ih =>
    rw [List.flatMap_cons, List.findSome?_append, List.findSome?_cons, ih, atWay]
    cases (f x).findSome? (atWay k) <;> rfl

theorem findSome?_choose {more stop : List (Place × Groups)} :
    (Ways.choose greedy more stop).findSome? (atWay k) =
      choose greedy (fun _ => more.findSome? (atWay k)) fun _ => stop.findSome? (atWay k) := by
  unfold Ways.choose choose
  cases greedy with
  | true =>
    rw [if_pos rfl, if_pos rfl, List.findSome?_append, Option.orElse_eq_or]
  | false =>
    rw [if_neg Bool.false_ne_true, if_neg Bool.false_ne_true, List.findSome?_append, Option.orElse_eq_or]

/-! ## What a matcher tries -/

theorem Tries.exactly (h : Tries m w) (n : Nat) : Tries (exactly m n) (w.exactly n) := by
  induction n with
  | zero => exact fun p g k => findSome?_one.symm
  | succ n ih =>
    intro p g k
    rw [Native.exactly, Ways.exactly, findSome?_flatMap, h.run]
    simp only [ih.run]

theorem Tries.upTo (h : Tries m w) (greedy : Bool) (n : Nat) : Tries (upTo m greedy n) (w.upTo greedy n) := by
  induction n with
  | zero => exact fun p g k => findSome?_one.symm
  | succ n ih =>
    intro p g k
    rw [Native.upTo, Ways.upTo, findSome?_choose, findSome?_flatMap, findSome?_one, h.run]
    simp only [ih.run]

theorem Tries.further (h : Tries m w) (greedy : Bool) (n : Nat) : Tries (further m greedy n) (w.further greedy n) := by
  induction n with
  | zero => exact fun p g k => findSome?_one.symm
  | succ n ih =>
    intro p g k
    rw [Native.further, Ways.further, findSome?_choose, findSome?_flatMap, findSome?_one, h.run]
    simp only [ih.run, findSome?_ite, List.findSome?_nil]

theorem Tries.atLeastOne (h : Tries m w) (greedy : Bool) : Tries (atLeastOne m greedy) (w.atLeastOne greedy) := by
  intro p g k
  rw [Native.atLeastOne, Ways.atLeastOne, findSome?_flatMap, h.run]
  simp only [(h.further greedy _).run, findSome?_ite, findSome?_one]

theorem Tries.repeatedly (h : Tries m w) (min : Nat) (max : Option Nat) (greedy : Bool) :
    Tries (repeatedly m min max greedy) (w.repeatedly min max greedy) := by
  intro p g k
  unfold Native.repeatedly Ways.repeatedly
  cases max with
  | some max =>
    dsimp only
    rw [(h.exactly min).run, findSome?_flatMap]
    simp only [(h.upTo greedy _).run]
  | none =>
    cases min with
    | zero =>
      dsimp only
      rw [findSome?_choose, findSome?_one, (h.atLeastOne greedy).run]
    | succ min =>
      dsimp only
      rw [(h.exactly min).run, findSome?_flatMap]
      simp only [(h.atLeastOne greedy).run]

theorem tries_reference (number : Nat) (caseBlind : Bool) :
    Tries (referenceMatcher number caseBlind) (Ways.reference number caseBlind) := by
  intro p g k
  unfold referenceMatcher Ways.reference
  cases g.lookup number with
  | none => rfl
  | some span =>
    dsimp only
    cases p.ahead? (span.slice p.text).length with
    | none => rfl
    | some q =>
      dsimp only
      rw [findSome?_ite, findSome?_one]
      rfl

theorem findSome?_afterLook {positive : Bool} {seen : List (Place × Groups)} :
    (Ways.afterLook positive seen p g).findSome? (atWay k) =
      afterLook positive (seen.findSome? (atWay fun p g => some (p, g))) p g k := by
  cases seen with
  | nil =>
    cases positive with
    | true => rfl
    | false => exact findSome?_one
  | cons x seen =>
    cases positive with
    | true => exact findSome?_one
    | false => rfl

/-- The matcher of a pattern tries the places of its ways. -/
theorem matcher_tries : (a : Regex) → Tries (matcher a) a.ways
  | .empty, _, _, _ => findSome?_one.symm
  | .chars s, p, g, k => by
    rw [matcher, Regex.ways]
    cases p.rest with
    | nil => rfl
    | cons c rest =>
      dsimp only
      rw [findSome?_ite, findSome?_one]
      rfl
  | .seq a b, p, g, k => by
    rw [matcher, Regex.ways, findSome?_flatMap, (matcher_tries a).run]
    simp only [(matcher_tries b).run]
  | .alt a b, p, g, k => by
    rw [matcher, Regex.ways, List.findSome?_append, (matcher_tries a).run, Option.orElse_eq_or, (matcher_tries b).run]
  | .repeated min max greedy a, p, g, k => by
    rw [matcher, Regex.ways]
    exact (matcher_tries a).repeatedly min max greedy p g k
  | .group number a, p, g, k => by
    rw [matcher, Regex.ways, List.findSome?_map, (matcher_tries a).run]
    rfl
  | .reference number caseBlind, p, g, k => tries_reference number caseBlind p g k
  | .boundary b, p, g, k => by
    rw [matcher, Regex.ways, findSome?_ite, findSome?_one]
    rfl
  | .lookAhead positive a, p, g, k => by
    rw [matcher, Regex.ways, findSome?_afterLook, (matcher_tries a).run]
  | .lookBehind positive width a, p, g, k => by
    rw [matcher, Regex.ways, findSome?_afterLook]
    cases p.back? width with
    | none => rfl
    | some q =>
      rw [Option.bind_some, (matcher_tries a).run]
      rfl

end Native

end XmlPattern
