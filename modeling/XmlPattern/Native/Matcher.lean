import XmlPattern.Native.Regex
import XmlPattern.Text.Utf8
import XmlPattern.Unicode.CaseFolding

/-!
# Matching native patterns

A pattern matches from a place in a text by backtracking: alternatives are tried in order, repetitions as often or as
seldom as they can, and the first way to go on to the end is the match. What comes after a pattern is handed to it as
a continuation. A group keeps the last span that it has matched.

An unbounded repetition tries again only after a round that has taken a character, and a further round that takes none
fails; so every repetition ends.

- `Place.text_forward`: moving along a text does not change it.
-/

namespace XmlPattern.Native

open Unicode

/-- A place in a text: the characters before it, the last first, and those behind it. -/
structure Place where
  passed : List Char
  rest : List Char
  deriving DecidableEq

namespace Place

/-- The start of a text. -/
def start (text : List Char) : Place := ⟨[], text⟩

/-- The whole text. -/
def text (p : Place) : List Char := p.passed.reverse ++ p.rest

/-- How many characters precede the place. -/
def index (p : Place) : Nat := p.passed.length

/-- The place after the next character. -/
def forward? (p : Place) : Option Place :=
  match p.rest with
  | c :: rest => some ⟨c :: p.passed, rest⟩
  | [] => none

/-- The place so many characters ahead. -/
def ahead? : Nat → Place → Option Place
  | 0, p => some p
  | n + 1, p => p.forward?.bind (ahead? n)

/-- The place so many characters before. -/
def back? : Nat → Place → Option Place
  | 0, p => some p
  | n + 1, p =>
    match p.passed with
    | c :: passed => back? n ⟨passed, c :: p.rest⟩
    | [] => none

/-- Whether an assertion holds here. -/
def satisfies (p : Place) : Boundary → Bool
  | .textStart => p.passed.isEmpty
  | .textEnd => p.rest.isEmpty
  | .lineStart => p.passed.head?.all (· == '\n')
  | .lineEnd => p.rest.head?.all (· == '\n')

theorem text_forward {p q : Place} (h : p.forward? = some q) : q.text = p.text := by
  unfold forward? at h
  split at h
  · next c rest hp =>
    cases h
    simp [text, hp]
  · cases h

end Place

/-- A stretch of a text, by the numbers of characters before its ends. -/
structure Span where
  start : Nat
  stop : Nat
  deriving DecidableEq, Repr

/-- The characters of a stretch. -/
def Span.slice (text : List Char) (s : Span) : List Char := (text.drop s.start).take (s.stop - s.start)

/-- The spans that groups have matched, the latest first. -/
abbrev Groups := List (Nat × Span)

/-- Where a match ends and what its groups have matched, if there is one. -/
abbrev Outcome := Option (Place × Groups)

/-- What is to match behind a pattern. -/
abbrev Next := Place → Groups → Outcome

/-- A way to match from a place. -/
abbrev Matcher := Place → Groups → Next → Outcome

/-! ## Repetition -/

/-- One more round or none, whichever is preferred, and then the other. -/
def choose (greedy : Bool) (more stop : Unit → Outcome) : Outcome :=
  if greedy then (more ()).orElse stop else (stop ()).orElse more

/-- A fixed number of rounds. -/
def exactly (m : Matcher) : Nat → Matcher
  | 0, p, g, k => k p g
  | n + 1, p, g, k => m p g fun p g => exactly m n p g k

/-- Rounds up to a number. -/
def upTo (m : Matcher) (greedy : Bool) : Nat → Matcher
  | 0, p, g, k => k p g
  | n + 1, p, g, k => choose greedy (fun _ => m p g fun p g => upTo m greedy n p g k) fun _ => k p g

/-- Further rounds, each of which takes a character. -/
def further (m : Matcher) (greedy : Bool) : (fuel : Nat) → Matcher
  | 0, p, g, k => k p g
  | n + 1, p, g, k =>
    choose greedy
      (fun _ => m p g fun q g => if q.rest.length < p.rest.length then further m greedy n q g k else none)
      fun _ => k p g

/-- One round and, if it takes a character, further ones. -/
def atLeastOne (m : Matcher) (greedy : Bool) : Matcher := fun p g k =>
  m p g fun q g => if q.rest.length < p.rest.length then further m greedy q.rest.length q g k else k q g

/-- Rounds between bounds. -/
def repeatedly (m : Matcher) (min : Nat) (max : Option Nat) (greedy : Bool) : Matcher := fun p g k =>
  match max, min with
  | some max, min => exactly m min p g fun p g => upTo m greedy (max - min) p g k
  | none, 0 => choose greedy (fun _ => atLeastOne m greedy p g k) fun _ => k p g
  | none, min + 1 => exactly m min p g fun p g => atLeastOne m greedy p g k

/-! ## Patterns -/

/-- Whether a text repeats another, or differs from it only in case and is as long in UTF-8. -/
def repeats (caseBlind : Bool) (cs ds : List Char) : Bool :=
  cs == ds || caseBlind && cs.length == ds.length && utf8Length cs == utf8Length ds &&
    (cs.zip ds).all fun (c, d) => foldEq c d

/-- Matches what a group has matched again. -/
def referenceMatcher (number : Nat) (caseBlind : Bool) : Matcher := fun p g k =>
  match g.lookup number with
  | none => none
  | some span =>
    let captured := span.slice p.text
    match p.ahead? captured.length with
    | some q => if repeats caseBlind captured (p.rest.take captured.length) then k q g else none
    | none => none

/-- Goes on if a look-around succeeded as asked, with the groups of a positive one. -/
def afterLook (positive : Bool) (seen : Outcome) (p : Place) (g : Groups) (k : Next) : Outcome :=
  match positive, seen with
  | true, some (_, g) => k p g
  | false, none => k p g
  | _, _ => none

/-- The matcher of a pattern. -/
def matcher : Regex → Matcher
  | .empty, p, g, k => k p g
  | .chars s, p, g, k =>
    match p.rest with
    | c :: rest => if s.contains c then k ⟨c :: p.passed, rest⟩ g else none
    | [] => none
  | .seq a b, p, g, k => matcher a p g fun p g => matcher b p g k
  | .alt a b, p, g, k => (matcher a p g k).orElse fun _ => matcher b p g k
  | .repeated min max greedy a, p, g, k => repeatedly (fun p g k => matcher a p g k) min max greedy p g k
  | .group number a, p, g, k => matcher a p g fun q g => k q ((number, ⟨p.index, q.index⟩) :: g)
  | .reference number caseBlind, p, g, k => referenceMatcher number caseBlind p g k
  | .boundary b, p, g, k => if p.satisfies b then k p g else none
  | .lookAhead positive a, p, g, k => afterLook positive (matcher a p g fun p g => some (p, g)) p g k
  | .lookBehind positive width a, p, g, k =>
    afterLook positive ((p.back? width).bind fun q => matcher a q g fun p g => some (p, g)) p g k

/-! ## Searching -/

/-- A match in a text and what its groups have matched. -/
structure Found where
  span : Span
  groups : Groups

/-- The match of a pattern from a place on. -/
def matchAt? (a : Regex) (p : Place) : Option Found :=
  (matcher a p [] fun q g => some (q, g)).map fun (q, g) => ⟨⟨p.index, q.index⟩, g⟩

/-- The first match of a pattern that starts at a place or later. -/
def search? (a : Regex) : (passed rest : List Char) → Option Found
  | passed, [] => matchAt? a ⟨passed, []⟩
  | passed, c :: rest => (matchAt? a ⟨passed, c :: rest⟩).orElse fun _ => search? a (c :: passed) rest

/-- The first match of a pattern from a place on. -/
def Place.find? (p : Place) (a : Regex) : Option Found := search? a p.passed p.rest

/--
The matches from a place on, none overlapping another. Behind an empty match the search goes on after a character, and
an empty match right behind another match does not count.
-/
def matches? (a : Regex) : (fuel : Nat) → (lastStop : Option Nat) → Place → List Found
  | 0, _, _ => []
  | n + 1, lastStop, p =>
    match p.find? a with
    | none => []
    | some found =>
      let stop := found.span.stop
      match p.ahead? (stop - p.index) with
      | none => []
      | some q =>
        if found.span.start < stop then found :: matches? a n (some stop) q
        else
          let later := match q.forward? with
            | some q => matches? a n (some stop) q
            | none => []
          if lastStop = some stop then later else found :: later

end XmlPattern.Native
