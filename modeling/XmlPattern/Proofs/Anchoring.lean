import XmlPattern.Proofs.Native.ScalarLocality
import XmlPattern.Proofs.Native.Searching
import XmlPattern.Proofs.Native.Ways

/-!
# Anchored patterns

A pattern is anchored by text in front of it and behind it, which puts it into a group. If the pattern closes no group
that it has not opened, that group is closed where it should be, and the pattern is read as it would be read alone. A
text that is no pattern, because it closes a group that it has not opened, may become one by the parentheses around it.

- `tree?_anchor_cases`: what a text between anchors is read as.
- `ofPattern_anchored`: which patterns are accepted between anchors, and what they match there.
-/

namespace XmlPattern

open Native

/-- A text closes a group that it has not opened: what stands in front of a closing parenthesis is a pattern. -/
def ClosesUnopened (multiLine : Bool) (pattern : List Char) : Prop :=
  ∃ front rest, pattern = front ++ ')' :: rest ∧ (Lexis.scalar.tree? multiLine front).isSome = true

variable {multiLine : Bool} {pattern : List Char} {t : Native.Tree CharSet} {n : Nat}

/-! ## Reading -/

/-- A text that closes a group that it has not opened is no pattern. -/
theorem tree?_of_closesUnopened (h : ClosesUnopened multiLine pattern) :
    Lexis.scalar.tree? multiLine pattern = none := by
  obtain ⟨front, rest, rfl, hfront⟩ := h
  obtain ⟨⟨t, n⟩, ht⟩ := Option.isSome_iff_exists.mp hfront
  have hread := (pattern?_inFront_iff (isLocal_scalar rest) (Nat.lt_succ_self _)).mpr (tree?_eq_some_iff.mp ht)
  rw [Lexis.tree?, hread]

/-- A pattern is read between anchors as it is alone. -/
theorem tree?_anchor_of_tree? (h : Lexis.scalar.tree? multiLine pattern = some (t, n)) :
    Lexis.scalar.tree? multiLine (CompiledPattern.anchor pattern) = some (t.anchored, n) := by
  have hl := isLocal_scalar ['\\', 'z']
  refine tree?_anchor_of_read fun k m hk hm => ?_
  have hlen : (pattern ++ anchorEnd).length = pattern.length + 3 := List.length_append
  have hsame : (Lexis.scalar.pattern? k).SameBelow ['\\', 'z'] pattern.length (Lexis.scalar.pattern? pattern.length) :=
    pattern?_sameBelow hl (by simp only [List.length_cons, List.length_nil]; omega) (Nat.le_refl _)
  exact (branches?_local hl (pattern?_shrinks hl k) (pattern?_shrinks hl _) hsame _ 0 (Nat.le_refl _)
    (Nat.lt_succ_of_le hm) (Nat.lt_succ_self _) (t, ⟨[], n⟩)).mpr (tree?_eq_some_iff.mp h)

/-- The group around a text between anchors is closed somewhere. -/
theorem pattern?_of_tree?_anchor (h : Lexis.scalar.tree? multiLine (CompiledPattern.anchor pattern) = some (t, n)) :
    ∃ a k rest, Lexis.scalar.pattern? (pattern.length + 8) { multiLine } ⟨pattern ++ anchorEnd, 0⟩ =
      some (a, ⟨')' :: rest, k⟩) := by
  have hsource : CompiledPattern.anchor pattern = '\\' :: 'A' :: '(' :: '?' :: ':' :: (pattern ++ anchorEnd) := by
    simp [CompiledPattern.anchor, anchorEnd]
  have hlen : (CompiledPattern.anchor pattern).length = pattern.length + 6 + 1 + 1 := by
    simp [CompiledPattern.anchor]
  have hstarts (c : Char) (rest : List Char) (hc : c ≠ '|' ∧ c ≠ ')') : ¬ EndsBranch (c :: rest) :=
    fun h => (h c rfl).elim hc.1 hc.2
  have hopen : EndsPiece ('(' :: '?' :: ':' :: (pattern ++ anchorEnd)) := by
    rintro _ ⟨⟩
    decide
  have hatom (inner : Inner CharSet) : Lexis.scalar.atom? inner { multiLine } ⟨CompiledPattern.anchor pattern, 0⟩ =
      some (.boundary .textStart, ⟨'(' :: '?' :: ':' :: (pattern ++ anchorEnd), 0⟩) := by
    rw [hsource]
    exact atom?_escape rfl rfl
  rw [tree?_eq_some_iff, pattern?_succ, branches?_eq, hlen] at h
  obtain ⟨x, hx, _⟩ := Option.bind_eq_some_iff.mp h
  rw [branch?_step (by rw [hsource]; exact hstarts _ _ (by decide)), hatom, Option.bind_some,
    quantified_none hopen, Option.bind_some, branch?_step (hstarts _ _ (by decide))] at hx
  obtain ⟨_, hrest, _⟩ := Option.map_eq_some_iff.mp hx
  obtain ⟨_, hgroup, _⟩ := Option.bind_eq_some_iff.mp hrest
  obtain ⟨⟨a, rest, k⟩, hinside, hclose⟩ := Option.bind_eq_some_iff.mp hgroup
  dsimp only at hclose
  split at hclose
  · exact ⟨a, k, _, hinside⟩
  · cases hclose

/--
A text stands before a closing parenthesis within a text or at its end, if that is followed by one that closes an
anchor.
-/
theorem append_anchorEnd {front rest : List Char} (h : pattern ++ anchorEnd = front ++ ')' :: rest) :
    front = pattern ∨ ∃ behind, pattern = front ++ ')' :: behind := by
  rcases List.append_eq_append_iff.mp h with ⟨more, hfront, hend⟩ | ⟨more, hpattern, hend⟩
  · rcases more with _ | ⟨c, more⟩
    · rw [hfront, List.append_nil]
      exact .inl rfl
    · have hmem : ')' ∈ ['\\', 'z'] := by
        rw [show ['\\', 'z'] = more ++ ')' :: rest from List.tail_eq_of_cons_eq hend]
        exact List.mem_append_right _ List.mem_cons_self
      exact absurd hmem (by decide)
  · rcases more with _ | ⟨c, more⟩
    · rw [hpattern, List.append_nil]
      exact .inl rfl
    · rw [List.head_eq_of_cons_eq hend]
      exact .inr ⟨more, hpattern⟩

/-- What is read between anchors is a pattern, or else it closes a group that it has not opened. -/
theorem tree?_anchor_cases (h : Lexis.scalar.tree? multiLine (CompiledPattern.anchor pattern) = some (t, n)) :
    ClosesUnopened multiLine pattern ∨ ∃ a, Lexis.scalar.tree? multiLine pattern = some (a, n) ∧ t = a.anchored := by
  obtain ⟨a, k, rest, hread⟩ := pattern?_of_tree?_anchor h
  obtain ⟨front, hfront⟩ : ')' :: rest <:+ pattern ++ anchorEnd :=
    pattern?_shrinks (isLocal_scalar rest) _ hread
  have hlen : (front ++ ')' :: rest).length < pattern.length + 8 := by
    rw [hfront, List.length_append]
    exact Nat.lt_of_lt_of_le (Nat.add_lt_add_left (by decide : anchorEnd.length < 8) _) (Nat.le_refl _)
  rw [← hfront, pattern?_inFront_iff (isLocal_scalar rest) hlen, ← tree?_eq_some_iff] at hread
  rcases append_anchorEnd hfront.symm with rfl | ⟨behind, rfl⟩
  · have hanchor := tree?_anchor_of_tree? hread
    rw [h] at hanchor
    cases hanchor
    exact .inr ⟨a, hread, rfl⟩
  · exact .inl ⟨front, behind, rfl, by rw [hread]; rfl⟩

/-! ## Limits -/

/--
An engine takes a tree as a pattern: its groups do not nest too deep, and its automaton, if it has one, is small enough.
-/
structure EngineTakes (t : Native.Tree CharSet) (a : Regex) : Prop where
  depth : t.depth < Native.maxDepth
  tree : Regex.ofTree? t = some a
  states : a.isRegular = true → a.states ≤ CompiledPattern.maxStates

/-- A pattern is accepted exactly when it is read as a tree that the engine takes. -/
theorem ofPattern_eq_ok_iff {anchored : Bool} {c : CompiledPattern} :
    CompiledPattern.ofPattern multiLine anchored pattern = .ok c ↔
      c.source = (if anchored then CompiledPattern.anchor pattern else pattern) ∧
        ∃ t, Lexis.scalar.tree? multiLine c.source = some (t, c.groupCount) ∧ EngineTakes t c.tree := by
  unfold CompiledPattern.ofPattern Regex.ofPattern?
  generalize (if anchored then CompiledPattern.anchor pattern else pattern) = source
  obtain ⟨source', a, count⟩ := c
  constructor
  · intro h
    dsimp only at h
    split at h
    · next hpattern =>
      simp only [Option.bind_eq_bind, Option.bind_eq_some_iff, Option.guard_eq_some', Option.pure_def,
        Option.some.injEq] at hpattern
      obtain ⟨⟨t, m⟩, ht, _, hdepth, b, hb, he⟩ := hpattern
      cases he
      split at h
      · cases h
      · next hstates =>
        cases h
        exact ⟨rfl, t, ht, hdepth, hb, by simpa using hstates⟩
    · cases h
  · rintro ⟨rfl, t, ht, hdepth, htree, hstates⟩
    have hlimit : ¬ (a.isRegular && decide (CompiledPattern.maxStates < a.states)) = true := by simpa using hstates
    dsimp only at ht htree ⊢
    rw [ht]
    simp only [Option.bind_eq_bind, Option.bind_some, guard, if_pos hdepth, htree, Option.pure_def]
    exact if_neg hlimit

/-- The anchors bring two states. -/
theorem states_anchored (a : Regex) :
    let anchored := (Regex.boundary .textStart).andThen (a.andThen ((Regex.boundary .textEnd).andThen .empty))
    anchored.isRegular = a.isRegular ∧
      (anchored.states ≤ CompiledPattern.maxStates ↔ a.states + 2 ≤ CompiledPattern.maxStates) := by
  cases a with
  | empty => exact ⟨rfl, by decide⟩
  | _ =>
    simp only [Regex.andThen, Regex.isRegular, Regex.states, Bool.true_and, Bool.and_true, true_and]
    try omega

/-- The engine takes a tree between anchors if it takes the tree with one more level of groups and two more states. -/
theorem takes_anchored_iff : (∃ b, EngineTakes t.anchored b) ↔
    ∃ a, EngineTakes t a ∧ t.depth + 1 < Native.maxDepth ∧
      (a.isRegular = true → a.states + 2 ≤ CompiledPattern.maxStates) := by
  have hdepth : t.anchored.depth = t.depth + 1 := by
    simp [Tree.anchored, Tree.depth]
  constructor
  · rintro ⟨b, hb⟩
    obtain ⟨a, ha⟩ := ofTree?_of_anchored hb.tree
    obtain rfl := Option.some.inj ((ofTree?_anchored ha).symm.trans hb.tree)
    obtain ⟨hregular, hstates⟩ := states_anchored a
    have hroom : a.isRegular = true → a.states + 2 ≤ CompiledPattern.maxStates := by
      intro hr
      apply hstates.mp
      apply hb.states
      rw [hregular, hr]
    have hlevels := hb.depth
    rw [hdepth] at hlevels
    exact ⟨a, ⟨by omega, ha, fun hr => by have := hroom hr; omega⟩, hlevels, hroom⟩
  · rintro ⟨a, ha, hlevels, hroom⟩
    obtain ⟨hregular, hstates⟩ := states_anchored a
    refine ⟨_, hdepth ▸ hlevels, ofTree?_anchored ha.tree, fun hr => hstates.mpr (hroom ?_)⟩
    rw [← hregular, hr]

/-! ## Whole matches -/

/-- A pattern can match a whole text: one of its ways from the start leads to the end. -/
def CompiledPattern.MatchesWhole (c : CompiledPattern) (text : List Char) : Prop :=
  ∃ x ∈ c.tree.ways (.start text) [], x.1.rest = []

/-- An anchored pattern is found in the texts that the pattern can match as a whole. -/
theorem isMatch_iff_matchesWhole {c c' : CompiledPattern} (hc : Regex.ofTree? t = some c.tree)
    (hc' : Regex.ofTree? t.anchored = some c'.tree) (text : List Char) :
    c'.isMatch text = true ↔ c.MatchesWhole text := by
  have hend (q : Place) (g : Native.Groups) :
      (if q.satisfies .textEnd then some (q, g) else none : Outcome).isSome = true ↔ q.rest = [] := by
    rw [Place.satisfies]
    cases q.rest <;> simp
  have hstart {p : Place} : (matchAt? c'.tree p).isSome = true ↔
      p.passed = [] ∧ ∃ x ∈ c.tree.ways p [], x.1.rest = [] := by
    rw [isSome_matchAt?, matcher_anchored hc' hc]
    dsimp only
    rw [Place.satisfies]
    by_cases hp : p.passed = []
    · rw [if_pos (List.isEmpty_iff.mpr hp), (matcher_tries c.tree).run, List.findSome?_isSome_iff, and_iff_right hp]
      exact exists_congr fun x => and_congr_right fun _ => hend x.1 x.2
    · rw [if_neg (mt List.isEmpty_iff.mp hp)]
      simp [hp]
  show (search? c'.tree [] text).isSome = true ↔ _
  rw [isSome_search?]
  simp only [hstart, List.append_nil, List.reverse_eq_nil_iff]
  constructor
  · rintro ⟨_, v, rfl, rfl, hv⟩
    exact hv
  · exact fun h => ⟨[], text, rfl, rfl, h⟩

/-! ## Patterns between anchors -/

/-- The engine still takes an accepted pattern with one more level of groups and two more states. -/
def CompiledPattern.HasRoom (multiLine : Bool) (c : CompiledPattern) : Prop :=
  ∃ t, Lexis.scalar.tree? multiLine c.source = some (t, c.groupCount) ∧ t.depth + 1 < Native.maxDepth ∧
    (c.tree.isRegular = true → c.tree.states + 2 ≤ CompiledPattern.maxStates)

/--
A text that closes no group that it has not opened is accepted between anchors exactly when it is accepted alone with
room for the anchors; one that does is never accepted alone. Where both are accepted, the anchored pattern is found in
the texts that the other can match as a whole.
-/
theorem ofPattern_anchored (multiLine : Bool) (pattern : List Char) :
    (ClosesUnopened multiLine pattern → ∀ c, CompiledPattern.ofPattern multiLine false pattern ≠ .ok c) ∧
    (¬ ClosesUnopened multiLine pattern → ((∃ c', CompiledPattern.ofPattern multiLine true pattern = .ok c') ↔
      ∃ c, CompiledPattern.ofPattern multiLine false pattern = .ok c ∧ c.HasRoom multiLine)) ∧
    ∀ c c', CompiledPattern.ofPattern multiLine false pattern = .ok c →
      CompiledPattern.ofPattern multiLine true pattern = .ok c' →
        ∀ text, c'.isMatch text = true ↔ c.MatchesWhole text := by
  simp only [ne_eq, ofPattern_eq_ok_iff, Bool.false_eq_true, if_false, if_true]
  refine ⟨?_, fun hcloses => ⟨?_, ?_⟩, ?_⟩
  · rintro hcloses c ⟨hsource, t, ht, _⟩
    rw [hsource, tree?_of_closesUnopened hcloses] at ht
    cases ht
  · rintro ⟨c', hsource, t', ht', htakes⟩
    rw [hsource] at ht'
    obtain ⟨t, ht, rfl⟩ := (tree?_anchor_cases ht').resolve_left hcloses
    obtain ⟨a, ha, hroom⟩ := takes_anchored_iff.mp ⟨c'.tree, htakes⟩
    exact ⟨⟨pattern, a, c'.groupCount⟩, ⟨rfl, t, ht, ha⟩, t, ht, hroom⟩
  · rintro ⟨c, ⟨hsource, t, ht, htakes⟩, t', ht', hroom⟩
    rw [ht] at ht'
    cases ht'
    rw [hsource] at ht
    obtain ⟨b, hb⟩ := takes_anchored_iff.mpr ⟨c.tree, htakes, hroom⟩
    exact ⟨⟨CompiledPattern.anchor pattern, b, c.groupCount⟩, rfl, t.anchored, tree?_anchor_of_tree? ht, hb⟩
  · rintro c c' ⟨hsource, t, ht, htakes⟩ ⟨hsource', t', ht', htakes'⟩ text
    rw [hsource] at ht
    rw [hsource', tree?_anchor_of_tree? ht] at ht'
    obtain ⟨rfl, _⟩ := Prod.mk.inj (Option.some.inj ht')
    exact isMatch_iff_matchesWhole htakes.tree htakes'.tree text

/-- A choice closes no group, and is found between anchors in the texts that it can match as a whole. -/
theorem ofPattern_anchored_choice :
    ∃ c c', CompiledPattern.ofPattern false false "a|b".toList = .ok c ∧
      CompiledPattern.ofPattern false true "a|b".toList = .ok c' ∧
        (c'.isMatch ['b'] = true ↔ c.MatchesWhole ['b']) := by
  have hcloses : ¬ ClosesUnopened false "a|b".toList := by
    rintro ⟨front, rest, h, _⟩
    have hmem : ')' ∈ "a|b".toList := h ▸ List.mem_append_right front List.mem_cons_self
    exact absurd hmem (by decide)
  obtain ⟨c, hc⟩ : ∃ c, CompiledPattern.ofPattern false false "a|b".toList = .ok c := ⟨_, rfl⟩
  have hroom : c.HasRoom false := by
    cases hc
    exact ⟨_, rfl, by decide, by decide⟩
  obtain ⟨_, hiff, hmatch⟩ := ofPattern_anchored false "a|b".toList
  obtain ⟨c', hc'⟩ := (hiff hcloses).mpr ⟨c, hc, hroom⟩
  exact ⟨c, c', hc, hc', hmatch c c' hc hc' ['b']⟩

/-- A text that closes a group and opens another is a pattern between anchors, and none alone. -/
theorem not_accepted_unopened : ¬ ∀ (multiLine : Bool) (pattern : List Char),
    (∃ c', CompiledPattern.ofPattern multiLine true pattern = .ok c') ↔
      ∃ c, CompiledPattern.ofPattern multiLine false pattern = .ok c := by
  intro h
  obtain ⟨c, hc⟩ := (h false "a)(?:b".toList).mp ⟨_, rfl⟩
  cases hc

end XmlPattern
