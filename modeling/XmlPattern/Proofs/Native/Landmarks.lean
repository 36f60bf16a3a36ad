import XmlPattern.Proofs.Agreement
import XmlPattern.Proofs.Grammar.Captures

/-!
# Groups and references in the order of the text

What a native pattern numbers comes in the order of its text: where a group that captures opens, where it closes, and
where a back-reference stands. `Tree.landmarks` lists these, and `Tree.captures` the groups by their opening
parentheses. In a pattern that is written for a syntax tree, the groups are those of the syntax tree, and every
reference stands behind the closing parenthesis of its group.

- `Regexp.captures_tree`: the groups of the native tree of a syntax tree.
- `Regexp.refersBack_tree`: the references in it name groups that have been closed.
- `closes_before`: what a list of landmarks in which references name closed groups says of one reference.
-/

namespace XmlPattern

namespace Native

variable {α : Type}

/-- What a native pattern numbers. -/
inductive Landmark where
  | opens (number : Nat)
  | closes (number : Nat)
  | refers (number : Nat)
  deriving DecidableEq, Repr

/-- What a pattern numbers, in the order of its text. -/
def Tree.landmarks : Tree α → List Landmark
  | empty | chars _ | boundary _ => []
  | reference number _ => [.refers number]
  | seq a b | alt a b => a.landmarks ++ b.landmarks
  | repeated _ _ _ a => a.landmarks
  | group (.capturing number) a => .opens number :: a.landmarks ++ [.closes number]
  | group _ a => a.landmarks

/-- The groups that capture, each with its number and its inside, by their opening parentheses. -/
def Tree.captures : Tree α → List (Nat × Tree α)
  | empty | chars _ | boundary _ | reference .. => []
  | seq a b | alt a b => a.captures ++ b.captures
  | repeated _ _ _ a => a.captures
  | group (.capturing number) a => (number, a) :: a.captures
  | group _ a => a.captures

/-! ## References to closed groups -/

/-- The groups that are closed behind landmarks. -/
def closedBehind : List Nat → List Landmark → List Nat
  | closed, [] => closed
  | closed, .closes number :: ls => closedBehind (number :: closed) ls
  | closed, .opens _ :: ls | closed, .refers _ :: ls => closedBehind closed ls

/-- Every reference names a group that has been closed by then. -/
def RefersBack : List Nat → List Landmark → Prop
  | _, [] => True
  | closed, .closes number :: ls => RefersBack (number :: closed) ls
  | closed, .opens _ :: ls => RefersBack closed ls
  | closed, .refers number :: ls => number ∈ closed ∧ RefersBack closed ls

theorem closedBehind_append (closed : List Nat) (ls ls' : List Landmark) :
    closedBehind closed (ls ++ ls') = closedBehind (closedBehind closed ls) ls' := by
  induction ls generalizing closed with
  | nil => rfl
  | cons l ls ih => cases l <;> exact ih _

theorem RefersBack.append {closed : List Nat} {ls ls' : List Landmark} (h : RefersBack closed ls)
    (h' : RefersBack (closedBehind closed ls) ls') : RefersBack closed (ls ++ ls') := by
  induction ls generalizing closed with
  | nil => exact h'
  | cons l ls ih =>
    cases l with
    | opens number => exact ih (show RefersBack closed ls from h) h'
    | closes number => exact ih (show RefersBack (number :: closed) ls from h) h'
    | refers number => exact ⟨h.1, ih h.2 h'⟩

/-- What has been closed in front of landmarks or closes among them is closed behind them. -/
theorem mem_closedBehind {closed : List Nat} {ls : List Landmark} {number : Nat}
    (h : number ∈ closed ∨ .closes number ∈ ls) : number ∈ closedBehind closed ls := by
  induction ls generalizing closed with
  | nil => exact h.resolve_right List.not_mem_nil
  | cons l ls ih =>
    cases l with
    | opens n => exact ih (by simpa using h)
    | refers n => exact ih (by simpa using h)
    | closes n => exact ih (by simpa [or_assoc, or_left_comm] using h)

/--
Where references name closed groups, the group of a reference has been closed from the start, or closes in front of it.
-/
theorem closes_before {closed : List Nat} {ls : List Landmark} (h : RefersBack closed ls) {i number : Nat}
    (hi : ls[i]? = some (.refers number)) : number ∈ closed ∨ ∃ j < i, ls[j]? = some (.closes number) := by
  induction ls generalizing closed i with
  | nil => cases hi
  | cons l ls ih =>
    have hlater : ∀ {closed' : List Nat} {k : Nat}, RefersBack closed' ls → ls[k]? = some (.refers number) → k + 1 = i →
        number ∈ closed' ∨ ∃ j < i, (l :: ls)[j]? = some (.closes number) := by
      rintro closed' k h hk rfl
      refine (ih h hk).imp id ?_
      rintro ⟨j, hj, hl⟩
      exact ⟨j + 1, Nat.succ_lt_succ hj, hl⟩
    cases i with
    | zero =>
      obtain rfl := Option.some.inj hi
      exact .inl h.1
    | succ i =>
      cases l with
      | opens n => exact hlater (show RefersBack closed ls from h) hi rfl
      | refers n => exact hlater h.2 hi rfl
      | closes n =>
        rcases hlater (show RefersBack (n :: closed) ls from h) hi rfl with hmem | hbefore
        · rcases List.mem_cons.mp hmem with rfl | hmem
          · exact .inr ⟨0, Nat.succ_pos i, rfl⟩
          · exact .inl hmem
        · exact .inr hbefore

/-! ## Atoms number nothing -/

theorem landmarks_ofClasses (alternatives : List (List UnitSet)) : (Tree.ofClasses alternatives).landmarks = [] := by
  have hsequence : ∀ sets : List UnitSet, (Tree.sequence (sets.map .chars)).landmarks = [] := by
    intro sets
    induction sets with
    | nil => rfl
    | cons s sets ih => exact ih
  have halternation : ∀ as : List (List UnitSet),
      (Tree.alternation ((as.map (List.map .chars)).map .sequence)).landmarks = [] := by
    intro as
    induction as with
    | nil => rfl
    | cons a as ih =>
      cases as with
      | nil => exact hsequence a
      | cons b as =>
        rw [List.map_cons, List.map_cons] at ih ⊢
        rw [List.map_cons, List.map_cons, Tree.alternation_cons, Tree.landmarks, hsequence, ih, List.append_nil]
  exact halternation alternatives

theorem captures_of_landmarks {t : Tree α} (h : t.landmarks = []) : t.captures = [] := by
  induction t with
  | empty | chars _ | boundary _ | reference _ _ => rfl
  | seq a b iha ihb | alt a b iha ihb =>
    obtain ⟨ha, hb⟩ := List.append_eq_nil_iff.mp h
    rw [Tree.captures, iha ha, ihb hb]
    rfl
  | repeated _ _ _ a ih => exact ih h
  | group kind a ih =>
    cases kind with
    | capturing number => cases h
    | plain | caseless | lookAhead _ | lookBehind _ => exact ih h

end Native

open Native

theorem Fragment.landmarks_unitTree (f : Fragment) : f.unitTree.landmarks = [] := by
  cases f with
  | verbatim _ | reference _ _ => rfl
  | literal c =>
    rw [unitTree, unitLiteral]
    split
    · exact landmarks_ofClasses _
    · rfl
  | charClass s expand =>
    rw [unitTree, UnitClass.tree]
    dsimp only
    split
    · rfl
    · rfl
    · exact landmarks_ofClasses _

namespace Grammar

/-! ## The tree of a syntax tree -/

section

variable {α : Type} {leaf : Leaf → Native.Tree α} {blind multiLine : Bool}

theorem captures_quantify (t : Native.Tree α) (q : Option Quantifier) : (t.quantify q).captures = t.captures := by
  cases q <;> rfl

theorem landmarks_quantify (t : Native.Tree α) (q : Option Quantifier) : (t.quantify q).landmarks = t.landmarks := by
  cases q <;> rfl

theorem captures_of_back (number : Nat) (b : Bool) : (Tree.back number b : Native.Tree α).captures = [] := by
  cases b <;> rfl

theorem landmarks_back (number : Nat) (b : Bool) :
    (Tree.back number b : Native.Tree α).landmarks = [.refers number] := by
  cases b <;> rfl

/-- What a capture is in the native tree: its number and the tree of its inside. -/
def Capture.tree (leaf : Leaf → Native.Tree α) (blind multiLine : Bool) (c : Capture) : Nat × Native.Tree α :=
  (c.front.opened + 1, c.inside.tree leaf blind multiLine c.front.open)

mutual

theorem Atom.captures_tree (hleaf : ∀ x, (leaf x).landmarks = []) : (G : Groups) → (a : Atom) → (i : Nat) →
    (a.tree leaf blind multiLine G).captures = (a.captures i G).map (Capture.tree leaf blind multiLine)
  | _, .leaf x, _ => captures_of_landmarks (hleaf x)
  | _, .anchor _, _ => rfl
  | _, .reference _, _ => captures_of_back _ _
  | G, .group true r, i => congrArg (_ :: ·) (r.captures_tree hleaf G.open (i + 1))
  | G, .group false r, i => r.captures_tree hleaf G (i + 3)

theorem Branch.captures_tree (hleaf : ∀ x, (leaf x).landmarks = []) : (G : Groups) → (b : Branch) → (i : Nat) →
    (b.tree leaf blind multiLine G).captures = (b.captures i G).map (Capture.tree leaf blind multiLine)
  | _, .nil, _ => rfl
  | G, .cons a q b, i => by
    rw [Branch.tree, Tree.captures, captures_quantify, a.captures_tree hleaf G i, b.captures_tree hleaf (a.after G) _,
      Branch.captures, List.map_append]

/-- The groups of the native tree are those of the syntax tree, in order, each around the tree of its inside. -/
theorem Regexp.captures_tree (hleaf : ∀ x, (leaf x).landmarks = []) : (G : Groups) → (r : Regexp) → (i : Nat) →
    (r.tree leaf blind multiLine G).captures = (r.captures i G).map (Capture.tree leaf blind multiLine)
  | G, .branch b, i => b.captures_tree hleaf G i
  | G, .bar b r, i => by
    rw [Regexp.tree, Tree.captures, b.captures_tree hleaf G i, r.captures_tree hleaf (b.after G) _, Regexp.captures,
      List.map_append]

end

mutual

theorem Atom.closedBehind_tree (hleaf : ∀ x, (leaf x).landmarks = []) : (G : Groups) → (a : Atom) →
    closedBehind G.closed (a.tree leaf blind multiLine G).landmarks = (a.after G).closed
  | _, .leaf x => by
    rw [Atom.tree, hleaf]
    rfl
  | _, .anchor _ => rfl
  | _, .reference _ => by
    rw [Atom.tree, landmarks_back]
    rfl
  | G, .group true r => by
    have hinner := r.closedBehind_tree hleaf G.open
    rw [Atom.tree, Tree.landmarks, List.cons_append, closedBehind, closedBehind_append]
    exact congrArg (_ :: ·) hinner
  | G, .group false r => r.closedBehind_tree hleaf G

theorem Branch.closedBehind_tree (hleaf : ∀ x, (leaf x).landmarks = []) : (G : Groups) → (b : Branch) →
    closedBehind G.closed (b.tree leaf blind multiLine G).landmarks = (b.after G).closed
  | _, .nil => rfl
  | G, .cons a q b => by
    rw [Branch.tree, Tree.landmarks, landmarks_quantify, closedBehind_append, a.closedBehind_tree hleaf G,
      b.closedBehind_tree hleaf]
    rfl

/-- The groups that are closed behind the native tree are those closed behind the syntax tree. -/
theorem Regexp.closedBehind_tree (hleaf : ∀ x, (leaf x).landmarks = []) : (G : Groups) → (r : Regexp) →
    closedBehind G.closed (r.tree leaf blind multiLine G).landmarks = (r.after G).closed
  | G, .branch b => b.closedBehind_tree hleaf G
  | G, .bar b r => by
    rw [Regexp.tree, Tree.landmarks, closedBehind_append, b.closedBehind_tree hleaf G, r.closedBehind_tree hleaf]
    rfl

end

mutual

theorem Atom.refersBack_tree {o : Options} (hleaf : ∀ x, (leaf x).landmarks = []) : (a : Atom) → {depth : Nat} →
    {G : Groups} → a.Legal o depth G → RefersBack G.closed (a.tree leaf blind multiLine G).landmarks
  | .leaf x, _, G, _ => by
    rw [Atom.tree, hleaf]
    trivial
  | .anchor _, _, _, _ => trivial
  | .reference digits, _, G, h => by
    rw [Atom.tree, landmarks_back]
    exact ⟨h.2.2.2, trivial⟩
  | .group true r, _, G, h => by
    have hfront : RefersBack G.closed (.opens (G.opened + 1) :: (r.tree leaf blind multiLine G.open).landmarks) :=
      r.refersBack_tree hleaf h.2
    rw [Atom.tree, Tree.landmarks]
    exact hfront.append trivial
  | .group false r, _, G, h => r.refersBack_tree hleaf h.2.2

theorem Branch.refersBack_tree {o : Options} (hleaf : ∀ x, (leaf x).landmarks = []) : (b : Branch) → {depth : Nat} →
    {G : Groups} → b.Legal o depth G → RefersBack G.closed (b.tree leaf blind multiLine G).landmarks
  | .nil, _, _, _ => trivial
  | .cons a q b, _, G, h => by
    rw [Branch.tree, Tree.landmarks, landmarks_quantify]
    refine (a.refersBack_tree hleaf h.1).append ?_
    rw [a.closedBehind_tree hleaf G]
    exact b.refersBack_tree hleaf h.2.2.2

/-- The references in the native tree of a legal pattern name groups that have been closed. -/
theorem Regexp.refersBack_tree {o : Options} (hleaf : ∀ x, (leaf x).landmarks = []) : (r : Regexp) → {depth : Nat} →
    {G : Groups} → r.Legal o depth G → RefersBack G.closed (r.tree leaf blind multiLine G).landmarks
  | .branch b, _, _, h => b.refersBack_tree hleaf h
  | .bar b r, _, G, h => by
    refine (b.refersBack_tree hleaf h.1).append ?_
    rw [b.closedBehind_tree hleaf G]
    exact r.refersBack_tree hleaf h.2

end

end

/-! ## Which groups are closed -/

mutual

theorem Atom.mem_closed_after : (G : Groups) → (a : Atom) → {n : Nat} →
    (n ∈ (a.after G).closed ↔ n ∈ G.closed ∨ G.opened < n ∧ n ≤ (a.after G).opened)
  | G, .leaf _, _ | G, .anchor _, _ | G, .reference _, _ => by
    rw [Atom.after]
    grind
  | G, .group true r, n => by
    have hgrows := (r.grows_after G.open).1
    have hinner := r.mem_closed_after G.open (n := n)
    simp only [Groups.open] at hgrows hinner
    rw [Atom.after, Groups.close, List.mem_cons, Groups.open, hinner]
    grind
  | G, .group false r, _ => r.mem_closed_after G

theorem Branch.mem_closed_after : (G : Groups) → (b : Branch) → {n : Nat} →
    (n ∈ (b.after G).closed ↔ n ∈ G.closed ∨ G.opened < n ∧ n ≤ (b.after G).opened)
  | G, .nil, _ => by
    rw [Branch.after]
    grind
  | G, .cons a q b, n => by
    have ha := (a.grows_after G).1
    have hb := (b.grows_after (a.after G)).1
    rw [Branch.after, b.mem_closed_after, a.mem_closed_after]
    grind

/-- Behind a pattern the groups in it are closed, beside those closed in front. -/
theorem Regexp.mem_closed_after : (G : Groups) → (r : Regexp) → {n : Nat} →
    (n ∈ (r.after G).closed ↔ n ∈ G.closed ∨ G.opened < n ∧ n ≤ (r.after G).opened)
  | G, .branch b, _ => b.mem_closed_after G
  | G, .bar b r, n => by
    have hb := (b.grows_after G).1
    have hr := (r.grows_after (b.after G)).1
    rw [Regexp.after, r.mem_closed_after, b.mem_closed_after]
    grind

end

end Grammar

end XmlPattern
