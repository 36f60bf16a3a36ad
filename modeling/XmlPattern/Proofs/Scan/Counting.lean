import XmlPattern.Proofs.Scan.Finds
import XmlPattern.Scan.Grammar

/-!
# Counting the groups that are open

A scanner of atoms is told how many groups are open around it. It may as well find that out from a counter that is kept
beside the state, raised in front of the inside of a group, and lowered behind it whether or not the inside fails. To
see that, an atom is taken apart: only a group has an inside, and its front says what is to come behind that.

- `Scan.run_atom_group`, `Scan.run_atom_leaf`: an atom is a group, or has no inside.
- `Counting.atom`: atoms, and what is inside of them, with the counter.
- `Counting.tracks_atom`: the counter is back behind an atom, however it ends, and all else is as without it.
-/

namespace XmlPattern

/-- What the front of a group says of it. -/
inductive GroupFront where
  /-- The group captures, under a number. -/
  | captures (number : Nat)
  /-- The group does not capture. -/
  | plain
  /-- The group has no inside. -/
  | bare

namespace Scan

variable {α β γ : Type} {p : Scan α} {f g : α → Scan β} {s t : ScanState} {o : Options} {atoms : Atoms} {n : Nat}

/-! ## The parts of a group -/

/-- The front of a schema group, from its parenthesis on. -/
def groupFront (v : Variant) : Scan GroupFront := do
  advance
  if v.isXPath30 && (← isAt '?') then
    advance
    expect ':'
    advance
    writeText "(?:"
    return .plain
  else
    let number ← openGroup
    writeText "("
    return .captures number

/-- The front of a native group, from its parenthesis on. -/
def copyGroupFront (fuel : Nat) : Scan GroupFront := do
  copy
  if ← isAt '?' then
    copy
    if ← copyGroupHead fuel then return .plain else return .bare
  else
    let number ← openGroup
    return .captures number

/-- The front of a group of either kind. -/
def front (o : Options) (atoms : Atoms) (fuel : Nat) : Scan GroupFront :=
  match atoms with
  | .schema _ => groupFront o.variant
  | .native => copyGroupFront fuel

/-- What is behind the inside of a group. -/
def groupEnd (close : Scan Unit) : Scan Unit := do
  expect ')'
  close
  copy

/-- What is behind the front of a group. -/
def groupRest (inside : Scan Unit) : GroupFront → Scan Unit
  | .captures number => do inside; groupEnd (closeGroup number)
  | .plain => do inside; groupEnd (pure ())
  | .bare => return

/-- An atom that is no group; what the inside of a group would be does not matter. -/
def leaf (o : Options) (atoms : Atoms) (fuel : Nat) : Scan Bool :=
  match atoms with
  | .schema _ => schemaAtom o fuel (pure ())
  | .native => nativeAtom fuel (pure ())

/-! ## An atom is a group, or has no inside -/

/-- The front of a scanner may be carried out apart. -/
theorem run_bind_apart {k : α → Scan γ} {h : β → Scan γ} (hk : ∀ a t, (k a).run t = (f a >>= h).run t) (s : ScanState) :
    (p >>= k).run s = ((p >>= f) >>= h).run s :=
  (run_bind_congr hk s).trans (run_bind_assoc s).symm

theorem run_group (v : Variant) (inside : Scan Unit) (s : ScanState) :
    (group v inside).run s = (groupFront v >>= groupRest inside).run s := by
  refine run_bind_apart (fun _ t => run_bind_apart (fun b t => ?_) t) s
  split
  · refine run_bind_apart (fun _ t => run_bind_apart (fun _ t => run_bind_apart (fun _ t =>
      run_bind_apart (fun _ t => ?_) t) t) t) t
    rfl
  · refine run_bind_apart (fun number t => run_bind_apart (fun _ t => ?_) t) t
    rfl

theorem run_copyGroup (inside : Scan Unit) (s : ScanState) :
    (copyGroup n inside).run s = (copyGroupFront n >>= groupRest inside).run s := by
  refine run_bind_apart (fun _ t => run_bind_apart (fun b t => ?_) t) s
  split
  · refine run_bind_apart (fun _ t => run_bind_apart (fun b t => ?_) t) t
    split <;> rfl
  · refine run_bind_apart (fun number t => ?_) t
    rfl

/-- At a parenthesis an atom is a group. -/
theorem run_atom_group (depth : Nat) (h : s.cursor.current = some (CodeUnit.ofBasic '(')) :
    (atom o atoms (n + 1) depth).run s =
      (do groupRest (enclosed o atoms n depth) (← front o atoms n); return true : Scan Bool).run s := by
  have hassoc : ∀ {p : Scan GroupFront} {q : Scan Unit}, q.run s = (p >>= groupRest (enclosed o atoms n depth)).run s →
      (do q; return true : Scan Bool).run s =
        (do groupRest (enclosed o atoms n depth) (← p); return true : Scan Bool).run s :=
    fun hq => (run_bind_left hq).trans (run_bind_apart (fun _ _ => rfl) s).symm
  cases atoms with
  | schema d =>
    rw [atom_schema, schemaAtom, run_bind_of_run (p := current) rfl, h]
    exact hassoc (run_group ..)
  | native =>
    rw [atom_native, nativeAtom, run_bind_of_run (p := current) rfl, h]
    exact hassoc (run_copyGroup ..)

/-- Elsewhere an atom has no inside. -/
theorem run_atom_leaf (depth : Nat) (h : s.cursor.current ≠ some (CodeUnit.ofBasic '(')) :
    (atom o atoms (n + 1) depth).run s = (leaf o atoms n).run s := by
  have hparen : ∀ u, s.cursor.current = some u → u.toAscii? ≠ some '(' := fun u hu hc =>
    h (hu.trans (congrArg some (CodeUnit.toAscii?_eq_some.mp hc).2))
  cases atoms with
  | schema d =>
    rw [atom_schema, leaf, schemaAtom, schemaAtom, run_bind_of_run (p := current) rfl,
      run_bind_of_run (p := current) rfl]
    cases hu : s.cursor.current with
    | none => rfl
    | some u =>
      dsimp only
      split
      · next hc => exact absurd hc (hparen u hu)
      all_goals rfl
  | native =>
    rw [atom_native, leaf, nativeAtom, nativeAtom, run_bind_of_run (p := current) rfl,
      run_bind_of_run (p := current) rfl]
    cases hu : s.cursor.current with
    | none => rfl
    | some u =>
      dsimp only
      split
      · next hc => exact absurd hc (hparen u hu)
      all_goals rfl

end Scan

/-! ## The counter -/

/-- A state, and a counter of the groups that are open around the cursor. -/
structure Session where
  state : ScanState
  depth : Nat

/-- A scanner with a counter. Like a scanner it leaves a state when it fails. -/
abbrev Counting := ExceptT Diagnostic (StateM Session)

namespace Counting

variable {α β : Type}

/-- Carries out a scanner with a counter. -/
def run (p : Counting α) (x : Session) : Except Diagnostic α × Session := p x

/-- A scanner that does not mind the counter. -/
def scan (p : Scan α) : Counting α := fun x => ((p.run x.state).1, { x with state := (p.run x.state).2 })

/-- Raises the counter, unless it is at its limit, and lowers it when the inside has ended, whichever way. -/
def inside (p : Counting Unit) : Counting Unit := fun x =>
  if x.state.options.maxDepth ≤ x.depth then (.error (x.state.diagnostic .nestingTooDeep), x)
  else
    let r := run p { x with depth := x.depth + 1 }
    (r.1, { r.2 with depth := r.2.depth - 1 })

/-- What is behind the front of a group. -/
def groupRest (p : Counting Unit) : GroupFront → Counting Unit
  | .captures number => do inside p; scan (Scan.groupEnd (Scan.closeGroup number))
  | .plain => do inside p; scan (Scan.groupEnd (pure ()))
  | .bare => return

/-- Atoms with their quantifiers, as long as one starts here. -/
def branch (v : Variant) (atom : Counting Bool) : (fuel : Nat) → Counting Unit
  | 0 => return
  | n + 1 => do
    if ← atom then
      scan (Scan.quantifier v n)
      branch v atom n

/-- Further branches, each behind its bar. -/
def alternatives (branch : Counting Unit) : (fuel : Nat) → Counting Unit
  | 0 => return
  | n + 1 => do
    if ← scan (Scan.isAt '|') then
      scan Scan.copy
      branch
      alternatives branch n

/-- Branches with bars between them. -/
def regexp (v : Variant) (atom : Counting Bool) (fuel : Nat) : Counting Unit := do
  branch v atom fuel
  alternatives (branch v atom fuel) fuel

/-- An atom, if one starts here. -/
def atom (o : Options) (atoms : Atoms) : (fuel : Nat) → Counting Bool
  | 0 => return false
  | n + 1 => do
    if ← scan (Scan.isAt '(') then
      groupRest (regexp o.variant (atom o atoms n) n) (← scan (Scan.front o atoms n))
      return true
    else scan (Scan.leaf o atoms n)

/-! ## The counter is back -/

/-- The counter is back at its value, and all else is as when the scanner is told that value. -/
def Tracks (p : Counting α) (q : (depth : Nat) → Scan α) : Prop :=
  ∀ s depth, run p ⟨s, depth⟩ = (((q depth).run s).1, ⟨((q depth).run s).2, depth⟩)

theorem run_bind (p : Counting α) (f : α → Counting β) (x : Session) :
    run (p >>= f) x = match run p x with
      | (.ok a, y) => run (f a) y
      | (.error d, y) => (.error d, y) := by
  show (ExceptT.bindCont f (run p x).1) (run p x).2 = _
  generalize run p x = r
  obtain ⟨_ | _, y⟩ := r <;> rfl

theorem tracks_pure (a : α) : Tracks (pure a) fun _ => pure a := fun _ _ => rfl

theorem tracks_scan (p : Scan α) : Tracks (scan p) fun _ => p := fun _ _ => rfl

variable {p : Counting α} {q : Nat → Scan α} {f : α → Counting β} {g : Nat → α → Scan β}

theorem Tracks.bind (hp : Tracks p q) (hf : ∀ a, Tracks (f a) fun depth => g depth a) :
    Tracks (p >>= f) fun depth => q depth >>= g depth := by
  intro s depth
  rw [run_bind, hp, Scan.run_bind]
  generalize (q depth).run s = r
  obtain ⟨d | a, t⟩ := r
  · rfl
  · exact hf a t depth

theorem tracks_ite {c : Prop} [Decidable c] {p' : Counting α} {q' : Nat → Scan α} (h : Tracks p q) (h' : Tracks p' q') :
    Tracks (if c then p else p') fun depth => if c then q depth else q' depth := by
  split
  · exact h
  · exact h'

/-- Raising and lowering the counter is what telling the inside of one more group is. -/
theorem Tracks.inside {p : Counting Unit} {q : Nat → Scan Unit} (h : Tracks p q) :
    Tracks (inside p) fun depth => (do Scan.descend depth; q (depth + 1)) := by
  intro s depth
  rw [Scan.run_bind, Scan.run_descend, run, Counting.inside]
  by_cases hd : s.options.maxDepth ≤ depth
  · rw [if_pos hd, if_pos hd]
  · rw [if_neg hd, if_neg hd, h]
    rfl

variable {v : Variant} {o : Options} {atoms : Atoms} {n : Nat}

theorem Tracks.groupRest {p : Counting Unit} {q : Nat → Scan Unit} (h : Tracks p q) (k : GroupFront) :
    Tracks (groupRest p k) fun depth => Scan.groupRest (do Scan.descend depth; q (depth + 1)) k := by
  cases k with
  | captures number => exact h.inside.bind fun _ => tracks_scan _
  | plain => exact h.inside.bind fun _ => tracks_scan _
  | bare => exact tracks_pure ()

theorem Tracks.branch {p : Counting Bool} {q : Nat → Scan Bool} (h : Tracks p q) :
    Tracks (branch v p n) fun depth => Scan.branch v (q depth) n := by
  induction n with
  | zero => exact tracks_pure ()
  | succ n ih => exact h.bind fun _ => tracks_ite ((tracks_scan _).bind fun _ => ih) (tracks_pure ())

theorem Tracks.alternatives {p : Counting Unit} {q : Nat → Scan Unit} (h : Tracks p q) :
    Tracks (alternatives p n) fun depth => Scan.alternatives (q depth) n := by
  induction n with
  | zero => exact tracks_pure ()
  | succ n ih =>
    exact (tracks_scan _).bind fun _ => tracks_ite ((tracks_scan _).bind fun _ => h.bind fun _ => ih) (tracks_pure ())

theorem Tracks.regexp {p : Counting Bool} {q : Nat → Scan Bool} (h : Tracks p q) :
    Tracks (regexp v p n) fun depth => Scan.regexp v (q depth) n :=
  h.branch.bind fun _ => h.branch.alternatives

/-- Behind an atom the counter is back, whether it has been found, is missing or has failed. -/
theorem tracks_atom : Tracks (atom o atoms n) (Scan.atom o atoms n) := by
  induction n with
  | zero => exact tracks_pure false
  | succ n ih =>
    intro s depth
    rw [atom, run_bind, show run (scan (Scan.isAt '(')) ⟨s, depth⟩ =
      (.ok (s.cursor.current == some (CodeUnit.ofBasic '(')), ⟨s, depth⟩) from rfl]
    -- Only the inside of a group sees the counter raised, and it has less fuel.
    by_cases h : s.cursor.current = some (CodeUnit.ofBasic '(')
    · have hgroup : Tracks
          (do groupRest (regexp o.variant (atom o atoms n) n) (← scan (Scan.front o atoms n)); return true)
          (fun depth => do Scan.groupRest (Scan.enclosed o atoms n depth) (← Scan.front o atoms n); return true) :=
        (tracks_scan _).bind fun k => (Tracks.groupRest ih.regexp k).bind fun _ => tracks_pure true
      rw [Scan.run_atom_group depth h, ← hgroup s depth, h]
      rfl
    · rw [Scan.run_atom_leaf depth h, ← tracks_scan (Scan.leaf o atoms n) s depth, beq_eq_false_iff_ne.mpr h]
      rfl

end Counting

end XmlPattern
