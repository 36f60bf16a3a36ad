import XmlPattern.Proofs.Scan.Failing
import XmlPattern.Proofs.Scan.Quiet

/-!
# Groups and classes are left in order

A scanner of the grammar closes no group but one that it has opened itself, and leaves a class that it has entered,
unless it fails inside. So wherever a scan comes to, and wherever it fails, the numbers of the groups closed are among
those given out, and behind a scanner that succeeds the cursor is in a class exactly if it was in front of it.

- `ScanState.Numbered`: the groups closed are among those opened, and so many have been opened at least.
- `Orderly.bind`: scanners in a row keep this in order if each of them does.
- `alwaysOrderly_atom`, `alwaysOrderly_pattern`: atoms do, and whole patterns.
-/

namespace XmlPattern

namespace ScanState

/-- Groups are closed under numbers that have been given out, and so many have been. -/
def Numbered (k : Nat) (s : ScanState) : Prop := k ≤ s.opened ∧ ∀ m ∈ s.closed, 1 ≤ m ∧ m ≤ s.opened

variable {s t : ScanState} {k m : Nat}

theorem numbered_ofUnits (o : Options) (units : List CodeUnit) : (ofUnits o units).Numbered 0 := ⟨Nat.le_refl 0, nofun⟩

theorem Numbered.of_groups (h : s.Numbered k) (ht : t.groups = s.groups) : t.Numbered k := by
  have hopened : t.opened = s.opened := congrArg Grammar.Groups.opened ht
  have hclosed : t.closed = s.closed := congrArg Grammar.Groups.closed ht
  rwa [Numbered, hopened, hclosed]

theorem Numbered.le (h : s.Numbered m) (hk : k ≤ m) : s.Numbered k := ⟨Nat.le_trans hk h.1, h.2⟩

theorem Numbered.openGroup (h : s.Numbered k) : s.openGroup.Numbered (s.opened + 1) :=
  ⟨Nat.le_refl _, fun m hm => ⟨(h.2 m hm).1, Nat.le_succ_of_le (h.2 m hm).2⟩⟩

theorem Numbered.closeGroup (h : s.Numbered k) (hk : 1 ≤ k) : (s.closeGroup k).Numbered k :=
  ⟨h.1, List.forall_mem_cons.mpr ⟨⟨hk, h.1⟩, h.2⟩⟩

end ScanState

namespace Scan

variable {α β γ : Type} {p : Scan α} {f : α → Scan β} {q : Scan γ} {s t : ScanState} {k : Nat} {o : Options} {n : Nat}

/-! ## Parts that a scan comes to -/

theorem calls_pure {a : α} (h : Calls (pure a) s q t) : t = s := by
  cases h with
  | here => rfl

theorem calls_command {c : Command α} (h : Calls (command c) s q t) : t = s := by
  cases h with
  | here => rfl

theorem calls_bind (h : Calls (p >>= f) s q t) : t = s ∨ Calls p s q t ∨ ∃ a u, p.Finds s a u ∧ Calls (f a) u q t := by
  cases h with
  | here => exact .inl rfl
  | first _ h => exact .inr (.inl h)
  | behind hp h => exact .inr (.inr ⟨_, _, hp, h⟩)

/-! ## Order -/

/--
From a state a scanner keeps the groups numbered wherever it comes to and however it ends, and unless it fails the
cursor is then in a class exactly if it was before.
-/
structure Orderly (k : Nat) (p : Scan α) (s : ScanState) : Prop where
  along {γ : Type} {q : Scan γ} {t : ScanState} : Calls p s q t → t.Numbered k
  after : (p.run s).2.Numbered k
  inClass {a : α} {t : ScanState} : p.Finds s a t → t.cursor.inClass = s.cursor.inClass

/-- A scanner is orderly wherever groups are numbered. -/
def AlwaysOrderly (p : Scan α) : Prop := ∀ ⦃k s⦄, s.Numbered k → Orderly k p s

theorem Orderly.of_finds {a : α} (h : Orderly k p s) (ha : p.Finds s a t) : t.Numbered k := by
  rw [ha.state_eq]
  exact h.after

theorem Orderly.bind (hp : Orderly k p s) (hf : ∀ a u, p.Finds s a u → u.Numbered k → Orderly k (f a) u) :
    Orderly k (p >>= f) s where
  along h := by
    rcases calls_bind h with rfl | h | ⟨a, u, ha, h⟩
    · exact hp.along (.here p _)
    · exact hp.along h
    · exact (hf a u ha (hp.of_finds ha)).along h
  after := by
    have hafter := hp.after
    rw [run_bind]
    cases hrun : p.run s with
    | mk r u =>
      rw [hrun] at hafter
      cases r with
      | error d => exact hafter
      | ok a => exact (hf a u hrun hafter).after
  inClass h := by
    obtain ⟨a, u, ha, h⟩ := finds_bind.mp h
    exact ((hf a u ha (hp.of_finds ha)).inClass h).trans (hp.inClass ha)

theorem Orderly.le {m : Nat} (h : Orderly m p s) (hk : k ≤ m) : Orderly k p s :=
  ⟨fun hq => (h.along hq).le hk, h.after.le hk, h.inClass⟩

theorem AlwaysOrderly.bind (hp : AlwaysOrderly p) (hf : ∀ a, AlwaysOrderly (f a)) : AlwaysOrderly (p >>= f) :=
  fun _ _ h => (hp h).bind fun a _ _ hu => hf a hu

/-! ## Quiet scanners -/

/-- A scanner that opens and closes no group keeps them numbered wherever it comes to. -/
theorem numbered_of_calls {modes : Bool} (hp : Quiet modes p) (h : s.Numbered k) (hc : Calls p s q t) :
    t.Numbered k := by
  induction p generalizing s with
  | done a => exact calls_pure hc ▸ h
  | command c => exact calls_command hc ▸ h
  | andThen p f ihp ihf =>
    rcases calls_bind (f := f) hc with rfl | hc | ⟨a, u, ha, hc⟩
    · exact h
    · exact ihp hp.1 h hc
    · exact ihf a (hp.2 a) (h.of_groups (groups_of_finds hp.1 ha)) hc

/-- Where classes may be entered, they are to be left too. -/
theorem alwaysOrderly_of_modes {modes : Bool} (hp : Quiet modes p)
    (hmode : ∀ ⦃s a t⦄, p.Finds s a t → t.cursor.inClass = s.cursor.inClass) : AlwaysOrderly p :=
  fun _ s h => ⟨numbered_of_calls hp h, h.of_groups (groups_run hp s), @hmode s⟩

theorem alwaysOrderly_of_quiet (hp : Quiet false p) : AlwaysOrderly p :=
  alwaysOrderly_of_modes hp fun _ _ _ => inClass_of_finds hp

/-! ## Classes -/

/-- Unless it fails the scanner tells the cursor whether it is in a class, and nothing changes that behind. -/
def LeavesMode (b : Bool) (p : Scan α) : Prop := ∀ ⦃s a t⦄, p.Finds s a t → t.cursor.inClass = b

theorem LeavesMode.behind {b : Bool} (h : ∀ a, LeavesMode b (f a)) : LeavesMode b (p >>= f) := by
  intro s c t hc
  obtain ⟨a, u, _, hc⟩ := finds_bind.mp hc
  exact h a hc

theorem leavesMode_fail {b : Bool} {r : Reason} : LeavesMode b (fail r : Scan α) :=
  fun _ _ _ h => (finds_fail.mp h).elim

theorem leavesMode_setInClass {b : Bool} {g : Unit → Scan β} (hg : Quiet false (g ())) :
    LeavesMode b (setInClass b >>= g) := fun _ _ _ h => inClass_of_finds hg (finds_setInClass_bind.mp h)

theorem leavesMode_ite {b : Bool} {c : Prop} [Decidable c] {p q : Scan α} (hp : LeavesMode b p) (hq : LeavesMode b q) :
    LeavesMode b (if c then p else q) := by
  split
  · exact hp
  · exact hq

theorem alwaysOrderly_classExpr : AlwaysOrderly (classExpr o n) := by
  refine alwaysOrderly_of_modes quiet_classExpr fun s cs t h => ?_
  cases n with
  | zero => exact (finds_fail.mp h).elim
  | succ n =>
    have hlast : ∀ chars : CharSet, LeavesMode s.cursor.inClass (do
        setInClass s.cursor.inClass
        advance
        return chars) := fun chars => leavesMode_setInClass (by simp)
    have hchars : ∀ listed : CharSet, LeavesMode s.cursor.inClass (do
        let chars ← if ← isAt '-' then subtraction (classExpr o n) listed else pure listed
        setInClass s.cursor.inClass
        advance
        return chars) := fun listed =>
      .behind fun _ => leavesMode_ite (.behind fun _ => hlast _) (.behind fun _ => hlast _)
    rw [classExpr, finds_inClass_bind] at h
    refine LeavesMode.behind (fun _ => .behind fun _ => .behind fun negated => ?_) h
    refine leavesMode_ite (.behind fun _ => .behind fun _ => ?_) (.behind fun _ => ?_)
    · exact leavesMode_ite (.behind fun _ => .behind fun _ => hchars _) (.behind fun _ => hchars _)
    · exact leavesMode_ite (.behind fun _ => .behind fun _ => hchars _) (.behind fun _ => hchars _)

theorem leavesMode_copyClassRest (outer : Bool) (inner : Nat) : LeavesMode outer (copyClassRest outer n inner) := by
  induction n generalizing inner with
  | zero => exact leavesMode_fail
  | succ n ih =>
    refine .behind fun u => ?_
    cases u with
    | none => exact leavesMode_fail
    | some u =>
      dsimp only
      split
      · exact .behind fun _ => ih _
      · exact .behind fun _ => ih _
      · exact leavesMode_setInClass quiet_copy
      · exact .behind fun _ => ih _
      · exact .behind fun _ => ih _

theorem alwaysOrderly_copyClass : AlwaysOrderly (copyClass n) := by
  refine alwaysOrderly_of_modes quiet_copyClass fun s a t h => ?_
  rw [copyClass, finds_inClass_bind] at h
  have hrest : LeavesMode s.cursor.inClass (do
      if ← isAt ']' then copy
      copyClassRest s.cursor.inClass n 0) := .behind fun _ =>
    leavesMode_ite (.behind fun _ => leavesMode_copyClassRest _ _) (leavesMode_copyClassRest _ _)
  refine LeavesMode.behind (fun _ => .behind fun _ => .behind fun _ => leavesMode_ite (.behind fun _ => hrest) hrest) h

/-! ## Groups -/

variable {v : Variant} {nested : Scan Unit}

/-- A number that has been given out may be closed. -/
theorem orderly_closeGroup (hk : 1 ≤ k) (h : s.Numbered k) : Orderly k (closeGroup k) s where
  along hc := calls_command hc ▸ h
  after := h.closeGroup hk
  inClass h := by rw [finds_closeGroup.mp h]; rfl

/-- What follows may rely on the number that has been given out. -/
theorem orderly_openGroup_bind {f : Nat → Scan β} (hf : ∀ ⦃m u⦄, 1 ≤ m → u.Numbered m → Orderly m (f m) u)
    (h : s.Numbered k) : Orderly k (openGroup >>= f) s := by
  have hnext := hf (Nat.succ_le_succ (Nat.zero_le _)) h.openGroup
  have hle : k ≤ s.opened + 1 := Nat.le_succ_of_le h.1
  constructor
  · intro γ q t hc
    rcases calls_bind hc with rfl | hc | ⟨m, u, hm, hc⟩
    · exact h
    · exact calls_command hc ▸ h
    · cases hm
      exact (hnext.along hc).le hle
  · exact hnext.after.le hle
  · intro b t hb
    exact hnext.inClass (finds_openGroup_bind.mp hb)

theorem orderly_groupBody {close : Scan Unit} (hn : AlwaysOrderly nested)
    (hclose : ∀ ⦃u⦄, u.Numbered k → Orderly k close u) (h : s.Numbered k) : Orderly k (groupBody nested close) s := by
  refine (hn h).bind fun _ t _ h => ?_
  refine (alwaysOrderly_of_quiet (quiet_expect _) h).bind fun _ t _ h => ?_
  exact (hclose h).bind fun _ t _ h => alwaysOrderly_of_quiet quiet_copy h

theorem alwaysOrderly_capturingGroup (hn : AlwaysOrderly nested) : AlwaysOrderly (capturingGroup nested) := by
  refine fun _ _ h => orderly_openGroup_bind (fun m u hm h => ?_) h
  refine (alwaysOrderly_of_quiet (quiet_writeText _) h).bind fun _ _ _ h => ?_
  exact orderly_groupBody hn (fun _ h => orderly_closeGroup hm h) h

theorem alwaysOrderly_plainGroup (hn : AlwaysOrderly nested) : AlwaysOrderly (groupBody nested (pure ())) :=
  fun _ _ h => orderly_groupBody hn (fun _ h => alwaysOrderly_of_quiet (quiet_pure _) h) h

theorem alwaysOrderly_group (hn : AlwaysOrderly nested) : AlwaysOrderly (group v nested) := by
  refine .bind (alwaysOrderly_of_quiet quiet_advance) fun _ => .bind (alwaysOrderly_of_quiet (quiet_isAt _)) fun b => ?_
  split
  · refine .bind (alwaysOrderly_of_quiet quiet_advance) fun _ =>
      .bind (alwaysOrderly_of_quiet (quiet_expect _)) fun _ => ?_
    refine .bind (alwaysOrderly_of_quiet quiet_advance) fun _ =>
      .bind (alwaysOrderly_of_quiet (quiet_writeText _)) fun _ => ?_
    exact alwaysOrderly_plainGroup hn
  · exact alwaysOrderly_capturingGroup hn

theorem alwaysOrderly_copyGroup (hn : AlwaysOrderly nested) : AlwaysOrderly (copyGroup n nested) := by
  refine .bind (alwaysOrderly_of_quiet quiet_copy) fun _ => .bind (alwaysOrderly_of_quiet (quiet_isAt _)) fun b => ?_
  split
  · refine .bind (alwaysOrderly_of_quiet quiet_copy) fun _ =>
      .bind (alwaysOrderly_of_quiet quiet_copyGroupHead) fun b => ?_
    split
    · exact alwaysOrderly_plainGroup hn
    · exact alwaysOrderly_of_quiet (quiet_pure _)
  · refine fun _ _ h => orderly_openGroup_bind (fun m u hm h => ?_) h
    exact orderly_groupBody hn (fun _ h => orderly_closeGroup hm h) h

/-! ## Atoms -/

/-- That an atom has been found does not matter to order. -/
theorem AlwaysOrderly.found {p : Scan Unit} (h : AlwaysOrderly p) {b : Bool} : AlwaysOrderly (do p; return b) :=
  h.bind fun _ => alwaysOrderly_of_quiet (quiet_pure b)

theorem alwaysOrderly_schemaAtom (hn : AlwaysOrderly nested) : AlwaysOrderly (schemaAtom o n nested) := by
  refine .bind (alwaysOrderly_of_quiet quiet_current) fun u => ?_
  cases u with
  | none => exact alwaysOrderly_of_quiet (quiet_pure _)
  | some u =>
    dsimp only
    split
    · exact (alwaysOrderly_group hn).found
    · exact alwaysOrderly_of_quiet (by simp)
    · exact alwaysOrderly_classExpr.bind fun _ => alwaysOrderly_of_quiet (by simp)
    · exact alwaysOrderly_of_quiet (by simp)
    · exact alwaysOrderly_of_quiet (by simp)
    · exact alwaysOrderly_of_quiet (by simp)

theorem alwaysOrderly_nativeAtom (hn : AlwaysOrderly nested) : AlwaysOrderly (nativeAtom n nested) := by
  refine .bind (alwaysOrderly_of_quiet quiet_current) fun u => ?_
  cases u with
  | none => exact alwaysOrderly_of_quiet (quiet_pure _)
  | some u =>
    dsimp only
    split
    · exact (alwaysOrderly_copyGroup hn).found
    · exact alwaysOrderly_copyClass.found
    · exact alwaysOrderly_of_quiet (by simp)
    · exact alwaysOrderly_of_quiet (by simp)
    · exact alwaysOrderly_of_quiet (by simp)

/-! ## Patterns -/

theorem alwaysOrderly_branch {atom : Scan Bool} (ha : AlwaysOrderly atom) : AlwaysOrderly (branch v atom n) := by
  induction n with
  | zero => exact alwaysOrderly_of_quiet (quiet_pure _)
  | succ n ih =>
    refine ha.bind fun found => ?_
    split
    · exact (alwaysOrderly_of_quiet (quiet_quantifier v)).bind fun _ => ih
    · exact alwaysOrderly_of_quiet (quiet_pure _)

theorem alwaysOrderly_alternatives {branch : Scan Unit} (hb : AlwaysOrderly branch) :
    AlwaysOrderly (alternatives branch n) := by
  induction n with
  | zero => exact alwaysOrderly_of_quiet (quiet_pure _)
  | succ n ih =>
    refine .bind (alwaysOrderly_of_quiet (quiet_isAt _)) fun bar => ?_
    split
    · exact .bind (alwaysOrderly_of_quiet quiet_copy) fun _ => hb.bind fun _ => ih
    · exact alwaysOrderly_of_quiet (quiet_pure _)

theorem alwaysOrderly_regexp {atom : Scan Bool} (ha : AlwaysOrderly atom) : AlwaysOrderly (regexp v atom n) :=
  (alwaysOrderly_branch ha).bind fun _ => alwaysOrderly_alternatives (alwaysOrderly_branch ha)

theorem alwaysOrderly_atom (atoms : Atoms) (depth : Nat) : AlwaysOrderly (atom o atoms n depth) := by
  induction n generalizing depth with
  | zero => exact alwaysOrderly_of_quiet (quiet_pure _)
  | succ n ih =>
    have hnested : AlwaysOrderly (enclosed o atoms n depth) :=
      .bind (alwaysOrderly_of_quiet (quiet_descend depth)) fun _ => alwaysOrderly_regexp (ih _)
    cases atoms with
    | schema d => exact alwaysOrderly_schemaAtom hnested
    | native => exact alwaysOrderly_nativeAtom hnested

theorem alwaysOrderly_pattern (atoms : Atoms) : AlwaysOrderly (pattern o atoms n) := by
  refine .bind (alwaysOrderly_of_quiet quiet_advance) fun _ =>
    .bind (alwaysOrderly_regexp (alwaysOrderly_atom atoms 0)) fun _ => ?_
  exact alwaysOrderly_of_quiet (by simp)

end Scan

end XmlPattern
