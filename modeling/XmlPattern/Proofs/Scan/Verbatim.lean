import XmlPattern.Proofs.Scan.Patterns
import XmlPattern.Proofs.Scan.Rewriting

/-!
# Native patterns

A scan of a native pattern succeeds exactly when the pattern has a syntax tree, and writes then the tree with clamped
bounds, whichever tree it is. Soundness goes by induction on the fuel of the scanner, completeness by induction on the
tree.

- `convertNative_sound`: a conversion that succeeds has a syntax tree.
- `convertNative_complete`: a pattern with a syntax tree is converted.
- `pattern_conversion`: what is written for it is the tree with clamped bounds.
-/

namespace XmlPattern

open CodeUnit Grammar
open Verbatim (IsFlags insideSigns)

namespace Scan

variable {s s' t : ScanState} {o : Options} {n m depth : Nat} {G G' : Groups} {es : List Event} {text out : List Char}

/-! ## States between atoms -/

/-- A state between atoms of a native pattern, with enough fuel for what is left. -/
structure Poised (o : Options) (n : Nat) (s : ScanState) : Prop where
  options : s.options = o
  inClass : s.cursor.inClass = false
  fuel : s.cursor.remaining ≤ n

theorem Poised.follows (hs : Poised o n s) (ht : Turns G es text out G') (hf : Follows es s s')
    (hm : s'.cursor.remaining ≤ m) : Poised o m s' where
  options := by rw [follows_options hf, hs.options]
  inClass := by rw [follows_inClass hf, hs.inClass, ht.mode]
  fuel := hm

theorem groups_of_turns (ht : Turns s.groups es text out G') (hf : Follows es s s') : s'.groups = G' := by
  rw [follows_groups hf, ht.groups]

theorem remaining_lt_of_turns (ht : Turns G es text out G') (hne : text ≠ []) (hf : Follows es s s') :
    s'.cursor.remaining < s.cursor.remaining := by
  obtain ⟨c, rest, rfl⟩ := List.exists_cons_of_ne_nil hne
  have hlt := follows_remaining hf false
  have hlen : (passed false es).length = (encode (c :: rest)).length := by
    rw [← List.length_map (·.1), map_passed, ht.taken]
  have hpos : 0 < (encode (c :: rest)).length := by
    rw [show encode (c :: rest) = ofChar c ++ encode rest from rfl]
    rcases ofChar_cases c with ⟨u, hu, _⟩ | ⟨u, v, hu, _⟩ <;> simp [hu]
  omega

theorem remaining_lt_of_copiedAtom {a : Verbatim.Atom} (h : a.Legal o depth) (hf : Follows (a.course G) s s') :
    s'.cursor.remaining < s.cursor.remaining :=
  remaining_lt_of_turns (a.turns G h) (List.ne_nil_of_length_pos (Verbatim.Atom.starts h).length_pos) hf

/-- An atom is over at a state. -/
def EndsCopied (s : ScanState) : Verbatim.Atom → Prop
  | .leaf (.escape e) => EndsEscape s e
  | _ => True

/-- Whether an atom is over is told by the text that is passed next, or by what comes behind if there is none. -/
theorem endsCopied_iff {a : Verbatim.Atom} (ht : Turns G es text out G') (hf : Follows es s s') :
    EndsCopied s a ↔ a.EndsBefore text ∧ (text = [] → EndsCopied s' a) := by
  cases a with
  | leaf l =>
    cases l with
    | escape e => exact endsEscape_iff hf ht.taken
    | char c | charClass negated body | flags fs => exact iff_of_true trivial ⟨trivial, fun _ => trivial⟩
  | capturing r | group flags sign r => exact iff_of_true trivial ⟨trivial, fun _ => trivial⟩

/-- An atom of a native pattern stands between two states. -/
def IsCopied (o : Options) (depth : Nat) (s s' : ScanState) (a : Verbatim.Atom) : Prop :=
  a.Legal o depth ∧ Follows (a.course s.groups) s s' ∧ EndsCopied s' a

theorem finds_groupBody {nested close : Scan Unit} :
    (groupBody nested close).Finds s () s' ↔
      ∃ t u, nested.Finds s () t ∧ t.cursor.current = some (unit ')') ∧ close.Finds t () u ∧ s' = u.copied := by
  unfold groupBody
  constructor
  · intro h
    obtain ⟨_, t, hnested, h⟩ := finds_bind.mp h
    obtain ⟨hparen, h⟩ := finds_expect_bind.mp h
    obtain ⟨_, u, hclose, h⟩ := finds_bind.mp h
    exact ⟨t, u, hnested, hparen, hclose, finds_copy.mp h⟩
  · rintro ⟨t, u, hnested, hparen, hclose, rfl⟩
    refine finds_bind.mpr ⟨(), t, hnested, finds_expect_bind.mpr ⟨hparen, ?_⟩⟩
    exact finds_bind.mpr ⟨(), u, hclose, finds_copy.mpr rfl⟩

/-! ## Soundness -/

/-- What the inside of a group is found to be. -/
def FindsCopied (o : Options) (n depth : Nat) (nested : Scan Unit) : Prop :=
  ∀ s s', Poised o n s → nested.Finds s () s' →
    depth < o.maxDepth ∧ ∃ r : Verbatim.Regexp, r.Legal o (depth + 1) ∧ Follows (r.course s.groups) s s'

/-- What a question mark behind the parenthesis begins: flags alone, or a group that does not capture. -/
theorem copyFlagged_sound {nested : Scan Unit} (hin : FindsCopied o n depth nested) (hs : Poised o (n + 1) s)
    (hopen : s.cursor.current = some (unit '(')) (hquestion : s.copied.cursor.current = some (unit '?')) {inside : Bool}
    (hhead : (copyGroupHead n).Finds s.copied.copied inside t)
    (h : (if inside then groupBody nested (pure ()) else pure ()).Finds t () s') : ∃ a, IsCopied o depth s s' a := by
  have hfuel := hs.fuel
  have hlt := remaining_lt_of_copied hopen
  have hlt' := remaining_lt_of_copied hquestion
  obtain ⟨flags, sign, hflags, hsign, hhf⟩ := copyGroupHead_sound hhead
  have hfront : Follows (echo ('(' :: '?' :: (flags ++ [sign]))) s t :=
    (follows_echoed (by decide)).mpr ⟨hopen, (follows_echoed (by decide)).mpr ⟨hquestion, hhf⟩⟩
  cases inside with
  | false =>
    obtain ⟨_, rfl⟩ := finds_pure.mp h
    obtain rfl : sign = ')' := hsign
    exact ⟨.leaf (.flags flags), hflags, hfront, trivial⟩
  | true =>
    have hle := follows_remaining_le hhf
    have hturns := turns_echo s.groups ('(' :: '?' :: (flags ++ [sign]))
    obtain ⟨_, u, hnested, hparen, hclose, rfl⟩ := finds_groupBody.mp h
    obtain ⟨_, rfl⟩ := finds_pure.mp hclose
    obtain ⟨hdepth, r, hr, hf⟩ := hin t u (hs.follows hturns hfront (by omega)) hnested
    rw [groups_of_turns hturns hfront] at hf
    have hback := (follows_echo_singleton (by decide)).mpr ⟨hparen, rfl⟩
    exact ⟨.group flags sign r, ⟨hflags, hsign, hdepth, hr⟩,
      follows_append.mpr ⟨t, hfront, follows_append.mpr ⟨u, hf, hback⟩⟩, trivial⟩

theorem copyCapturing_sound {nested : Scan Unit} (hin : FindsCopied o n depth nested) (hs : Poised o (n + 1) s)
    (hopen : s.cursor.current = some (unit '('))
    (h : (groupBody nested (closeGroup (s.copied.opened + 1))).Finds s.copied.openGroup () s') :
    ∃ a, IsCopied o depth s s' a := by
  have hfuel := hs.fuel
  have hlt := remaining_lt_of_copied hopen
  have hfront : Follows (echo ['('] ++ [.opens]) s s.copied.openGroup :=
    follows_append.mpr ⟨s.copied, (follows_echo_singleton (by decide)).mpr ⟨hopen, rfl⟩, rfl⟩
  have hturns := turns_opens s.groups
  obtain ⟨u, _, hnested, hparen, hclose, rfl⟩ := finds_groupBody.mp h
  obtain rfl := finds_closeGroup.mp hclose
  have hpoised : Poised o n s.copied.openGroup := hs.follows hturns hfront (show s.copied.cursor.remaining ≤ n by omega)
  obtain ⟨hdepth, r, hr, hf⟩ := hin s.copied.openGroup u hpoised hnested
  have hgroups := groups_of_turns hturns hfront
  have hnumber : s.copied.opened + 1 = s.groups.opened + 1 := congrArg Groups.opened hgroups
  rw [hgroups] at hf
  have hback : Follows (.closes (s.groups.opened + 1) :: echo [')']) u (u.closeGroup (s.copied.opened + 1)).copied := by
    rw [hnumber]
    exact (follows_echo_singleton (s := u.closeGroup (s.groups.opened + 1)) (by decide)).mpr ⟨hparen, rfl⟩
  have hall := follows_append.mpr ⟨_, hfront, follows_append.mpr ⟨u, hf, hback⟩⟩
  exact ⟨.capturing r, ⟨hdepth, hr⟩, hall, trivial⟩

theorem copyGroup_sound {nested : Scan Unit} (hin : FindsCopied o n depth nested) (hs : Poised o (n + 1) s)
    (hopen : s.cursor.current = some (unit '(')) (h : (copyGroup n nested).Finds s () s') :
    ∃ a, IsCopied o depth s s' a := by
  rw [copyGroup, finds_copy_bind, finds_isAt_bind] at h
  split at h
  · next hmark =>
    obtain ⟨inside, t, hhead, h⟩ := finds_bind.mp (finds_copy_bind.mp h)
    exact copyFlagged_sound hin hs hopen (beq_iff_eq.mp hmark) hhead h
  · rw [finds_openGroup_bind] at h
    exact copyCapturing_sound hin hs hopen h

theorem metaChars_lt {c : Char} (h : c ∈ Verbatim.metaChars) : c.toNat < 0x80 := by
  have hall : ∀ c ∈ Verbatim.metaChars, c.toNat < 0x80 := List.all_iff_forall_prop.mp (by decide)
  exact hall c h

theorem isNativeOperator_or_starts {c : Char} (h : c ∈ Verbatim.metaChars) :
    isNativeOperator c = true ∨ c ∈ ['(', '[', '\\'] := by
  have hall : ∀ c ∈ Verbatim.metaChars, isNativeOperator c = true ∨ c ∈ ['(', '[', '\\'] :=
    List.all_iff_forall_prop.mp (by decide)
  exact hall c h

theorem copiedCharacter_sound {u : CodeUnit} (hu : s.cursor.current = some u)
    (hmeta : ∀ c, u.toAscii? = some c → c ∉ Verbatim.metaChars) (h : copyCharacter.Finds s () s') :
    ∃ a, IsCopied o depth s s' a := by
  obtain ⟨c, hf⟩ := (finds_copyCharacter (by rw [hu]; exact Option.some_ne_none u)).mp h
  have hf : Follows (echoed c ++ []) s s' := by rwa [List.append_nil]
  refine ⟨.leaf (.char c), fun hmem => ?_, hf, trivial⟩
  exact hmeta c (toAscii?_of_echoed hf hu (metaChars_lt hmem)) hmem

theorem nativeAtom_sound {nested : Scan Unit} {b : Bool} (hin : FindsCopied o n depth nested) (hs : Poised o (n + 1) s)
    (h : (nativeAtom n nested).Finds s b s') : b = false ∧ s' = s ∨ b = true ∧ ∃ a, IsCopied o depth s s' a := by
  rw [nativeAtom, finds_current_bind] at h
  split at h
  · obtain ⟨rfl, rfl⟩ := finds_pure.mp h
    exact .inl ⟨rfl, rfl⟩
  · next u hu =>
    split at h
    · next hc =>
      obtain ⟨rfl, hp⟩ := finds_found.mp h
      exact .inr ⟨rfl, copyGroup_sound hin hs (current_of_ascii hu hc) hp⟩
    · next hc =>
      obtain ⟨rfl, hp⟩ := finds_found.mp h
      obtain ⟨negated, body, hbody, hhead, hf⟩ := copyClass_sound (current_of_ascii hu hc) hs.fuel hp
      rw [hs.inClass] at hf
      exact .inr ⟨rfl, .leaf (.charClass negated body), ⟨hbody, hhead⟩, hf, trivial⟩
    · next hc =>
      obtain ⟨rfl, hp⟩ := finds_found.mp h
      obtain ⟨e, he, hf, hends⟩ := copyEscape_sound (current_of_ascii hu hc) hs.fuel hp
      exact .inr ⟨rfl, .leaf (.escape e), he, hf, hends⟩
    · next c hopen hbracket hbackslash hc =>
      dsimp only at h
      split at h
      · obtain ⟨rfl, rfl⟩ := finds_pure.mp h
        exact .inl ⟨rfl, rfl⟩
      · next hop =>
        have hmeta : c ∉ Verbatim.metaChars := by
          intro hmem
          have hstart := (isNativeOperator_or_starts hmem).resolve_left hop
          simp only [List.mem_cons, List.not_mem_nil, or_false] at hstart
          rcases hstart with rfl | rfl | rfl
          · exact hopen rfl
          · exact hbracket rfl
          · exact hbackslash rfl
        split at h
        · obtain ⟨rfl, hp⟩ := finds_found.mp h
          obtain ⟨hlt, _⟩ := CodeUnit.toAscii?_eq_some.mp hc
          exact .inr ⟨rfl, .leaf (.char c), hmeta,
            (follows_echo_singleton (by omega)).mpr ⟨current_of_ascii hu hc, finds_copy.mp hp⟩, trivial⟩
        · obtain ⟨rfl, hp⟩ := finds_found.mp h
          refine .inr ⟨rfl, copiedCharacter_sound hu (fun d hd => ?_) hp⟩
          rwa [Option.some.inj (hc.symm.trans hd)] at hmeta
    · next hc =>
      obtain ⟨rfl, hp⟩ := finds_found.mp h
      refine .inr ⟨rfl, copiedCharacter_sound hu (fun d hd => ?_) hp⟩
      exact absurd (hc.symm.trans hd) (Option.some_ne_none d).symm

/-- What the scanner of atoms is found to copy. -/
def CopiesAtoms (o : Options) (n depth : Nat) (atom : Scan Bool) : Prop :=
  ∀ s b s', Poised o n s → atom.Finds s b s' → b = false ∧ s' = s ∨ b = true ∧ ∃ a, IsCopied o depth s s' a

theorem copiedBranch_sound {atom : Scan Bool} (hatom : CopiesAtoms o n depth atom) (hs : Poised o n s)
    (hm : s.cursor.remaining ≤ m) (h : (branch o.variant atom m).Finds s () s') :
    ∃ b : Verbatim.Branch, b.Legal o depth ∧ Follows (b.course s.groups) s s' := by
  induction m generalizing s with
  | zero =>
    obtain ⟨_, rfl⟩ := finds_pure.mp h
    exact ⟨.nil, trivial, rfl⟩
  | succ m ih =>
    obtain ⟨found, t, ha, hrest⟩ := finds_bind.mp h
    rcases hatom s found t hs ha with ⟨rfl, rfl⟩ | ⟨rfl, a, hl, hf, he⟩
    · obtain ⟨_, rfl⟩ := finds_pure.mp hrest
      exact ⟨.nil, trivial, rfl⟩
    · have haturns := a.turns s.groups hl
      have hlt := remaining_lt_of_copiedAtom hl hf
      obtain ⟨_, u, hq, hrest⟩ := finds_bind.mp hrest
      obtain ⟨q, hql, hqf, hqe⟩ := (finds_quantifier (by omega)).mp hq
      have hqturns := turns_quantifier (a.after s.groups) hql
      have hle := follows_remaining_le hqf
      have hfuel := hs.fuel
      have hfront := haturns.append hqturns
      have hff := follows_append.mpr ⟨t, hf, hqf⟩
      obtain ⟨b, hb, hbf⟩ := ih (hs.follows hfront hff (by omega)) (by omega) hrest
      rw [groups_of_turns hfront hff] at hbf
      have hbehind := follows_append.mpr ⟨u, hqf, hbf⟩
      -- Where a number in the atom ends is known only now: the quantifier and the branch tell what comes behind it.
      have hends := ((endsCopied_iff (hqturns.append (b.turns _ hb)) hbehind).mp he).1
      exact ⟨.cons a q b, ⟨hl, hql, hends, hb⟩, follows_append.mpr ⟨t, hf, hbehind⟩⟩

/-- Branches behind a first one that has been found. -/
theorem copiedAlternatives_sound {atom : Scan Bool} {b : Verbatim.Branch} (hatom : CopiesAtoms o n depth atom)
    (hs : Poised o n s) (hb : b.Legal o depth) (hf : Follows (b.course s.groups) s t) (hm : t.cursor.remaining ≤ m)
    (h : (alternatives (branch o.variant atom n) m).Finds t () s') :
    ∃ r : Verbatim.Regexp, r.Legal o depth ∧ Follows (r.course s.groups) s s' := by
  induction m generalizing s t b with
  | zero =>
    obtain ⟨_, rfl⟩ := finds_pure.mp h
    exact ⟨.branch b, hb, hf⟩
  | succ m ih =>
    rw [alternatives, finds_isAt_bind] at h
    split at h
    · next hbar =>
      have hcopy : Follows (echo ['|']) t t.copied := (follows_echo_singleton (by decide)).mpr ⟨beq_iff_eq.mp hbar, rfl⟩
      have hlt := remaining_lt_of_copied (beq_iff_eq.mp hbar)
      have hle := follows_remaining_le hf
      have hfuel := hs.fuel
      have hfront := (b.turns s.groups hb).append (turns_echo _ ['|'])
      have hff := follows_append.mpr ⟨t, hf, hcopy⟩
      have ht : Poised o n t.copied := hs.follows hfront hff (by omega)
      obtain ⟨_, u, hbranch, hrest⟩ := finds_bind.mp (finds_copy_bind.mp h)
      obtain ⟨b', hb', hf'⟩ := copiedBranch_sound hatom ht ht.fuel hbranch
      have hle' := follows_remaining_le hf'
      obtain ⟨r, hr, hfr⟩ := ih ht hb' hf' (by omega) hrest
      rw [groups_of_turns hfront hff] at hfr
      exact ⟨.bar b r, ⟨hb, hr⟩, follows_append.mpr ⟨t, hf, follows_append.mpr ⟨t.copied, hcopy, hfr⟩⟩⟩
    · obtain ⟨_, rfl⟩ := finds_pure.mp h
      exact ⟨.branch b, hb, hf⟩

theorem copiedRegexp_sound {atom : Scan Bool} (hatom : CopiesAtoms o n depth atom) (hs : Poised o n s)
    (h : (regexp o.variant atom n).Finds s () s') :
    ∃ r : Verbatim.Regexp, r.Legal o depth ∧ Follows (r.course s.groups) s s' := by
  obtain ⟨_, t, hbranch, hrest⟩ := finds_bind.mp h
  obtain ⟨b, hb, hf⟩ := copiedBranch_sound hatom hs hs.fuel hbranch
  exact copiedAlternatives_sound hatom hs hb hf (Nat.le_trans (follows_remaining_le hf) hs.fuel) hrest

theorem copiedAtom_sound : CopiesAtoms o n depth (atom o .native n depth) := by
  induction n generalizing depth with
  | zero =>
    intro s b s' hs h
    obtain ⟨rfl, rfl⟩ := finds_pure.mp h
    exact .inl ⟨rfl, rfl⟩
  | succ n ih =>
    intro s b s' hs h
    rw [atom_native] at h
    refine nativeAtom_sound (fun t u ht hnested => ?_) hs h
    rw [enclosed, finds_descend_bind, ht.options] at hnested
    exact ⟨hnested.1, copiedRegexp_sound ih ht hnested.2⟩

/-! ## Completeness -/

theorem EndsBranch.endsCopied (h : EndsBranch s) (a : Verbatim.Atom) : EndsCopied s a := by
  cases a with
  | leaf l =>
    cases l with
    | escape e =>
      cases e with
      | lettered letter operand => trivial
      | numbered digits =>
        intro c hc
        rw [← Bool.not_eq_true]
        exact fun hd => h.not_digit hd (ascii_eq_some.mp hc).2
    | char c | charClass negated body | flags fs => trivial
  | capturing r | group flags sign r => trivial

/-- What stands in front of a text that does not begin with a quantifier is past quantifiers. -/
theorem pastQuantifier_of_turns (ht : Turns G es text out G') (htext : Native.EndsPiece text) (hf : Follows es s s')
    (hend : EndsBranch s') : PastQuantifier s := by
  have hall : ∀ c ∈ ['*', '?', '+', '\x7b'], c ∈ Native.quantifiers ∧ c.toNat < 0x80 :=
    List.all_iff_forall_prop.mp (by decide)
  intro c hc hcur
  cases text with
  | nil => exact hend.pastQuantifier c hc ((current_of_taken_nil hf ht.taken).trans hcur)
  | cons d rest =>
    have hascii := (ascii_of_taken hf ht.taken).symm.trans (ascii_of_current hcur (hall c hc).2)
    split at hascii
    · obtain rfl := Option.some.inj hascii
      exact htext d rfl (hall d hc).1
    · cases hascii

theorem copiedCharacter_complete {c : Char} {nested : Scan Unit} (hc : c ∉ Verbatim.metaChars)
    (hf : Follows (echoed c) s s') :
    (nativeAtom n nested).Finds s true s' := by
  have hall : Follows (echoed c ++ []) s s' := by rwa [List.append_nil]
  obtain ⟨u, hu⟩ := Option.ne_none_iff_exists'.mp (current_ne_none_of_echoed hall)
  have heq : ∀ {d}, u.toAscii? = some d → c = d := eq_of_ascii_of_echoed hall hu
  have hcopy := finds_found.mpr ⟨rfl, copyCharacter_complete hf⟩
  simp only [nativeAtom, finds_current_bind, hu]
  split
  · next hd => exact absurd (heq hd ▸ hc) (by decide)
  · next hd => exact absurd (heq hd ▸ hc) (by decide)
  · next hd => exact absurd (heq hd ▸ hc) (by decide)
  · next d _ _ _ hd =>
    obtain rfl := heq hd
    have hoperator : isNativeOperator c = false := by
      have hsub : ['?', '*', '+', ')', '\x7b', '\x7d', '|'] ⊆ Verbatim.metaChars := by decide
      exact decide_eq_false fun hmem => hc (hsub hmem)
    rw [hoperator, if_neg Bool.false_ne_true]
    split
    · obtain ⟨hlt, _⟩ := CodeUnit.toAscii?_eq_some.mp hd
      have hsingle := (follows_echo_singleton (by omega)).mp (echo_singleton c ▸ hf)
      exact finds_found.mpr ⟨rfl, finds_copy.mpr hsingle.2⟩
    · exact hcopy
  · exact hcopy

theorem copiedLeaf_complete {l : Verbatim.Leaf} {nested : Scan Unit} (hs : Poised o (n + 1) s) (hl : l.Legal)
    (hf : Follows l.course s s') (he : EndsCopied s' (.leaf l)) : (nativeAtom n nested).Finds s true s' := by
  cases l with
  | char c => exact copiedCharacter_complete hl (echo_singleton c ▸ hf)
  | escape e =>
    rw [nativeAtom, finds_current_bind, (current_of_escape hf).1]
    exact finds_found.mpr ⟨rfl, copyEscape_complete hl hs.fuel hf he⟩
  | charClass negated body =>
    obtain ⟨hopen, _⟩ := (follows_echoed (c := '[') (by decide)).mp (follows_mode.mp hf)
    have hopen : s.cursor.current = some (unit '[') := hopen
    rw [nativeAtom, finds_current_bind, hopen]
    refine finds_found.mpr ⟨rfl, copyClass_complete hl.1 hl.2 hs.fuel ?_⟩
    rwa [hs.inClass]
  | flags fs =>
    obtain ⟨hopen, hmark⟩ := (follows_echoed (c := '(') (by decide)).mp hf
    obtain ⟨hquestion, hhead⟩ := (follows_echoed (c := '?') (by decide)).mp hmark
    have hlt := remaining_lt_of_copied hopen
    have hlt' := remaining_lt_of_copied hquestion
    have hfuel := hs.fuel
    rw [nativeAtom, finds_current_bind, hopen]
    refine finds_found.mpr ⟨rfl, ?_⟩
    rw [copyGroup, finds_copy_bind, finds_isAt_bind, if_pos (beq_iff_eq.mpr hquestion), finds_copy_bind]
    exact finds_bind.mpr ⟨false, s', copyGroupHead_complete hl rfl (by omega) hhead, finds_pure.mpr ⟨rfl, rfl⟩⟩

/-- A parenthesis begins a group. -/
theorem run_nativeGroup {nested body : Scan Unit} (hopen : s.cursor.current = some (unit '('))
    (h : (copyGroup n nested).run s = body.run t) :
    (nativeAtom n nested).run s = (body >>= fun _ => pure true).run t := by
  refine (run_bind_of_run rfl).trans ?_
  rw [hopen]
  show (copyGroup n nested >>= fun _ => pure true).run s = _
  rw [run_bind, run_bind, h]

/--
A group with some inside stands between two states: a scan of it comes to its inside, and goes on with the parenthesis
behind the inside, whatever scans the inside.
-/
def OpensGroup (o : Options) (n : Nat) (r : Verbatim.Regexp) (s s' : ScanState) : Prop :=
  ∃ close t u v, Poised o n t ∧ Follows (r.course t.groups) t u ∧ u.cursor.current = some (unit ')') ∧
    close.Finds u () v ∧ s' = v.copied ∧
    ∀ nested, (nativeAtom n nested).run s = (groupBody nested close >>= fun _ => pure true).run t

section

variable {r : Verbatim.Regexp} {nested : Scan Unit}

theorem OpensGroup.complete (h : OpensGroup o n r s s')
    (hnested : ∀ {t u}, Poised o n t → Follows (r.course t.groups) t u → u.cursor.current = some (unit ')') →
      nested.Finds t () u) : (nativeAtom n nested).Finds s true s' := by
  obtain ⟨close, t, u, v, ht, hf, hparen, hclose, rfl, hrun⟩ := h
  rw [Finds, hrun nested]
  exact finds_found.mpr ⟨rfl, finds_groupBody.mpr ⟨u, v, hnested ht hf hparen, hparen, hclose, rfl⟩⟩

/-- A group that captures has its inside behind a parenthesis. -/
theorem copiedCapturing_opens {p : Options} (hs : Poised o (n + 1) s) (hr : r.Legal p (depth + 1))
    (hf : Follows (Verbatim.Atom.course s.groups (.capturing r)) s s') : OpensGroup o n r s s' := by
  have hfront := turns_opens s.groups
  have hf : Follows ((echo ['('] ++ [.opens]) ++
    (r.course s.groups.open ++ .closes (s.groups.opened + 1) :: echo [')'])) s s' := hf
  obtain ⟨t, hff, hf⟩ := follows_append.mp hf
  obtain ⟨u, hrf, hclose⟩ := follows_append.mp hf
  obtain ⟨hparen, rfl⟩ := (follows_echo_singleton (s := u.closeGroup (s.groups.opened + 1)) (by decide)).mp hclose
  obtain ⟨hopen, rfl⟩ := (follows_echoed (c := '(') (by decide)).mp hff
  have hparen : u.cursor.current = some (unit ')') := hparen
  have hfuel := hs.fuel
  have hlt := remaining_lt_of_copied hopen
  have ht : Poised o n s.copied.openGroup := hs.follows hfront hff (show s.copied.cursor.remaining ≤ n by omega)
  have hgroups : s.copied.openGroup.groups = s.groups.open := groups_of_turns hfront hff
  have hnumber : s.copied.opened + 1 = s.groups.opened + 1 := congrArg Groups.opened hgroups
  -- The inside does not begin with the question mark of a group that does not capture.
  have hquestion : s.copied.cursor.current ≠ some (unit '?') :=
    pastQuantifier_of_turns (r.turns _ hr) (Verbatim.Regexp.endsPiece hr) hrf (.inr (.inl hparen)) '?' (by decide)
  rw [← hgroups] at hrf
  refine ⟨closeGroup (s.groups.opened + 1), _, u, _, ht, hrf, hparen, finds_closeGroup.mpr rfl, rfl, fun nested => ?_⟩
  have hgroup : (copyGroup n nested).run s =
      (groupBody nested (closeGroup (s.groups.opened + 1))).run s.copied.openGroup := by
    refine (run_bind_of_run run_copy).trans ((run_bind_of_run rfl).trans ?_)
    rw [if_neg fun he => hquestion (beq_iff_eq.mp he), ← hnumber]
    exact run_bind_of_run rfl
  exact run_nativeGroup hopen hgroup

/-- Any other group has its inside behind its head. -/
theorem copiedGroup_opens {flags : List Char} {sign : Char} (hflags : IsFlags flags) (hsign : sign ∈ insideSigns)
    (hs : Poised o (n + 1) s) (hf : Follows (Verbatim.Atom.course s.groups (.group flags sign r)) s s') :
    OpensGroup o n r s s' := by
  have hfront := turns_echo s.groups ('(' :: '?' :: (flags ++ [sign]))
  obtain ⟨t, hff, hf⟩ := follows_append.mp hf
  obtain ⟨u, hrf, hclose⟩ := follows_append.mp hf
  obtain ⟨hparen, rfl⟩ := (follows_echo_singleton (by decide)).mp hclose
  obtain ⟨hopen, hmark⟩ := (follows_echoed (c := '(') (by decide)).mp hff
  obtain ⟨hquestion, hhead⟩ := (follows_echoed (c := '?') (by decide)).mp hmark
  have hfuel := hs.fuel
  have hlt := remaining_lt_of_copied hopen
  have hlt' := remaining_lt_of_copied hquestion
  have hle := follows_remaining_le hhead
  have ht : Poised o n t := hs.follows hfront hff (by omega)
  rw [← groups_of_turns hfront hff] at hrf
  refine ⟨pure (), t, u, u, ht, hrf, hparen, finds_pure.mpr ⟨rfl, rfl⟩, rfl, fun nested => ?_⟩
  have hfinds : (copyGroupHead n).Finds s.copied.copied true t := copyGroupHead_complete hflags hsign (by omega) hhead
  have hgroup : (copyGroup n nested).run s = (groupBody nested (pure ())).run t := by
    refine (run_bind_of_run run_copy).trans ((run_bind_of_run rfl).trans ?_)
    rw [if_pos (beq_iff_eq.mpr hquestion)]
    exact (run_bind_of_run run_copy).trans (run_bind_of_run hfinds)
  exact run_nativeGroup hopen hgroup

end

theorem nativeAtom_of_end (hend : EndsBranch s) : (atom o .native n depth).Finds s false s := by
  cases n with
  | zero => exact finds_pure.mpr ⟨rfl, rfl⟩
  | succ n =>
    rw [atom_native, nativeAtom, finds_current_bind]
    rcases hend with h | h | h <;> rw [h] <;> exact finds_pure.mpr ⟨rfl, rfl⟩

theorem nativeBranch_of_end (hend : EndsBranch s) : (branch o.variant (atom o .native n depth) m).Finds s () s := by
  cases m with
  | zero => exact finds_pure.mpr ⟨rfl, rfl⟩
  | succ m => exact finds_bind.mpr ⟨false, s, nativeAtom_of_end hend, finds_pure.mpr ⟨rfl, rfl⟩⟩

/-- A branch that is not empty begins with an atom and its quantifier, and what is left of it comes behind them. -/
theorem copiedPiece {p : Options} {a : Verbatim.Atom} {q : Option Quantifier} {b : Verbatim.Branch} (hs : Poised o n s)
    (ha : a.Legal p depth) (hq : ∀ x ∈ q, x.Legal o.variant)
    (hbefore : a.EndsBefore (q.elim [] Quantifier.text ++ b.text))
    (hb : b.Legal p depth) (hf : Follows (Verbatim.Branch.course s.groups (.cons a q b)) s s') (hend : EndsBranch s') :
    ∃ t u, Follows (a.course s.groups) s t ∧ EndsCopied t a ∧ t.cursor.remaining < s.cursor.remaining ∧
      (∀ m, t.cursor.remaining ≤ m → (quantifier o.variant m).Finds t () u) ∧ Poised o n u ∧
      u.cursor.remaining < s.cursor.remaining ∧ Follows (b.course u.groups) u s' := by
  obtain ⟨t, haf, hbehind⟩ := follows_append.mp hf
  obtain ⟨u, hqf, hbf⟩ := follows_append.mp hbehind
  have hlt := remaining_lt_of_copiedAtom ha haf
  have hle := follows_remaining_le hqf
  have hfuel := hs.fuel
  have hqturns := turns_quantifier (a.after s.groups) hq
  have hfront := (a.turns s.groups ha).append hqturns
  have hff := follows_append.mpr ⟨t, haf, hqf⟩
  have hbturns := b.turns (a.after s.groups) hb
  have hu : Poised o n u := hs.follows hfront hff (by omega)
  have hpast := pastQuantifier_of_turns hbturns (Verbatim.Branch.endsPiece hb) hbf hend
  have hends : EndsQuantifier o.variant u q := by
    cases q with
    | none => exact hpast
    | some q => exact fun _ _ => hpast '?' (by decide)
  have hends' := (endsCopied_iff (hqturns.append hbturns) hbehind).mpr ⟨hbefore, fun _ => hend.endsCopied a⟩
  rw [← groups_of_turns hfront hff] at hbf
  exact ⟨t, u, haf, hends', hlt, fun m hm => (finds_quantifier hm).mpr ⟨q, hq, hqf, hends⟩, hu, by omega, hbf⟩

/-- A pattern with a bar begins with a branch, and what is left of it comes behind the bar. -/
theorem copiedBar {p : Options} {b : Verbatim.Branch} {r : Verbatim.Regexp} (hs : Poised o n s) (hb : b.Legal p depth)
    (hf : Follows (Verbatim.Regexp.course s.groups (.bar b r)) s s') :
    ∃ t, Follows (b.course s.groups) s t ∧ t.cursor.current = some (unit '|') ∧ Poised o n t.copied ∧
      t.copied.cursor.remaining < s.cursor.remaining ∧ Follows (r.course t.copied.groups) t.copied s' := by
  obtain ⟨t, hbf, hrest⟩ := follows_append.mp hf
  obtain ⟨_, hcopy, hrf⟩ := follows_append.mp hrest
  obtain ⟨hbar, rfl⟩ := (follows_echo_singleton (by decide)).mp hcopy
  have hlt := remaining_lt_of_copied hbar
  have hle := follows_remaining_le hbf
  have hfuel := hs.fuel
  have hfront := (b.turns s.groups hb).append (turns_echo _ ['|'])
  have hff := follows_append.mpr ⟨t, hbf, hcopy⟩
  have ht : Poised o n t.copied := hs.follows hfront hff (by omega)
  rw [← groups_of_turns hfront hff] at hrf
  exact ⟨t, hbf, hbar, ht, by omega, hrf⟩

mutual

theorem copiedAtom_complete (o : Options) : (a : Verbatim.Atom) → {s s' : ScanState} → {n depth : Nat} → Poised o n s →
    IsCopied o depth s s' a → (atom o .native n depth).Finds s true s'
  | a, s, s', 0, depth, hs, ha => by
    -- No atom is empty, so fuel for what is left does not run out in front of one.
    have hlt := remaining_lt_of_copiedAtom ha.1 ha.2.1
    have hfuel := hs.fuel
    omega
  | .leaf l, s, s', n + 1, depth, hs, ha => copiedLeaf_complete hs ha.1 ha.2.1 ha.2.2
  | .capturing r, s, s', n + 1, depth, hs, ha => by
    rw [atom_native]
    refine (copiedCapturing_opens hs ha.1.2 ha.2.1).complete fun ht hf hparen => ?_
    rw [enclosed, finds_descend_bind, ht.options]
    exact ⟨ha.1.1, copiedRegexp_complete o r ht ht.fuel ha.1.2 hf (.inr hparen)⟩
  | .group flags sign r, s, s', n + 1, depth, hs, ha => by
    obtain ⟨⟨hflags, hsign, hdepth, hr⟩, hf, _⟩ := ha
    rw [atom_native]
    refine (copiedGroup_opens hflags hsign hs hf).complete fun ht hf hparen => ?_
    rw [enclosed, finds_descend_bind, ht.options]
    exact ⟨hdepth, copiedRegexp_complete o r ht ht.fuel hr hf (.inr hparen)⟩

theorem copiedBranch_complete (o : Options) : (b : Verbatim.Branch) → {s s' : ScanState} → {n m depth : Nat} →
    Poised o n s → s.cursor.remaining ≤ m → b.Legal o depth → Follows (b.course s.groups) s s' → EndsBranch s' →
    (branch o.variant (atom o .native n depth) m).Finds s () s'
  | .nil, s, s', n, m, depth, _, _, _, hf, hend => by
    obtain rfl := hf
    exact nativeBranch_of_end hend
  | .cons a q b, s, s', n, m, depth, hs, hm, hl, hf, hend => by
    obtain ⟨ha, hq, hbefore, hb⟩ := hl
    obtain ⟨t, u, haf, hends, hlt, hquant, hu, hlt', hbf⟩ := copiedPiece hs ha hq hbefore hb hf hend
    obtain ⟨m, rfl⟩ := Nat.exists_eq_add_one.mpr (show 0 < m by omega)
    refine finds_bind.mpr ⟨true, t, copiedAtom_complete o a hs ⟨ha, haf, hends⟩, ?_⟩
    exact finds_bind.mpr ⟨(), u, hquant m (by omega), copiedBranch_complete o b hu (by omega) hb hbf hend⟩

theorem copiedRegexp_complete (o : Options) : (r : Verbatim.Regexp) → {s s' : ScanState} → {n m depth : Nat} →
    Poised o n s → s.cursor.remaining ≤ m → r.Legal o depth → Follows (r.course s.groups) s s' → EndsRegexp s' →
    (do
      branch o.variant (atom o .native n depth) n
      alternatives (branch o.variant (atom o .native n depth) n) m).Finds s () s'
  | .branch b, s, s', n, m, depth, hs, _, hl, hf, hend =>
    finds_bind.mpr
      ⟨(), s', copiedBranch_complete o b hs hs.fuel hl hf hend.endsBranch, alternatives_of_end hend.not_bar⟩
  | .bar b r, s, s', n, m, depth, hs, hm, hl, hf, hend => by
    obtain ⟨t, hbf, hbar, ht, hlt, hrf⟩ := copiedBar hs hl.1 hf
    obtain ⟨m, rfl⟩ := Nat.exists_eq_add_one.mpr (show 0 < m by omega)
    refine finds_bind.mpr ⟨(), t, copiedBranch_complete o b hs hs.fuel hl.1 hbf (.inr (.inr hbar)), ?_⟩
    rw [alternatives, finds_isAt_bind, if_pos (beq_iff_eq.mpr hbar), finds_copy_bind]
    exact copiedRegexp_complete o r ht (by omega) hl.2 hrf hend

end

end Scan

/-! ## Whole patterns -/

section

variable {o : Options} {units : List CodeUnit} {c : Conversion} {r : Verbatim.Regexp}

theorem poised_start (o : Options) (units : List CodeUnit) :
    Scan.Poised o (ScanState.ofUnits o units).cursor.remaining (ScanState.ofUnits o units).advance where
  options := rfl
  inClass := rfl
  fuel := (ready_start o units).fuel

/-- A tree is the syntax of a native pattern: it is a pattern of the grammar, and the pattern spells it. -/
def Verbatim.Regexp.IsSyntaxOf (o : Options) (r : Verbatim.Regexp) (units : List CodeUnit) : Prop :=
  r.Legal o 0 ∧ Spells o.foldBlanks false (passed false (r.course {})) units

/-- Where blanks count, a tree is the syntax of the text that it is written as. -/
theorem Verbatim.Regexp.isSyntaxOf_iff (hfold : o.foldBlanks = false) :
    r.IsSyntaxOf o units ↔ r.Legal o 0 ∧ encode r.text = units := by
  rw [IsSyntaxOf, hfold]
  refine and_congr_right fun hr => ?_
  rw [spells_iff, map_passed, (r.turns {} hr).taken]
  exact eq_comm

/-- A native pattern that is converted has a syntax tree. -/
theorem convertNative_sound (h : convertPattern o .native units = .ok c) :
    ∃ r : Verbatim.Regexp, r.IsSyntaxOf o units := by
  obtain ⟨s, hexpr, hend, _⟩ := convertPattern_eq_ok.mp h
  obtain ⟨r, hr, hf⟩ := Scan.copiedRegexp_sound Scan.copiedAtom_sound (poised_start o units) hexpr
  exact ⟨r, hr, follows_to_end_iff.mp ⟨s, hf, hend⟩⟩

/-- The conversion of a native pattern by its syntax tree. -/
def Verbatim.Regexp.conversion (o : Options) (r : Verbatim.Regexp) : Conversion where
  fragments := written (r.course {})
  dialect := .scalar
  variant := o.variant
  multiLine := o.multiLine
  captureCount := (r.after {}).opened
  warnings := []

/-- A native pattern with a syntax tree is converted. -/
theorem convertNative_complete (h : r.IsSyntaxOf o units) : convertPattern o .native units = .ok (r.conversion o) := by
  obtain ⟨hr, hspells⟩ := h
  obtain ⟨s, hf, hend⟩ := follows_to_end_iff.mpr hspells
  have hstart := poised_start o units
  have hexpr := Scan.copiedRegexp_complete o r hstart hstart.fuel hr hf (.inl hend)
  have hturns := r.turns {} hr
  have hwarnings : s.warnings.toList.map Diagnostic.reason = [] := by
    rw [follows_warnings hf, hturns.warned]
    rfl
  refine convertPattern_eq_ok.mpr ⟨s, hexpr, hend, ?_⟩
  have houtput : s.output.toList = written (r.course {}) := follows_output hf
  have hopened : s.opened = (r.after {}).opened := congrArg Groups.opened ((follows_groups hf).trans hturns.groups)
  rw [houtput, hopened, List.map_eq_nil_iff.mp hwarnings]
  rfl

/-- What is written for a native pattern is its tree with clamped bounds. -/
theorem pattern_conversion {depth : Nat} (h : r.Legal o depth) : (r.conversion o).pattern = r.clamped.text :=
  (r.turns {} h).written

end

end XmlPattern
