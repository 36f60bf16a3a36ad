import XmlPattern.Proofs.Grammar.Captures
import XmlPattern.Proofs.Scan.Failing

/-!
# Ranges in the wrong order

Where a scan has come to that fails because a range ends before it starts. Only the items of a class can cause that, so
that what stands in front of the range is the front of a class expression, and what stands in front of that is atoms,
with their quantifiers, and the opening parentheses around the class.

- `fails_members`, `fails_classExpr`: in a list and in a class expression, by induction on the fuel.
- `fails_expression`: in a pattern.
-/

namespace XmlPattern

namespace Grammar

/-- The front of a class expression, up to an item of its innermost list. -/
inductive ClassFront (v : Variant) : List CodeUnit → Prop where
  | items {g : ClassGroup} : g.hyphenLast = false → (∀ i ∈ g.items, i.Legal v) → ClassFront v (unit '[' :: g.units)
  | subtrahend {g : ClassGroup} {us : List CodeUnit} :
      g.Legal v → g.hyphenLast = false → ClassFront v us → ClassFront v (unit '[' :: g.units ++ unit '-' :: us)

end Grammar

open Grammar

namespace Scan

variable {α β : Type} {s s' t u : ScanState} {o : Options} {n m depth : Nat}

/-! ## What fails for other causes -/

/-- A scanner that never fails because a range is in the wrong order. -/
abbrev KeepsOrder (p : Scan α) : Prop := FailsOnly (· ≠ .reversedRange) p

theorem keepsOrder_character : KeepsOrder character := by
  refine .bind (.of_run fun _ => rfl) fun u => ?_
  cases u with
  | none => exact failsOnly_pure _
  | some u =>
    dsimp only
    split
    · refine .bind (.of_run fun _ => rfl) fun _ => .bind (.of_run fun _ => rfl) fun v => ?_
      cases v with
      | none => exact failsOnly_fail (by decide)
      | some v =>
        dsimp only
        split
        · exact failsOnly_pure _
        · exact failsOnly_fail (by decide)
    · split
      · exact failsOnly_fail (by decide)
      · exact failsOnly_pure _

theorem keepsOrder_expect (c : Char) : KeepsOrder (expect c) := by
  refine .bind (.of_run fun _ => rfl) fun b => ?_
  cases b with
  | false => exact failsOnly_fail (Reason.noConfusion)
  | true => exact failsOnly_pure _

theorem keepsOrder_copy : KeepsOrder copy := .of_run fun _ => run_copy

theorem keepsOrder_descend (depth : Nat) : KeepsOrder (descend depth) := by
  intro s d t h
  rw [run_descend] at h
  split at h
  · cases h
    exact Reason.noConfusion
  · cases h

theorem finds_descend (h : (descend depth).Finds s () t) : t = s := by
  have h : (descend depth >>= pure).Finds s () t := finds_bind.mpr ⟨(), t, h, finds_pure.mpr ⟨rfl, rfl⟩⟩
  exact (finds_pure.mp (finds_descend_bind.mp h).2).2

theorem keepsOrder_braced (n : Nat) : KeepsOrder (braced n) := by
  induction n with
  | zero => exact failsOnly_fail (by decide)
  | succ n ih =>
    refine .bind (.of_run fun _ => rfl) fun u => ?_
    cases u with
    | none => exact failsOnly_fail (by decide)
    | some u =>
      have hrest : KeepsOrder (do advance; return u :: (← braced n)) :=
        .bind (.of_run fun _ => rfl) fun _ => ih.bind fun _ => failsOnly_pure _
      dsimp only
      split
      · exact failsOnly_pure _
      · exact hrest

theorem keepsOrder_namedChars (v : Variant) (name : List Char) : KeepsOrder (Scan.namedChars v name) := by
  have hblock : ∀ name, KeepsOrder (blockChars v name) := by
    intro name
    unfold blockChars
    split
    · exact failsOnly_pure _
    · have hrest : KeepsOrder (do warn (.toleratedBlock name); return CharSet.full) :=
        .bind (.of_run fun _ => rfl) fun _ => failsOnly_pure _
      split
      · exact hrest
      · exact .bind (failsOnly_fail (Reason.noConfusion)) fun _ => hrest
  unfold Scan.namedChars
  split
  · exact hblock _
  · split
    · exact failsOnly_pure _
    · exact failsOnly_fail (Reason.noConfusion)

theorem keepsOrder_escape (o : Options) (n : Nat) : KeepsOrder (escape o n) := by
  have hproperty : ∀ negated, KeepsOrder (propertyEscape o n negated) := fun negated =>
    .bind (.of_run fun _ => rfl) fun _ => (keepsOrder_expect _).bind fun _ => .bind (.of_run fun _ => rfl) fun _ =>
      (keepsOrder_braced n).bind fun _ => (keepsOrder_namedChars _ _).bind fun _ =>
        .bind (.of_run fun _ => rfl) fun _ =>
        failsOnly_pure _
  refine .bind (.of_run fun _ => rfl) fun c => ?_
  split
  · exact failsOnly_fail (by decide)
  · exact hproperty false
  · exact hproperty true
  · split
    · exact .bind (.of_run fun _ => rfl) fun _ => failsOnly_pure _
    · exact .bind (.of_run fun _ => rfl) fun _ => failsOnly_pure _
    · exact failsOnly_fail (Reason.noConfusion)

theorem keepsOrder_member (o : Options) (n : Nat) : KeepsOrder (member o n) := by
  refine .bind (.of_run fun _ => rfl) fun c => ?_
  split
  · exact .bind (.of_run fun _ => rfl) fun _ => keepsOrder_escape o n
  · exact failsOnly_fail (by decide)
  · exact failsOnly_fail (by decide)
  · exact keepsOrder_character.bind fun _ => .bind (.of_run fun _ => rfl) fun _ => failsOnly_pure _

theorem keepsOrder_plainCharacter (o : Options) : KeepsOrder (plainCharacter o) :=
  keepsOrder_character.bind fun _ => .bind (.of_run fun _ => rfl) fun _ => .of_run fun _ => rfl

theorem keepsOrder_schemaEscape (o : Options) (n : Nat) : KeepsOrder (schemaEscape o n) := by
  have hnumber : ∀ n number, KeepsOrder (referenceNumber n number) := by
    intro n
    induction n with
    | zero => exact fun number => failsOnly_pure _
    | succ n ih =>
      intro number
      refine .bind (.of_run fun _ => rfl) fun _ => .bind (.of_run fun _ => rfl) fun c => ?_
      cases c with
      | none => exact failsOnly_pure _
      | some c =>
        refine .bind (.of_run fun _ => rfl) fun k => ?_
        split
        · exact ih _
        · exact failsOnly_pure _
  have hreference : ∀ c, KeepsOrder (backReference o n c) := by
    intro c
    refine (hnumber _ _).bind fun number => .bind (.of_run fun _ => rfl) fun b => ?_
    have hwrite : KeepsOrder (write (.reference number o.caseBlind)) := .of_run fun _ => rfl
    split
    · exact hwrite
    · exact .bind (.of_run fun _ => rfl) fun _ => .bind (failsOnly_fail (Reason.noConfusion)) fun _ => hwrite
  have hescape : KeepsOrder (do write (memberFragment o (← escape o n)) : Scan Unit) :=
    (keepsOrder_escape o n).bind fun _ => .of_run fun _ => rfl
  refine .bind (.of_run fun _ => rfl) fun _ => .bind (.of_run fun _ => rfl) fun c => ?_
  cases c with
  | none => exact hescape
  | some c =>
    dsimp only
    split
    · exact hreference c
    · exact hescape

theorem keepsOrder_quantifier (v : Variant) (n : Nat) : KeepsOrder (quantifier v n) := by
  have hmark : KeepsOrder (lazyMark v) := by
    refine .bind (.of_run fun _ => rfl) fun b => ?_
    split
    · exact keepsOrder_copy
    · exact failsOnly_pure _
  have hdigits : KeepsOrder (digits n) := (failsOnly_digits n).mono fun r hr => hr ▸ Reason.noConfusion
  have hbounds : KeepsOrder (bounds n) := by
    refine hdigits.bind fun lower => .bind (.of_run fun _ => rfl) fun _ => .bind (.of_run fun _ => rfl) fun b => ?_
    split
    · refine keepsOrder_copy.bind fun _ => .bind (.of_run fun _ => rfl) fun b => ?_
      split
      · exact failsOnly_pure _
      · refine hdigits.bind fun upper => .bind (.of_run fun _ => rfl) fun _ => ?_
        split
        · exact failsOnly_fail (by decide)
        · exact failsOnly_pure _
    · exact failsOnly_pure _
  refine .bind (.of_run fun _ => rfl) fun c => ?_
  split
  · exact keepsOrder_copy.bind fun _ => hmark
  · exact keepsOrder_copy.bind fun _ => hmark
  · exact keepsOrder_copy.bind fun _ => hmark
  · exact keepsOrder_copy.bind fun _ => hbounds.bind fun _ => (keepsOrder_expect _).bind fun _ =>
      keepsOrder_copy.bind fun _ => hmark
  · exact failsOnly_pure _

/-! ## Lists -/

/--
What is found behind a state to be a range in the wrong order. At the end of an expression NUL is taken for its upper
end.
-/
def MeetsReversed (v : Variant) (s t : ScanState) : Prop :=
  ∃ (x : Single) (upper : List CodeUnit) (u : ScanState), x.LegalMember v ∧
    Follows (reads (x.units ++ unit '-' :: upper)) s u ∧ t.cursor = u.cursor ∧
    ((∃ y : Single, y.LegalMember v ∧ y.char < x.char ∧ upper = y.units) ∨
      upper = [] ∧ u.cursor.current = none ∧ '\x00' < x.char)

/-- Items of a list, and then a range in the wrong order. -/
def ItemsFail (v : Variant) (s t : ScanState) : Prop :=
  ∃ (items : List ClassItem) (u : ScanState), (∀ i ∈ items, i.Legal v) ∧
    Follows (items.flatMap (ClassItem.course v)) s u ∧ MeetsReversed v u t

theorem ItemsFail.cons {v : Variant} {i : ClassItem} (hi : i.Legal v) (hf : Follows (i.course v) s u)
    (h : ItemsFail v u t) : ItemsFail v s t := by
  obtain ⟨items, w, hitems, hfs, hmeets⟩ := h
  refine ⟨i :: items, w, List.forall_mem_cons.mpr ⟨hi, hitems⟩, ?_, hmeets⟩
  rw [List.flatMap_cons]
  exact follows_append.mpr ⟨u, hf, hfs⟩

theorem MeetsReversed.items {v : Variant} (h : MeetsReversed v s t) : ItemsFail v s t := ⟨[], s, nofun, rfl, h⟩

/-- A cursor that has been moved on to the end is not moved any more. -/
theorem advance_of_end {c : Cursor} (h : c.advance.current = none) : c.advance.advance = c.advance := by
  have hend : c.advance.atEnd = true := by
    unfold Cursor.current at h
    split at h
    · next hc => exact hc
    · cases h
  have hrest : c.advance.rest = [] := Cursor.take_rest_of_end hend
  generalize c.advance = d at hend hrest
  obtain ⟨passed, rest, atEnd, folding, inClass⟩ := d
  obtain rfl : rest = [] := hrest
  obtain rfl : atEnd = true := hend
  rfl

/-- What a list does behind an item, when it fails. -/
theorem fails_afterItem {s₀ : CharSet} {lower : Member} (h : (afterItem o n s₀ lower).Fails .reversedRange s t) :
    (s.cursor.current ≠ some (unit '-') ∧ ∃ s₁, (members o n false s₁).Fails .reversedRange s t) ∨
      s.cursor.current = some (unit '-') ∧ s.advance.cursor.current ≠ some (unit ']') ∧
        ∃ lo hi u, lower = .char lo ∧ (member o n).Finds s.advance (.char hi) u ∧
          (hi < lo ∧ t = u ∨ lo ≤ hi ∧ ∃ s₁, (members o n false s₁).Fails .reversedRange u t) := by
  replace h := (fails_bind_of_run rfl).mp h
  split at h
  · next hhyphen =>
    replace h := (fails_bind_of_run rfl).mp h
    split at h
    · exact (fails_pure h).elim
    replace h := (fails_bind_of_run rfl).mp ((fails_bind_of_run rfl).mp h)
    split at h
    · exact (fails_pure h).elim
    · next hend =>
      obtain ⟨upper, u, hupper, h⟩ := ((keepsOrder_member o n).fails_bind (by simp)).mp h
      refine .inr ⟨beq_iff_eq.mp hhyphen, fun he => hend (beq_iff_eq.mpr he), ?_⟩
      cases lower with
      | set _ => cases (fails_fail.mp h).1
      | char lo =>
        cases upper with
        | set _ => cases (fails_fail.mp h).1
        | char hi =>
          refine ⟨lo, hi, u, rfl, hupper, ?_⟩
          dsimp only at h
          split at h
          · next hlt =>
            rcases Scan.fails_bind.mp h with h | ⟨_, _, h, _⟩
            · exact .inl ⟨hlt, (fails_fail.mp h).2⟩
            · exact (finds_fail.mp h).elim
          · next hle => exact .inr ⟨Char.not_lt.mp hle, _, h⟩
  · next hhyphen => exact .inl ⟨fun hc => hhyphen (beq_iff_eq.mpr hc), _, h⟩

theorem not_fails_members_of_end {first : Bool} {s₀ : CharSet} (hc : s.cursor.current = none) :
    ¬ (members o n first s₀).Fails .reversedRange s t := by
  intro h
  cases n with
  | zero => cases (fails_fail.mp h).1
  | succ n =>
    replace h := (fails_bind_of_run rfl).mp h
    rw [hc] at h
    cases (fails_fail.mp h).1

/-- At a hyphen of its own a list goes on, or fails for another cause. -/
theorem fails_members_hyphen {first : Bool} {s₀ : CharSet} (hc : s.cursor.current = some (unit '-'))
    (h : (members o (n + 1) first s₀).Fails .reversedRange s t) :
    (first = true ∨ s.cursor.next = some (unit ']')) ∧
      ∃ s₁, (members o n false s₁).Fails .reversedRange s.advance t := by
  replace h := (fails_bind_of_run rfl).mp h
  rw [hc] at h
  dsimp only at h
  rw [if_neg (by decide), if_pos (by decide)] at h
  replace h := (fails_bind_of_run rfl).mp h
  split at h
  · exact (fails_pure h).elim
  · split at h
    · rcases Scan.fails_bind.mp h with h | ⟨_, _, h, _⟩
      · cases (fails_fail.mp h).1
      · exact (finds_fail.mp h).elim
    · next hbehind =>
      refine ⟨?_, _, (fails_bind_of_run (p := advance) rfl).mp h⟩
      cases first with
      | true => exact .inl rfl
      | false => exact .inr (by simpa using hbehind)

theorem fails_members_item {first : Bool} {s₀ : CharSet} {c : CodeUnit} (hc : s.cursor.current = some c)
    (hbracket : c ≠ unit ']') (hhyphen : c ≠ unit '-') (h : (members o (n + 1) first s₀).Fails .reversedRange s t) :
    ∃ lower u, (member o n).Finds s lower u ∧ (afterItem o n s₀ lower).Fails .reversedRange u t := by
  replace h := (fails_bind_of_run rfl).mp h
  rw [hc] at h
  dsimp only at h
  rw [if_neg fun h => hbracket (beq_iff_eq.mp h), if_neg fun h => hhyphen (beq_iff_eq.mp h)] at h
  exact ((keepsOrder_member o n).fails_bind (by simp)).mp h

theorem not_fails_members_of_bracket {first : Bool} {s₀ : CharSet} (hc : s.cursor.current = some (unit ']')) :
    ¬ (members o n first s₀).Fails .reversedRange s t := by
  intro h
  cases n with
  | zero => cases (fails_fail.mp h).1
  | succ n =>
    replace h := (fails_bind_of_run rfl).mp h
    rw [hc] at h
    exact fails_pure h

/-- Behind a single character a list fails further on, or because the character begins a range in the wrong order. -/
theorem ItemsFail.of_single {s₀ : CharSet} {x : Single} (hl : x.LegalMember o.variant)
    (hf : Follows (reads x.units) s u) (hn : u.cursor.remaining ≤ n) (hin : u.cursor.inClass = true)
    (ih : ∀ {w : ScanState} {s₁ : CharSet}, w.cursor.remaining ≤ n → w.cursor.inClass = true →
      (members o n false s₁).Fails .reversedRange w t → ItemsFail o.variant w t)
    (h : (afterItem o n s₀ (.char x.char)).Fails .reversedRange u t) : ItemsFail o.variant s t := by
  rcases fails_afterItem h with ⟨_, _, h⟩ | ⟨hhyphen, hend, lo, hi, w, hlo, hupper, h⟩
  · exact .cons (i := .single x) hl hf (ih hn hin h)
  · obtain rfl := Member.char.inj hlo
    have hlt := ScanState.remaining_advance hhyphen
    rcases member_sound (by omega) hend hupper with ⟨y, hy, hchar, hfy⟩ | ⟨e, _, he, _⟩ | ⟨hnone, hchar, rfl⟩
    · obtain rfl := Member.char.inj hchar
      have hrange : Follows (reads (unit '-' :: y.units)) u w := ⟨hhyphen, hfy⟩
      have hboth : Follows (reads (x.units ++ unit '-' :: y.units)) s w := by
        rw [reads_append]
        exact follows_append.mpr ⟨u, hf, hrange⟩
      rcases h with ⟨hlt, rfl⟩ | ⟨hle, _, h⟩
      · exact MeetsReversed.items ⟨x, y.units, t, hl, hboth, rfl, .inl ⟨y, hy, hlt, rfl⟩⟩
      · have hrem := follows_remaining_le hrange
        have hin' : w.cursor.inClass = true := by rw [follows_inClass hrange, modeAfter_reads, hin]
        exact .cons (i := .range x y) ⟨hl, hy, hle⟩ hboth (ih (by omega) hin' h)
    · cases he
    · -- At the end of the expression the scanner of members finds NUL, and stays where it is.
      obtain rfl := Member.char.inj hchar
      have hhead : Follows (reads (x.units ++ [unit '-'])) s u.advance := by
        rw [reads_append]
        exact follows_append.mpr ⟨u, hf, hhyphen, rfl⟩
      rcases h with ⟨hlt, rfl⟩ | ⟨_, _, h⟩
      · exact MeetsReversed.items ⟨x, [], u.advance, hl, hhead, advance_of_end hnone, .inr ⟨rfl, hnone, hlt⟩⟩
      · exact (not_fails_members_of_end (Cursor.current_advance_of_end hnone) h).elim

/-- A list that is on an item fails in its items. -/
theorem ItemsFail.of_item {first : Bool} {s₀ : CharSet} {c : CodeUnit} (hn : s.cursor.remaining ≤ n + 1)
    (hin : s.cursor.inClass = true) (hc : s.cursor.current = some c) (hbracket : c ≠ unit ']') (hhyphen : c ≠ unit '-')
    (ih : ∀ {w : ScanState} {s₁ : CharSet}, w.cursor.remaining ≤ n → w.cursor.inClass = true →
      (members o n false s₁).Fails .reversedRange w t → ItemsFail o.variant w t)
    (h : (members o (n + 1) first s₀).Fails .reversedRange s t) : ItemsFail o.variant s t := by
  obtain ⟨lower, u, hlower, h⟩ := fails_members_item hc hbracket hhyphen h
  have hne : s.cursor.current ≠ some (unit ']') := fun he => hbracket (Option.some.inj (hc.symm.trans he))
  rcases member_sound hn hne hlower with ⟨x, hl, rfl, hf⟩ | ⟨e, hl, rfl, hf⟩ | ⟨he, _⟩
  · have hlt := remaining_lt (reads_of_reads x.units) (units_ne_nil_of_single x) hf
    have hin' := inClass_of_follows (v := o.variant) (i := .single x) hin hf
    exact .of_single hl hf (by omega) hin' ih h
  · have hlt := remaining_lt (e.reads_of_course o.variant) (units_ne_nil_of_set e) hf
    rcases fails_afterItem h with ⟨_, _, h⟩ | ⟨_, _, _, _, _, hlo, _⟩
    · exact .cons (i := .set e) hl hf (ih (by omega) (inClass_of_follows (i := .set e) hin hf) h)
    · cases hlo
  · rw [hc] at he
    cases he

theorem fails_members {s₀ : CharSet} (hn : s.cursor.remaining ≤ n) (hin : s.cursor.inClass = true)
    (h : (members o n false s₀).Fails .reversedRange s t) : ItemsFail o.variant s t := by
  induction n generalizing s s₀ with
  | zero => cases (fails_fail.mp h).1
  | succ n ih =>
    cases hc : s.cursor.current with
    | none => exact (not_fails_members_of_end hc h).elim
    | some c =>
      by_cases hbracket : c = unit ']'
      · exact (not_fails_members_of_bracket (hbracket ▸ hc) h).elim
      by_cases hhyphen : c = unit '-'
      · subst hhyphen
        obtain ⟨hnext, _, h⟩ := fails_members_hyphen hc h
        have hend : s.advance.cursor.current = some (unit ']') := by
          rw [← next_of_inClass hin hc]
          exact hnext.resolve_left Bool.false_ne_true
        exact (not_fails_members_of_bracket hend h).elim
      · exact .of_item hn hin hc hbracket hhyphen ih h

/-- A list from its start fails in its items, which a hyphen may stand in front of. -/
theorem fails_members_first (hn : s.cursor.remaining ≤ n) (hin : s.cursor.inClass = true)
    (h : (members o n true ∅).Fails .reversedRange s t) :
    ∃ hyphen u, Follows (hyphenCourse hyphen) s u ∧ ItemsFail o.variant u t := by
  cases hc : s.cursor.current with
  | none => exact (not_fails_members_of_end hc h).elim
  | some c =>
    have hpos := Cursor.remaining_pos hc
    obtain ⟨n, rfl⟩ := Nat.exists_eq_add_one.mpr (show 0 < n by omega)
    by_cases hbracket : c = unit ']'
    · exact (not_fails_members_of_bracket (hbracket ▸ hc) h).elim
    by_cases hhyphen : c = unit '-'
    · subst hhyphen
      have hlt := ScanState.remaining_advance hc
      obtain ⟨_, _, h⟩ := fails_members_hyphen hc h
      exact ⟨true, s.advance, ⟨hc, rfl⟩, fails_members (s := s.advance) (by omega) hin h⟩
    · exact ⟨false, s, rfl, .of_item hn hin hc hbracket hhyphen fails_members h⟩

/-! ## Class expressions -/

/-- Events lead from one state to another, and pass marks. -/
def Goes (s : ScanState) (ms : List Mark) (t : ScanState) : Prop :=
  ∃ es, Follows es s t ∧ passed s.cursor.inClass es = ms

theorem Goes.append {ms ns : List Mark} (h : Goes s ms t) (h' : Goes t ns u) : Goes s (ms ++ ns) u := by
  obtain ⟨es, hf, rfl⟩ := h
  obtain ⟨fs, hf', rfl⟩ := h'
  refine ⟨es ++ fs, follows_append.mpr ⟨t, hf, hf'⟩, ?_⟩
  rw [passed_append, follows_inClass hf]

theorem Goes.of_reads {es : List Event} {us : List CodeUnit} (hf : Follows es s t) (h : Reads es us)
    (hin : s.cursor.inClass = true) : Goes s (inside us) t := by
  refine ⟨es, hf, ?_⟩
  rw [hin, h.passed]
  rfl

theorem Goes.of_group {v : Variant} {g : ClassGroup} (hf : Follows ([.mode true, .pass (unit '[')] ++ g.course v) s t) :
    Goes s (inside (unit '[' :: g.units)) t ∧ t.cursor.inClass = true := by
  have hg := g.reads_of_course v
  constructor
  · refine ⟨_, hf, ?_⟩
    show (unit '[', true) :: passed true (g.course v) = _
    rw [hg.passed]
    rfl
  · rw [follows_inClass hf]
    exact hg.mode true

/-- The front of a class expression, and then a range in the wrong order. -/
def ClassFails (v : Variant) (s t : ScanState) : Prop :=
  ∃ us u, ClassFront v us ∧ Goes s (inside us) u ∧ u.cursor.inClass = true ∧ MeetsReversed v u t

/-- A class expression behind its caret fails in its list, or in the class expression to be subtracted. -/
theorem fails_classRest {outer negated : Bool} (h : (classRest o n outer negated).Fails .reversedRange s t) :
    (members o n true ∅).Fails .reversedRange s t ∨
      s.cursor.current ≠ some (unit ']') ∧ ∃ listed u, (members o n true ∅).Finds s listed u ∧
        u.cursor.current = some (unit '-') ∧ (classExpr o n).Fails .reversedRange u.advance t := by
  replace h := (fails_bind_of_run rfl).mp h
  split at h
  · rcases Scan.fails_bind.mp h with h | ⟨_, _, h, _⟩
    · cases (fails_fail.mp h).1
    · exact (finds_fail.mp h).elim
  · next hbracket =>
    rcases Scan.fails_bind.mp h with h | ⟨listed, u, hlisted, h⟩
    · exact .inl h
    · refine .inr ⟨fun hc => hbracket (beq_iff_eq.mpr hc), listed, u, hlisted, ?_⟩
      replace h := (fails_bind_of_run rfl).mp h
      have hleave : ∀ cs, KeepsOrder (do setInClass outer; advance; return cs : Scan CharSet) := fun cs =>
        .bind (.of_run fun _ => rfl) fun _ => .bind (.of_run fun _ => rfl) fun _ => failsOnly_pure _
      split at h
      · next hhyphen =>
        rcases Scan.fails_bind.mp h with h | ⟨_, _, _, h⟩
        · rcases Scan.fails_bind.mp ((fails_bind_of_run rfl).mp h) with h | ⟨_, _, _, h⟩
          · exact ⟨beq_iff_eq.mp hhyphen, h⟩
          · exact absurd rfl (((keepsOrder_expect _).bind fun _ => failsOnly_pure _) h)
        · exact absurd rfl (hleave _ h)
      · exact absurd rfl (hleave _ h)

/-- A class expression begins with its bracket, and perhaps with a caret. -/
theorem classExpr_enters (hn : s.cursor.remaining ≤ n + 1) (hopen : s.cursor.current = some (unit '[')) :
    ∃ negated u, (classExpr o (n + 1)).run s = (classRest o n s.cursor.inClass negated).run u ∧
      Follows ([.mode true, .pass (unit '[')] ++ reads (if negated then [unit '^'] else [])) s u ∧
      (negated = false → u.cursor.current ≠ some (unit '^')) ∧ u.cursor.inClass = true ∧ u.cursor.remaining ≤ n := by
  have hlt := ScanState.remaining_advance (s := s.setInClass true) hopen
  have hn : (s.setInClass true).cursor.remaining ≤ n + 1 := hn
  rw [run_classExpr]
  split
  · next hcaret =>
    have hlt' := ScanState.remaining_advance hcaret
    exact ⟨true, _, rfl, ⟨hopen, hcaret, rfl⟩, fun h => absurd h.symm Bool.false_ne_true, rfl, by omega⟩
  · next hcaret => exact ⟨false, _, rfl, ⟨hopen, rfl⟩, fun _ => hcaret, rfl, by omega⟩

theorem fails_classExpr (hn : s.cursor.remaining ≤ n) (hopen : s.cursor.current = some (unit '['))
    (h : (classExpr o n).Fails .reversedRange s t) : ClassFails o.variant s t := by
  induction n generalizing s with
  | zero => cases (fails_fail.mp h).1
  | succ n ih =>
    obtain ⟨negated, u, hrun, henter, hcaret, hin, hn'⟩ := classExpr_enters (o := o) hn hopen
    rw [Fails, hrun] at h
    -- Either the list fails, or it is read to its end and the class expression behind its hyphen fails.
    rcases fails_classRest h with h | ⟨hbracket, listed, w, hlisted, hhyphen, h⟩
    · obtain ⟨hyphen, w, hhyphen, items, w', hitems, hf, hmeets⟩ := fails_members_first hn' hin h
      have hg : Follows
          ([.mode true, .pass (unit '[')] ++ (⟨negated, hyphen, items, false⟩ : ClassGroup).course o.variant)
          s w' := by
        have hall := follows_append.mpr ⟨u, henter, follows_append.mpr ⟨w, hhyphen, hf⟩⟩
        simpa [ClassGroup.course, ClassGroup.members, hyphenCourse] using hall
      obtain ⟨hgoes, hin'⟩ := Goes.of_group hg
      exact ⟨_, w', .items rfl hitems, hgoes, hin', hmeets⟩
    · obtain ⟨g, hg, _⟩ := members_first_sound negated hn' hin hbracket hlisted
      have hgroup : Follows ([.mode true, .pass (unit '[')] ++ g.course o.variant) s w := by
        have hall := follows_append.mpr ⟨u, henter, hg.2.2.2.1⟩
        rwa [List.append_assoc, ← hg.1] at hall
      obtain ⟨hgoes, hin'⟩ := Goes.of_group hgroup
      obtain ⟨hlast, _, hnext⟩ := hg.2.2.2.2.resolve_left fun he => absurd (hhyphen.symm.trans he) (by decide)
      have hlt := ScanState.remaining_advance hhyphen
      have hopen' : w.advance.cursor.current = some (unit '[') := by rw [← next_of_inClass hin' hhyphen, hnext]
      have hle := follows_remaining_le hgroup
      obtain ⟨us, w', hfront, hinner, hin'', hmeets⟩ := ih (by omega) hopen' h
      have hpass : Follows (reads [unit '-']) w w.advance := ⟨hhyphen, rfl⟩
      have hall := (hgoes.append (.of_reads hpass (reads_of_reads _) hin')).append hinner
      refine ⟨_, w', .subtrahend (hg.legal hcaret) hlast hfront, ?_, hin'', hmeets⟩
      simpa [inside] using hall

/-! ## Patterns -/

/-- Parts of a pattern that lead to where nothing has begun, and then a class expression that fails. -/
def PatternFails (o : Options) (s t : ScanState) : Prop :=
  ∃ ms us u, Leads {} ms {} ∧ ClassFront o.variant us ∧ Goes s (ms ++ inside us) u ∧ u.cursor.inClass = true ∧
    MeetsReversed o.variant u t

theorem ClassFails.pattern (h : ClassFails o.variant s t) : PatternFails o s t := by
  obtain ⟨us, u, hfront, hgoes, hin, hmeets⟩ := h
  exact ⟨[], us, u, rfl, hfront, hgoes, hin, hmeets⟩

theorem PatternFails.behind {es : List Event} (hin : s.cursor.inClass = false) (hf : Follows es s u)
    (hleads : Leads {} (passed false es) {}) (h : PatternFails o u t) : PatternFails o s t := by
  obtain ⟨ms, us, w, hms, hfront, hgoes, hin', hmeets⟩ := h
  have hfirst : Goes s (passed false es) u := ⟨es, hf, by rw [hin]⟩
  have hall := hfirst.append hgoes
  rw [← List.append_assoc] at hall
  exact ⟨_, us, w, hleads.append hms, hfront, hall, hin', hmeets⟩

theorem PatternFails.behindBranch {b : Branch} (hs : Ready o n s) (hb : b.Legal o depth s.groups)
    (hf : Follows (b.course o s.groups) s u) (h : PatternFails o u t) : PatternFails o s t := by
  refine .behind hs.inClass hf ?_ h
  rw [(b.passed_course o _).1]
  exact b.leads hb

/-- Between atoms, a scanner fails in class expressions alone. -/
def FailsInClasses (o : Options) (n : Nat) (p : Scan α) : Prop :=
  ∀ s t, Ready o n s → p.Fails .reversedRange s t → PatternFails o s t

theorem fails_groupBody {nested close : Scan Unit} (hclose : KeepsOrder close)
    (h : (groupBody nested close).Fails .reversedRange s t) : nested.Fails .reversedRange s t := by
  rcases Scan.fails_bind.mp h with h | ⟨_, _, _, h⟩
  · exact h
  · exact absurd rfl (((keepsOrder_expect _).bind fun _ => hclose.bind fun _ => keepsOrder_copy) h)

theorem fails_group {nested : Scan Unit} (hin : FailsInClasses o n nested) (hs : Ready o (n + 1) s)
    (hc : s.cursor.current = some (unit '(')) (h : (group o.variant nested).Fails .reversedRange s t) :
    PatternFails o s t := by
  replace h := (fails_bind_of_run rfl).mp ((fails_bind_of_run rfl).mp h)
  split at h
  · next hx =>
    rw [Bool.and_eq_true] at hx
    have hq := beq_iff_eq.mp hx.2
    obtain ⟨_, u, hexpect, h⟩ := ((keepsOrder_expect _).fails_bind (by simp)).mp ((fails_bind_of_run rfl).mp h)
    obtain ⟨hcolon, rfl⟩ := finds_expect.mp hexpect
    replace h := fails_groupBody (failsOnly_pure _) ((fails_bind_of_run rfl).mp ((fails_bind_of_run rfl).mp h))
    have hf : Follows (reads (basic ['(', '?', ':']) ++ [.write (.verbatim ['(', '?', ':'])]) s
        (s.advance.advance.advance.write (.verbatim ['(', '?', ':'])) := ⟨hc, hq, hcolon, rfl⟩
    exact .behind hs.inClass hf (leads_text ['(', '?', ':'] (by decide)) (hin _ t (hs.afterOpeningPlain hc hq hcolon) h)
  · replace h := (fails_bind_of_run rfl).mp ((fails_bind_of_run rfl).mp h)
    replace h := fails_groupBody (.of_run fun _ => rfl) h
    have hf : Follows [.pass (unit '('), .opens, .write (.verbatim ['('])] s
        (s.advance.openGroup.write (.verbatim ['('])) := ⟨hc, rfl⟩
    exact .behind hs.inClass hf (leads_text ['('] (by decide)) (hin _ t (hs.afterOpening hc) h)

theorem fails_found {p : Scan Unit} (h : (do p; return true : Scan Bool).Fails .reversedRange s t) :
    p.Fails .reversedRange s t := by
  rcases Scan.fails_bind.mp h with h | ⟨_, _, _, h⟩
  · exact h
  · exact (fails_pure h).elim

/-- An atom fails if it is a group whose inside does, or a class expression that does. -/
theorem fails_schemaAtom {nested : Scan Unit} (hin : FailsInClasses o n nested) (hs : Ready o (n + 1) s)
    (h : (schemaAtom o n nested).Fails .reversedRange s t) : PatternFails o s t := by
  have hwrite : ∀ f, KeepsOrder (do write f; return true : Scan Bool) := fun f =>
    .bind (.of_run fun _ => rfl) fun _ => failsOnly_pure _
  replace h := (fails_bind_of_run rfl).mp h
  cases hu : s.cursor.current with
  | none =>
    rw [hu] at h
    exact (fails_pure h).elim
  | some u =>
    rw [hu] at h
    dsimp only at h
    split at h
    · next hc => exact fails_group hin hs (current_of_ascii hu hc) (fails_found h)
    · exact absurd rfl (keepsOrder_schemaEscape o n (fails_found h))
    · next hc =>
      rcases Scan.fails_bind.mp h with h | ⟨cs, w, _, h⟩
      · exact (fails_classExpr hs.fuel (current_of_ascii hu hc) h).pattern
      · exact absurd rfl (hwrite _ h)
    · exact absurd rfl (hwrite _ ((fails_bind_of_run rfl).mp h))
    · split at h
      · exact (fails_pure h).elim
      · split at h
        · exact absurd rfl (keepsOrder_copy (fails_found h))
        · exact absurd rfl (keepsOrder_plainCharacter o (fails_found h))
    · exact absurd rfl (keepsOrder_plainCharacter o (fails_found h))

theorem fails_branch {atom : Scan Bool} (hatom : FindsAtoms o n depth atom) (hfails : FailsInClasses o n atom)
    (hs : Ready o n s) (hm : s.cursor.remaining ≤ m) (h : (branch o.variant atom m).Fails .reversedRange s t) :
    PatternFails o s t := by
  induction m generalizing s with
  | zero => exact (fails_pure h).elim
  | succ m ih =>
    rcases Scan.fails_bind.mp h with h | ⟨found, u, ha, hrest⟩
    · exact hfails s t hs h
    rcases hatom s found u hs ha with ⟨rfl, rfl, _⟩ | ⟨rfl, a, hl, hf, _⟩
    · exact (fails_pure hrest).elim
    · obtain ⟨_, w, hq, hrest⟩ := ((keepsOrder_quantifier _ _).fails_bind (by simp)).mp hrest
      have hlt := remaining_of_atom hf
      have hu := hs.afterAtom hf
      obtain ⟨q, hql, hqf, _⟩ := (finds_quantifier (by omega)).mp hq
      have hle := follows_remaining_le hqf
      have hquantifier : Leads {} (passed false (quantifierCourse q)) {} := by
        rw [quantifierCourse_passed]
        exact (passes_quantifier hql).leads
      have hatom : Leads {} (passed false (a.course o s.groups)) {} := by
        rw [(a.passed_course o _).1]
        exact Atom.leads hl
      have hbehind := ih (hu.afterQuantifier hqf) (by omega) hrest
      exact .behind hs.inClass hf hatom (.behind hu.inClass hqf hquantifier hbehind)

theorem fails_alternatives {atom : Scan Bool} (hatom : FindsAtoms o n depth atom) (hfails : FailsInClasses o n atom)
    (hs : Ready o n s) (hm : s.cursor.remaining ≤ m)
    (h : (alternatives (branch o.variant atom n) m).Fails .reversedRange s t) : PatternFails o s t := by
  induction m generalizing s with
  | zero => exact (fails_pure h).elim
  | succ m ih =>
    replace h := (fails_bind_of_run rfl).mp h
    split at h
    · next hbar =>
      have hcopy : Follows (copies '|') s s.copied := (follows_copies (by decide)).mpr ⟨beq_iff_eq.mp hbar, rfl⟩
      have hlt := remaining_lt (reads_of_copies '|') (List.cons_ne_nil _ _) hcopy
      have hu := hs.copied hcopy
      refine .behind hs.inClass hcopy (leads_text ['|'] (by decide)) ?_
      rcases Scan.fails_bind.mp ((fails_bind_of_run run_copy).mp h) with h | ⟨_, w, hbranch, h⟩
      · exact fails_branch hatom hfails hu hu.fuel h
      · obtain ⟨b, hb, hf⟩ := branch_sound hatom hu hu.fuel hbranch
        have hle := follows_remaining_le hf
        exact .behindBranch hu hb hf (ih (hu.afterBranch hf) (by omega) h)
    · exact (fails_pure h).elim

theorem fails_regexp {atom : Scan Bool} (hatom : FindsAtoms o n depth atom) (hfails : FailsInClasses o n atom)
    (hs : Ready o n s) (h : (regexp o.variant atom n).Fails .reversedRange s t) : PatternFails o s t := by
  rcases Scan.fails_bind.mp h with h | ⟨_, u, hbranch, h⟩
  · exact fails_branch hatom hfails hs hs.fuel h
  · obtain ⟨b, hb, hf⟩ := branch_sound hatom hs hs.fuel hbranch
    have hu := hs.afterBranch hf
    exact .behindBranch hs hb hf (fails_alternatives hatom hfails hu hu.fuel h)

theorem fails_atom (d : Dialect) : FailsInClasses o n (atom o (.schema d) n depth) := by
  induction n generalizing depth with
  | zero => exact fun s t _ h => (fails_pure h).elim
  | succ n ih =>
    intro s t hs h
    rw [atom_schema] at h
    refine fails_schemaAtom (fun u t hu h => ?_) hs h
    obtain ⟨_, w, hdescend, hinside⟩ := ((keepsOrder_descend depth).fails_bind (by simp)).mp h
    obtain rfl := finds_descend hdescend
    exact fails_regexp atom_sound ih hu hinside

theorem fails_expression (d : Dialect) (hs : Ready o n s)
    (h : (expression o (.schema d) n depth).Fails .reversedRange s t) :
    PatternFails o s t :=
  fails_regexp atom_sound (fails_atom d) hs h

theorem fails_pattern {atoms : Atoms} (h : (pattern o atoms n).Fails .reversedRange s t) :
    (expression o atoms n 0).Fails .reversedRange s.advance t := by
  rcases Scan.fails_bind.mp ((fails_bind_of_run rfl).mp h) with h | ⟨_, u, _, h⟩
  · exact h
  · replace h := (fails_bind_of_run rfl).mp h
    split at h
    · cases (fails_fail.mp h).1
    · exact (fails_pure h).elim

end Scan

end XmlPattern
