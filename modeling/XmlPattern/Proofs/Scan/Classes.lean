import XmlPattern.Proofs.Scan.Escapes

/-!
# Class expressions

What the scanners of class expressions find. The hyphen is looked at in three places: in front of an item, behind a
single one, and behind the list. `EndsList` is what all three leave when the list is over: its closing bracket, or the
hyphen of a subtraction, which an opening bracket follows.

- `finds_members`: the items of a list.
- `finds_classExpr`: a class expression is one of its trees, with the set that the tree stands for.
-/

namespace XmlPattern.Scan

open Grammar

variable {s s' : ScanState}

/-! ## Items -/

theorem ascii_of_follows_char {c : Char} {t : ScanState} (h : Follows (reads (CodeUnit.ofChar c)) s t) {d : Char}
    (hd : s.cursor.current.bind CodeUnit.toAscii? = some d) : c = d := by
  obtain ⟨hlt, hcur⟩ := ascii_eq_some.mp hd
  rcases CodeUnit.ofChar_cases c with ⟨u, hc, hu, rfl⟩ | ⟨u, v, hc, hu, hv, rfl⟩
  · rw [hc] at h
    obtain rfl : u = unit d := Option.some.inj (h.1.symm.trans hcur)
    exact CodeUnit.toBasic_ofBasic (by omega)
  · rw [hc] at h
    obtain rfl : u = unit d := Option.some.inj (h.1.symm.trans hcur)
    have hs := CodeUnit.isSurrogate_ofBasic (c := d) (by omega)
    rw [CodeUnit.isSurrogate_eq, hu] at hs
    cases hs

theorem current_of_follows_char {c : Char} {t : ScanState} (h : Follows (reads (CodeUnit.ofChar c)) s t)
    (hc : c.toNat < 0x80) : s.cursor.current = some (unit c) := by
  rw [CodeUnit.ofChar, if_pos (by omega)] at h
  exact h.1

theorem member_sound {o : Options} {n : Nat} {m : Member} (hn : s.cursor.remaining ≤ n + 1)
    (hcur : s.cursor.current ≠ some (unit ']')) (h : (member o n).Finds s m s') :
    (∃ x : Single, x.LegalMember o.variant ∧ m = .char x.char ∧ Follows (reads x.units) s s') ∨
      (∃ e : SetEscape, e.Legal o.variant ∧ m = .set (e.chars o) ∧ Follows (e.course o.variant) s s') ∨
        s.cursor.current = none ∧ m = .char '\x00' ∧ s' = s.advance := by
  simp only [member, finds_ascii_bind] at h
  split at h
  · next hc =>
    obtain ⟨_, hc⟩ := ascii_eq_some.mp hc
    have hlt := ScanState.remaining_advance hc
    rw [finds_advance_bind, finds_escape (by omega)] at h
    rcases h with ⟨letter, hl, rfl, hf⟩ | ⟨e, hl, rfl, hf⟩
    · exact .inl ⟨.escaped letter, hl, rfl, hc, hf⟩
    · exact .inr (.inl ⟨e, hl, rfl, follows_append.mpr ⟨_, ⟨hc, rfl⟩, hf⟩⟩)
  · exact (finds_fail.mp h).elim
  · exact (finds_fail.mp h).elim
  · next hbackslash hbracket hhyphen =>
    rw [finds_character_bind] at h
    rcases h with ⟨hc, h⟩ | ⟨c, t, hf, h⟩
    · obtain ⟨rfl, rfl⟩ := finds_pure.mp h
      exact .inr (.inr ⟨hc, rfl, rfl⟩)
    · obtain ⟨rfl, rfl⟩ := finds_pure.mp h
      refine .inl ⟨.plain c, fun hc => ?_, rfl, hf⟩
      simp only [classMetaChars, List.mem_cons, List.not_mem_nil, or_false] at hc
      rcases hc with rfl | rfl | rfl | rfl
      · exact hbracket (ascii_of_current (current_of_follows_char hf (by decide)) (by decide))
      · exact hcur (current_of_follows_char hf (by decide))
      · exact hbackslash (ascii_of_current (current_of_follows_char hf (by decide)) (by decide))
      · exact hhyphen (ascii_of_current (current_of_follows_char hf (by decide)) (by decide))

theorem member_of_escape {o : Options} {n : Nat} {m : Member} (hc : s.cursor.current = some (unit '\\'))
    (h : (escape o n).Finds s.advance m s') : (member o n).Finds s m s' := by
  simp only [member, finds_ascii_bind, ascii_of_current hc (by decide), finds_advance_bind]
  exact h

theorem member_of_single {o : Options} {n : Nat} {x : Single} (hn : s.cursor.remaining ≤ n + 1)
    (hl : x.LegalMember o.variant) (hf : Follows (reads x.units) s s') : (member o n).Finds s (.char x.char) s' := by
  cases x with
  | plain c =>
    have hne : ∀ d ∈ classMetaChars, s.cursor.current.bind CodeUnit.toAscii? ≠ some d := by
      rintro d hd h
      exact hl (ascii_of_follows_char hf h ▸ hd)
    rw [member, finds_ascii_bind]
    split
    · next h => exact absurd h (hne _ (by decide))
    · next h => exact absurd h (hne _ (by decide))
    · next h => exact absurd h (hne _ (by decide))
    · exact finds_character_bind.mpr (.inr ⟨c, s', hf, finds_pure.mpr ⟨rfl, rfl⟩⟩)
  | escaped letter =>
    have hlt := ScanState.remaining_advance hf.1
    exact member_of_escape hf.1 ((finds_escape (by omega)).mpr (.inl ⟨letter, hl, rfl, hf.2⟩))

theorem member_of_set {o : Options} {n : Nat} {e : SetEscape} (hn : s.cursor.remaining ≤ n + 1)
    (hl : e.Legal o.variant) (hf : Follows (e.course o.variant) s s') : (member o n).Finds s (.set (e.chars o)) s' := by
  obtain ⟨_, ⟨hc, rfl⟩, hf⟩ := follows_append.mp (show Follows (_ ++ _) s s' from hf)
  have hlt := ScanState.remaining_advance hc
  exact member_of_escape hc ((finds_escape (by omega)).mpr (.inr ⟨e, hl, rfl, hf⟩))

theorem ofChar_ne_nil (c : Char) : CodeUnit.ofChar c ≠ [] := by
  unfold CodeUnit.ofChar
  split <;> exact List.cons_ne_nil _ _

theorem units_ne_nil_of_single (x : Single) : x.units ≠ [] := by
  cases x with
  | plain c => exact ofChar_ne_nil c
  | escaped letter => exact List.cons_ne_nil _ _

theorem units_ne_nil_of_set (e : SetEscape) : e.units ≠ [] := by
  cases e <;> exact List.cons_ne_nil _ _

/-- Events that pass something bring the end nearer. -/
theorem remaining_lt {es : List Event} {us : List CodeUnit} (h : Reads es us) (hne : us ≠ []) (hf : Follows es s s') :
    s'.cursor.remaining < s.cursor.remaining := by
  have h₁ := follows_remaining hf false
  have h₂ := List.length_pos_iff.mpr hne
  rw [h.passed, List.length_map] at h₁
  omega

/-! ## Lists -/

/-- Where a list is over: at its closing bracket, or else at the hyphen of a subtraction. -/
def EndsList (last : Bool) (s : ScanState) : Prop :=
  s.cursor.current = some (unit ']') ∨
    last = false ∧ s.cursor.current = some (unit '-') ∧ s.cursor.next = some (unit '[')

theorem members_at_end {o : Options} {n : Nat} {first : Bool} {s₀ cs : CharSet} (hc : s.cursor.current = none) :
    ¬ (members o n first s₀).Finds s cs s' := by
  cases n with
  | zero => exact finds_fail.mp
  | succ n =>
    simp only [members, finds_current_bind, hc]
    exact finds_fail.mp

theorem members_at_bracket {o : Options} {n : Nat} {first : Bool} {s₀ cs : CharSet}
    (hc : s.cursor.current = some (unit ']')) :
    (members o (n + 1) first s₀).Finds s cs s' ↔ cs = s₀ ∧ s' = s := by
  simp only [members, finds_current_bind, hc, beq_self_eq_true, if_true, finds_pure]

theorem members_at_hyphen {o : Options} {n : Nat} {first : Bool} {s₀ cs : CharSet}
    (hc : s.cursor.current = some (unit '-')) :
    (members o (n + 1) first s₀).Finds s cs s' ↔
      first = false ∧ s.cursor.next = some (unit '[') ∧ cs = s₀ ∧ s' = s ∨
        (first = true ∨ s.cursor.next = some (unit ']')) ∧
          (members o n false (s₀ ∪ .single '-')).Finds s.advance cs s' := by
  have hne : (unit '-' == unit ']') = false := by decide
  have hb : unit '[' ≠ unit ']' := by decide
  simp only [members, finds_current_bind, hc, hne, Bool.false_eq_true, if_false, beq_self_eq_true, if_true,
    finds_next_bind]
  cases first with
  | true => simp
  | false =>
    simp only [Bool.not_false, Bool.true_and, beq_iff_eq, bne_iff_ne, ne_eq]
    split
    · next hnext => simp [hnext, hb]
    · next hnext =>
      split
      · next hnext' => simp [hnext, hnext']
      · next hnext' => simp [Decidable.of_not_not hnext', hb.symm]

/-- What follows an item that may start a range. -/
def afterItem (o : Options) (n : Nat) (s₀ : CharSet) (lower : Member) : Scan CharSet := do
  unless ← isAt '-' do return ← members o n false (s₀ ∪ lower.chars)
  if (← next) == some (CodeUnit.ofBasic '[') then return s₀ ∪ lower.chars
  advance
  if ← isAt ']' then return s₀ ∪ lower.chars ∪ .single '-'
  let upper ← member o n
  match lower, upper with
  | .char lo, .char hi =>
    if hi < lo then fail .reversedRange
    members o n false (s₀ ∪ .span lo.toNat hi.toNat)
  | _, _ => fail .rangeOfClasses

theorem members_at_item {o : Options} {n : Nat} (first : Bool) {s₀ cs : CharSet} {u : CodeUnit}
    (hc : s.cursor.current = some u) (hbracket : u ≠ unit ']') (hhyphen : u ≠ unit '-') :
    (members o (n + 1) first s₀).Finds s cs s' ↔
      ∃ lower t, (member o n).Finds s lower t ∧ (afterItem o n s₀ lower).Finds t cs s' := by
  rw [members, finds_current_bind, hc]
  show (if (u == unit ']') = true then _ else if (u == unit '-') = true then _ else _ : Scan CharSet).Finds s cs s' ↔ _
  rw [if_neg fun h => hbracket (beq_iff_eq.mp h), if_neg fun h => hhyphen (beq_iff_eq.mp h)]
  exact finds_bind

/-- What is left of a list, given what it has added before: items, and perhaps a hyphen. -/
def ListsOn (o : Options) (s₀ cs : CharSet) (s s' : ScanState) : Prop :=
  ∃ items last, (∀ i ∈ items, ClassItem.Legal o.variant i) ∧
    Follows (items.flatMap (ClassItem.course o.variant) ++ hyphenCourse last) s s' ∧
      cs = withHyphen last (withItems o s₀ items) ∧ EndsList last s'

theorem ListsOn.nil {o : Options} {s₀ : CharSet} (he : EndsList false s) : ListsOn o s₀ s₀ s s :=
  ⟨[], false, nofun, rfl, rfl, he⟩

theorem ListsOn.hyphen {o : Options} {s₀ : CharSet} (hc : s.cursor.current = some (unit '-'))
    (he : s.advance.cursor.current = some (unit ']')) : ListsOn o s₀ (s₀ ∪ .single '-') s s.advance :=
  ⟨[], true, nofun, ⟨hc, rfl⟩, rfl, .inl he⟩

theorem ListsOn.cons {o : Options} {s₀ cs : CharSet} {t : ScanState} {i : ClassItem} (hi : i.Legal o.variant)
    (hf : Follows (i.course o.variant) s t) (h : ListsOn o (s₀ ∪ i.chars o) cs t s') : ListsOn o s₀ cs s s' := by
  obtain ⟨items, last, hitems, hfs, hcs, he⟩ := h
  refine ⟨i :: items, last, List.forall_mem_cons.mpr ⟨hi, hitems⟩, ?_, hcs, he⟩
  rw [List.flatMap_cons, List.append_assoc]
  exact follows_append.mpr ⟨t, hf, hfs⟩

theorem inClass_of_follows {v : Variant} {i : ClassItem} (hin : s.cursor.inClass = true)
    (hf : Follows (i.course v) s s') : s'.cursor.inClass = true := by
  rw [follows_inClass hf, (i.reads_of_course v).mode, hin]

theorem next_of_inClass {u : CodeUnit} (hin : s.cursor.inClass = true) (hc : s.cursor.current = some u) :
    s.cursor.next = s.advance.cursor.current :=
  (Cursor.current_advance_of_inClass hin hc).symm

theorem members_of_hyphen {o : Options} {n : Nat} {s₀ cs : CharSet} (hin : s.cursor.inClass = true)
    (hc : s.cursor.current = some (unit '-')) (h : (members o (n + 1) false s₀).Finds s cs s') :
    ListsOn o s₀ cs s s' := by
  rcases (members_at_hyphen hc).mp h with ⟨_, hnext, rfl, rfl⟩ | ⟨hnext, h⟩
  · exact .nil (.inr ⟨rfl, hc, hnext⟩)
  · have hend : s.advance.cursor.current = some (unit ']') := by
      rw [← next_of_inClass hin hc]
      exact hnext.resolve_left Bool.false_ne_true
    cases n with
    | zero => exact (finds_fail.mp h).elim
    | succ n =>
      obtain ⟨rfl, rfl⟩ := (members_at_bracket hend).mp h
      exact .hyphen hc hend

/-- Behind an item the list goes on, or the item turns out to be the start of a range. -/
theorem afterItem_sound {o : Options} {n : Nat} {s₀ cs : CharSet} {lower : Member} (hn : s.cursor.remaining ≤ n)
    (hin : s.cursor.inClass = true)
    (ih : ∀ {t : ScanState} {s₀ : CharSet}, t.cursor.remaining ≤ n → t.cursor.inClass = true →
      (members o n false s₀).Finds t cs s' → ListsOn o s₀ cs t s')
    (h : (afterItem o n s₀ lower).Finds s cs s') :
    ListsOn o (s₀ ∪ lower.chars) cs s s' ∨
      ∃ (lo : Char) (hi : Single) (t : ScanState), lower = .char lo ∧ lo ≤ hi.char ∧ hi.LegalMember o.variant ∧
        Follows (reads (unit '-' :: hi.units)) s t ∧ ListsOn o (s₀ ∪ .span lo.toNat hi.char.toNat) cs t s' := by
  rw [afterItem, finds_isAt_bind] at h
  split at h
  · next hhyphen =>
    have hc := beq_iff_eq.mp hhyphen
    have hlt := ScanState.remaining_advance hc
    rw [finds_next_bind] at h
    split at h
    · next hnext =>
      obtain ⟨rfl, rfl⟩ := finds_pure.mp h
      exact .inl (.nil (.inr ⟨rfl, hc, beq_iff_eq.mp hnext⟩))
    rw [finds_advance_bind, finds_isAt_bind] at h
    split at h
    · next hend =>
      obtain ⟨rfl, rfl⟩ := finds_pure.mp h
      exact .inl (.hyphen hc (beq_iff_eq.mp hend))
    · next hend =>
      obtain ⟨upper, t, hupper, h⟩ := finds_bind.mp h
      obtain ⟨lo, hi, rfl, rfl⟩ : ∃ lo hi, lower = .char lo ∧ upper = .char hi := by
        cases lower <;> cases upper
        · exact ⟨_, _, rfl, rfl⟩
        all_goals exact (finds_fail.mp h).elim
      dsimp only at h
      split at h
      · exact (finds_fail_bind.mp h).elim
      · next hle =>
        rcases member_sound (by omega) (fun he => hend (beq_iff_eq.mpr he)) hupper with
          ⟨x, hl, hchar, hf⟩ | ⟨e, _, he, _⟩ | ⟨he, hchar, rfl⟩
        · obtain rfl := Member.char.inj hchar
          have hfs : Follows (reads (unit '-' :: x.units)) s t := ⟨hc, hf⟩
          have hrem := follows_remaining_le hfs
          have hin' : t.cursor.inClass = true := by rw [follows_inClass hfs, modeAfter_reads, hin]
          exact .inr ⟨lo, x, t, rfl, Char.not_lt.mp hle, hl, hfs, ih (by omega) hin' h⟩
        · cases he
        · exact (members_at_end (Cursor.current_advance_of_end he) h).elim
  · exact .inl (ih hn hin h)

theorem members_sound {o : Options} {n : Nat} {s₀ cs : CharSet} (hn : s.cursor.remaining ≤ n)
    (hin : s.cursor.inClass = true) (h : (members o n false s₀).Finds s cs s') : ListsOn o s₀ cs s s' := by
  induction n generalizing s s₀ with
  | zero => exact (finds_fail.mp h).elim
  | succ n ih =>
    cases hc : s.cursor.current with
    | none => exact (members_at_end hc h).elim
    | some u =>
      by_cases hbracket : u = unit ']'
      · subst hbracket
        obtain ⟨rfl, rfl⟩ := (members_at_bracket hc).mp h
        exact .nil (.inl hc)
      by_cases hhyphen : u = unit '-'
      · exact members_of_hyphen hin (hhyphen ▸ hc) h
      · obtain ⟨lower, t, hlower, h⟩ := (members_at_item _ hc hbracket hhyphen).mp h
        have hne : s.cursor.current ≠ some (unit ']') := fun he => hbracket (Option.some.inj (hc.symm.trans he))
        rcases member_sound hn hne hlower with ⟨x, hl, rfl, hf⟩ | ⟨e, hl, rfl, hf⟩ | ⟨he, _⟩
        · have hi : ClassItem.Legal o.variant (.single x) := hl
          have hlt := remaining_lt (ClassItem.reads_of_course o.variant (.single x)) (units_ne_nil_of_single x) hf
          rcases afterItem_sound (by omega) (inClass_of_follows (v := o.variant) (i := .single x) hin hf) ih h with
            h | ⟨lo, hi, u, hlo, hle, hl', hf', h⟩
          · exact .cons hi hf h
          · obtain rfl := Member.char.inj hlo
            refine .cons (i := .range x hi) ⟨hl, hl', hle⟩ ?_ h
            exact (reads_append _ _ ▸ follows_append.mpr ⟨t, hf, hf'⟩ : Follows (reads _) s u)
        · have hlt := remaining_lt (e.reads_of_course o.variant) (units_ne_nil_of_set e) hf
          rcases afterItem_sound (by omega) (inClass_of_follows (i := .set e) hin hf) ih h with
            h | ⟨lo, hi, u, hlo, _⟩
          · exact .cons (i := .set e) hl hf h
          · cases hlo
        · rw [hc] at he
          cases he

/-- No item of a list begins with a bracket or a hyphen. -/
theorem current_of_single {v : Variant} {x : Single} {t : ScanState} (hl : x.LegalMember v)
    (hf : Follows (reads x.units) s t) :
    ∃ u, s.cursor.current = some u ∧ u ≠ unit '[' ∧ u ≠ unit ']' ∧ u ≠ unit '-' := by
  cases x with
  | plain c =>
    obtain ⟨u, us, hu⟩ := List.exists_cons_of_ne_nil (ofChar_ne_nil c)
    have hcur : s.cursor.current = some u := by
      rw [show Single.units (.plain c) = CodeUnit.ofChar c from rfl, hu] at hf
      exact hf.1
    have hne : ∀ d ∈ classMetaChars, d.toNat < 0x80 → u ≠ unit d := by
      rintro d hd hlt rfl
      exact hl (ascii_of_follows_char hf (ascii_of_current hcur hlt) ▸ hd)
    exact ⟨u, hcur, hne _ (by decide) (by decide), hne _ (by decide) (by decide), hne _ (by decide) (by decide)⟩
  | escaped letter => exact ⟨_, hf.1, by decide, by decide, by decide⟩

theorem afterItem_of_members {o : Options} {n : Nat} {s₀ cs : CharSet} {lower : Member} (hin : s.cursor.inClass = true)
    (hn : s.cursor.remaining ≤ n) (h : (members o n false (s₀ ∪ lower.chars)).Finds s cs s') :
    (afterItem o n s₀ lower).Finds s cs s' := by
  rw [afterItem, finds_isAt_bind]
  split
  · next hhyphen =>
    have hc := beq_iff_eq.mp hhyphen
    have hpos := Cursor.remaining_pos hc
    obtain ⟨n, rfl⟩ := Nat.exists_eq_add_one.mpr (show 0 < n by omega)
    rw [finds_next_bind]
    rcases (members_at_hyphen hc).mp h with ⟨_, hnext, rfl, rfl⟩ | ⟨hnext, h⟩
    · rw [if_pos (beq_iff_eq.mpr hnext)]
      exact finds_pure.mpr ⟨rfl, rfl⟩
    · have hnext := hnext.resolve_left Bool.false_ne_true
      have hend : s.advance.cursor.current = some (unit ']') := by rw [← next_of_inClass hin hc, hnext]
      have hb : ¬ (s.cursor.next == some (unit '[')) = true := by
        rw [hnext]
        decide
      rw [if_neg hb, finds_advance_bind, finds_isAt_bind, if_pos (beq_iff_eq.mpr hend)]
      cases n with
      | zero => exact (finds_fail.mp h).elim
      | succ n =>
        obtain ⟨rfl, rfl⟩ := (members_at_bracket hend).mp h
        exact finds_pure.mpr ⟨rfl, rfl⟩
  · exact h

theorem afterItem_of_range {o : Options} {n : Nat} {s₀ cs : CharSet} {lo : Char} {hi : Single} {t : ScanState}
    (hin : s.cursor.inClass = true) (hn : s.cursor.remaining ≤ n) (hl : hi.LegalMember o.variant) (hle : lo ≤ hi.char)
    (hf : Follows (reads (unit '-' :: hi.units)) s t)
    (h : (members o n false (s₀ ∪ .span lo.toNat hi.char.toNat)).Finds t cs s') :
    (afterItem o n s₀ (.char lo)).Finds s cs s' := by
  obtain ⟨hc, hf⟩ := hf
  obtain ⟨u, hu, hopen, hclose, _⟩ := current_of_single hl hf
  have hlt := ScanState.remaining_advance hc
  have hnext : ¬ (s.cursor.next == some (unit '[')) = true := by
    rw [next_of_inClass hin hc, hu, beq_iff_eq]
    exact fun h => hopen (Option.some.inj h)
  have hend : s.advance.cursor.current ≠ some (unit ']') := by
    rw [hu]
    exact fun h => hclose (Option.some.inj h)
  have hupper : (member o n).Finds s.advance (.char hi.char) t := member_of_single (by omega) hl hf
  rw [afterItem, finds_isAt_bind, if_pos (beq_iff_eq.mpr hc), finds_next_bind, if_neg hnext, finds_advance_bind,
    finds_isAt_bind, if_neg fun h => hend (beq_iff_eq.mp h)]
  refine finds_bind.mpr ⟨_, t, hupper, ?_⟩
  dsimp only
  rw [if_neg (Char.not_lt.mpr hle)]
  exact h

theorem members_of_end {o : Options} {last : Bool} {n : Nat} {s₀ : CharSet} (hn : s.cursor.remaining ≤ n)
    (hin : s.cursor.inClass = true) (hf : Follows (hyphenCourse last) s s') (he : EndsList last s') :
    (members o n false s₀).Finds s (withHyphen last s₀) s' := by
  cases last with
  | false =>
    obtain rfl := hf
    rcases he with hc | ⟨_, hc, hnext⟩
    · obtain ⟨n, rfl⟩ := Cursor.exists_fuel hc hn
      exact (members_at_bracket hc).mpr ⟨rfl, rfl⟩
    · obtain ⟨n, rfl⟩ := Cursor.exists_fuel hc hn
      exact (members_at_hyphen hc).mpr (.inl ⟨rfl, hnext, rfl, rfl⟩)
  | true =>
    obtain ⟨hc, rfl⟩ := hf
    have hend := he.resolve_right nofun
    have hlt := ScanState.remaining_advance hc
    have hpos := Cursor.remaining_pos hend
    obtain ⟨n, rfl⟩ : ∃ k, n = k + 2 := ⟨n - 2, by omega⟩
    refine (members_at_hyphen hc).mpr (.inr ⟨.inr ?_, (members_at_bracket hend).mpr ⟨rfl, rfl⟩⟩)
    rw [next_of_inClass hin hc, hend]

/-- What an item and the rest of a list are, as long as the rest is read right. -/
theorem members_of_item {o : Options} {n : Nat} {s₀ cs : CharSet} {i : ClassItem} {t : ScanState}
    (hn : s.cursor.remaining ≤ n) (hin : s.cursor.inClass = true) (hi : i.Legal o.variant)
    (hf : Follows (i.course o.variant) s t)
    (h : ∀ n, t.cursor.remaining ≤ n → (members o n false (s₀ ∪ i.chars o)).Finds t cs s') :
    (members o n false s₀).Finds s cs s' := by
  have hint := inClass_of_follows hin hf
  cases i with
  | single x =>
    obtain ⟨u, hu, _, hclose, hhyphen⟩ := current_of_single hi hf
    have hlt := remaining_lt (reads_of_reads x.units) (units_ne_nil_of_single x) hf
    obtain ⟨n, rfl⟩ := Nat.exists_eq_add_one.mpr (show 0 < n by omega)
    have hlower : (member o n).Finds s (.char x.char) t := member_of_single hn hi hf
    exact (members_at_item _ hu hclose hhyphen).mpr
      ⟨_, t, hlower, afterItem_of_members hint (by omega) (h n (by omega))⟩
  | range lo hi' =>
    obtain ⟨hlo, hhi, hle⟩ := hi
    rw [ClassItem.course, reads_append] at hf
    obtain ⟨t₁, hf₁, hf₂⟩ := follows_append.mp hf
    obtain ⟨u, hu, _, hclose, hhyphen⟩ := current_of_single hlo hf₁
    have hlt := remaining_lt (reads_of_reads lo.units) (units_ne_nil_of_single lo) hf₁
    have hle' := follows_remaining_le hf₂
    have hin₁ : t₁.cursor.inClass = true := by rw [follows_inClass hf₁, modeAfter_reads, hin]
    obtain ⟨n, rfl⟩ := Nat.exists_eq_add_one.mpr (show 0 < n by omega)
    have hlower : (member o n).Finds s (.char lo.char) t₁ := member_of_single hn hlo hf₁
    exact (members_at_item _ hu hclose hhyphen).mpr
      ⟨_, t₁, hlower, afterItem_of_range hin₁ (by omega) hhi hle hf₂ (h n (by omega))⟩
  | set e =>
    have hu : s.cursor.current = some (unit '\\') := by
      obtain ⟨_, h, _⟩ := follows_append.mp (show Follows (_ ++ _) s t from hf)
      exact h.1
    have hlt := remaining_lt (e.reads_of_course o.variant) (units_ne_nil_of_set e) hf
    obtain ⟨n, rfl⟩ := Nat.exists_eq_add_one.mpr (show 0 < n by omega)
    have hlower : (member o n).Finds s (.set (e.chars o)) t := member_of_set hn hi hf
    exact (members_at_item _ hu (by decide) (by decide)).mpr
      ⟨_, t, hlower, afterItem_of_members hint (by omega) (h n (by omega))⟩

theorem members_complete {o : Options} {items : List ClassItem} {last : Bool} {n : Nat} {s₀ : CharSet}
    (hn : s.cursor.remaining ≤ n) (hin : s.cursor.inClass = true)
    (hitems : ∀ i ∈ items, ClassItem.Legal o.variant i)
    (hf : Follows (items.flatMap (ClassItem.course o.variant) ++ hyphenCourse last) s s') (he : EndsList last s') :
    (members o n false s₀).Finds s (withHyphen last (withItems o s₀ items)) s' := by
  induction items generalizing s s₀ n with
  | nil => exact members_of_end hn hin hf he
  | cons i items ih =>
    obtain ⟨hi, hitems⟩ := List.forall_mem_cons.mp hitems
    rw [List.flatMap_cons, List.append_assoc] at hf
    obtain ⟨t, hf, hfs⟩ := follows_append.mp hf
    exact members_of_item hn hin hi hf fun n hn => ih hn (inClass_of_follows hin hf) hitems hfs

theorem finds_members {o : Options} {n : Nat} {s₀ cs : CharSet} (hn : s.cursor.remaining ≤ n)
    (hin : s.cursor.inClass = true) : (members o n false s₀).Finds s cs s' ↔ ListsOn o s₀ cs s s' := by
  constructor
  · exact members_sound hn hin
  · rintro ⟨items, last, hitems, hf, rfl, he⟩
    exact members_complete hn hin hitems hf he

/-! ## Class expressions -/

theorem current_of_item {v : Variant} {i : ClassItem} {t : ScanState} (hl : i.Legal v)
    (hf : Follows (i.course v) s t) : ∃ u, s.cursor.current = some u ∧ u ≠ unit ']' ∧ u ≠ unit '-' := by
  cases i with
  | single x =>
    obtain ⟨u, hu, _, h⟩ := current_of_single hl hf
    exact ⟨u, hu, h⟩
  | range lo hi =>
    rw [ClassItem.course, reads_append] at hf
    obtain ⟨_, hf, _⟩ := follows_append.mp hf
    obtain ⟨u, hu, _, h⟩ := current_of_single hl.1 hf
    exact ⟨u, hu, h⟩
  | set e =>
    obtain ⟨_, h, _⟩ := follows_append.mp (show Follows (_ ++ _) s t from hf)
    exact ⟨_, h.1, by decide, by decide⟩

/-- A list from its start: a hyphen perhaps, items, and again a hyphen perhaps, but not nothing at all. -/
def ListsFrom (o : Options) (negated : Bool) (g : ClassGroup) (s s' : ScanState) : Prop :=
  g.negated = negated ∧ (g.hyphenFirst = true ∨ g.items ≠ []) ∧ (∀ i ∈ g.items, ClassItem.Legal o.variant i) ∧
    Follows (g.members o.variant) s s' ∧ EndsList g.hyphenLast s'

theorem members_first_sound {o : Options} {n : Nat} (negated : Bool) {cs : CharSet} (hn : s.cursor.remaining ≤ n)
    (hin : s.cursor.inClass = true) (hend : s.cursor.current ≠ some (unit ']'))
    (h : (members o n true ∅).Finds s cs s') :
    ∃ g, ListsFrom o negated g s s' ∧ cs = g.listed o := by
  cases hc : s.cursor.current with
  | none => exact (members_at_end hc h).elim
  | some u =>
    have hpos := Cursor.remaining_pos hc
    obtain ⟨n, rfl⟩ := Nat.exists_eq_add_one.mpr (show 0 < n by omega)
    have hbracket : u ≠ unit ']' := fun he => hend (hc.trans (congrArg some he))
    by_cases hhyphen : u = unit '-'
    · subst hhyphen
      have hlt := ScanState.remaining_advance hc
      obtain ⟨_, h⟩ := ((members_at_hyphen hc).mp h).resolve_left nofun
      obtain ⟨items, last, hitems, hf, rfl, he⟩ := (finds_members (s := s.advance) (by omega) hin).mp h
      refine ⟨⟨negated, true, items, last⟩, ⟨rfl, .inl rfl, hitems, ?_, he⟩, rfl⟩
      rw [ClassGroup.members, List.append_assoc]
      exact follows_append.mpr ⟨_, ⟨hc, rfl⟩, hf⟩
    · have h := (members_at_item false hc hbracket hhyphen).mpr
        ((members_at_item _ hc hbracket hhyphen).mp h)
      obtain ⟨items, last, hitems, hf, rfl, he⟩ := (finds_members hn hin).mp h
      refine ⟨⟨negated, false, items, last⟩, ⟨rfl, .inr ?_, hitems, hf, he⟩, rfl⟩
      rintro rfl
      cases last with
      | false =>
        obtain rfl := hf
        rcases he with he | ⟨_, he, _⟩
        · exact hend he
        · exact hhyphen (Option.some.inj (hc.symm.trans he))
      | true => exact hhyphen (Option.some.inj (hc.symm.trans hf.1))

theorem members_first_complete {o : Options} {n : Nat} {negated : Bool} {g : ClassGroup} (hn : s.cursor.remaining ≤ n)
    (hin : s.cursor.inClass = true) (hg : ListsFrom o negated g s s') :
    (members o n true ∅).Finds s (g.listed o) s' := by
  obtain ⟨_, hyphen, items, last⟩ := g
  obtain ⟨_, hne, hitems, hf, he⟩ := hg
  rw [ClassGroup.members, List.append_assoc] at hf
  cases hyphen with
  | true =>
    obtain ⟨_, ⟨hc, rfl⟩, hf⟩ := follows_append.mp hf
    have hlt := ScanState.remaining_advance hc
    obtain ⟨n, rfl⟩ := Nat.exists_eq_add_one.mpr (show 0 < n by omega)
    exact (members_at_hyphen hc).mpr (.inr ⟨.inl rfl, members_complete (s := s.advance) (by omega) hin hitems hf he⟩)
  | false =>
    obtain ⟨i, rest, rfl⟩ := List.exists_cons_of_ne_nil (hne.resolve_left Bool.false_ne_true)
    have hi := (List.forall_mem_cons.mp hitems).1
    have hf : Follows ((i :: rest).flatMap (ClassItem.course o.variant) ++ hyphenCourse last) s s' := hf
    have hfirst := hf
    rw [List.flatMap_cons, List.append_assoc] at hfirst
    obtain ⟨t, hfirst, _⟩ := follows_append.mp hfirst
    obtain ⟨u, hu, hbracket, hhyphen⟩ := current_of_item hi hfirst
    have hpos := Cursor.remaining_pos hu
    obtain ⟨n, rfl⟩ := Nat.exists_eq_add_one.mpr (show 0 < n by omega)
    exact (members_at_item _ hu hbracket hhyphen).mpr
      ((members_at_item false hu hbracket hhyphen).mp (members_complete hn hin hitems hf he))

theorem run_members_of_end {o : Options} (n : Nat) (first : Bool) (c : CharSet) (h : s.cursor.current = none) :
    (members o n first c).run s = (.error (s.diagnostic (.expected ']')), s) := by
  cases n with
  | zero => rfl
  | succ n =>
    simp only [members, run_bind, current, run_command, Command.run, h]
    rfl

/-- The end of what a class lists. -/
def EndsMembers (s : ScanState) : Prop :=
  s.cursor.current = some (unit ']') ∨ s.cursor.current = some (unit '-') ∧ s.cursor.next = some (unit '[')

/-- A class expression from behind the caret on. -/
def classRest (o : Options) (n : Nat) (outer negated : Bool) : Scan CharSet := do
  if ← isAt ']' then fail .emptyClass
  let listed := resolve o.caseBlind negated (← members o n true ∅)
  let chars ← if ← isAt '-' then subtraction (classExpr o n) listed else pure listed
  setInClass outer
  advance
  return chars

theorem run_classExpr {o : Options} {n : Nat} : (classExpr o (n + 1)).run s =
    if (s.setInClass true).advance.cursor.current = some (unit '^') then
      (classRest o n s.cursor.inClass true).run (s.setInClass true).advance.advance
    else (classRest o n s.cursor.inClass false).run (s.setInClass true).advance := by
  refine (run_bind_of_run rfl).trans
    ((run_bind_of_run rfl).trans ((run_bind_of_run rfl).trans ((run_bind_of_run rfl).trans ?_)))
  by_cases h : (s.setInClass true).advance.cursor.current = some (unit '^')
  · rw [if_pos (beq_iff_eq.mpr h), if_pos h]
    refine (run_bind_of_run rfl).trans ?_
    rw [beq_iff_eq.mpr h]
    rfl
  · rw [if_neg fun h' => h (beq_iff_eq.mp h'), if_neg h, beq_eq_false_iff_ne.mpr h]
    rfl

theorem classExpr_eq {o : Options} {n : Nat} {cs : CharSet} :
    (classExpr o (n + 1)).Finds s cs s' ↔
      if (s.setInClass true).advance.cursor.current = some (unit '^') then
        (classRest o n s.cursor.inClass true).Finds (s.setInClass true).advance.advance cs s'
      else (classRest o n s.cursor.inClass false).Finds (s.setInClass true).advance cs s' := by
  rw [Finds, run_classExpr]
  split <;> rfl

theorem finds_subtraction {p : Scan CharSet} {kept cs : CharSet} :
    (subtraction p kept).Finds s cs s' ↔
      ∃ taken, p.Finds s.advance taken s' ∧ s'.cursor.current = some (unit ']') ∧ cs = kept \ taken := by
  rw [subtraction, finds_advance_bind, finds_bind]
  constructor
  · rintro ⟨taken, t, htaken, h⟩
    rw [finds_expect_bind] at h
    obtain ⟨hclose, h⟩ := h
    obtain ⟨rfl, rfl⟩ := finds_pure.mp h
    exact ⟨taken, htaken, hclose, rfl⟩
  · rintro ⟨taken, htaken, hclose, rfl⟩
    exact ⟨taken, s', htaken, finds_expect_bind.mpr ⟨hclose, finds_pure.mpr ⟨rfl, rfl⟩⟩⟩

/-- What ends a class expression behind its list: a bracket, or a class expression to subtract and a bracket. -/
def EndsClass (o : Options) (n : Nat) (outer : Bool) (listed cs : CharSet) (s s' : ScanState) : Prop :=
  if s.cursor.current = some (unit '-') then
    ∃ taken u, (classExpr o n).Finds s.advance taken u ∧ u.cursor.current = some (unit ']') ∧
      cs = listed \ taken ∧ s' = (u.setInClass outer).advance
  else cs = listed ∧ s' = (s.setInClass outer).advance

theorem finds_classRest {o : Options} {n : Nat} {outer negated : Bool} {cs : CharSet} :
    (classRest o n outer negated).Finds s cs s' ↔ s.cursor.current ≠ some (unit ']') ∧
      ∃ listed t, (members o n true ∅).Finds s listed t ∧
        EndsClass o n outer (resolve o.caseBlind negated listed) cs t s' := by
  rw [classRest, finds_isAt_bind]
  dsimp only
  by_cases hend : s.cursor.current = some (unit ']')
  · simp [hend]
  · rw [if_neg fun h => hend (beq_iff_eq.mp h), finds_bind]
    simp only [ne_eq, hend, not_false_eq_true, true_and]
    refine exists_congr fun listed => exists_congr fun t => and_congr_right fun _ => ?_
    rw [finds_isAt_bind, EndsClass]
    by_cases hhyphen : t.cursor.current = some (unit '-')
    · rw [if_pos (beq_iff_eq.mpr hhyphen), if_pos hhyphen]
      rw [finds_bind]
      constructor
      · rintro ⟨_, u, h, h'⟩
        obtain ⟨taken, htaken, hclose, rfl⟩ := finds_subtraction.mp h
        rw [finds_setInClass_bind, finds_advance_bind] at h'
        obtain ⟨rfl, rfl⟩ := finds_pure.mp h'
        exact ⟨taken, u, htaken, hclose, rfl, rfl⟩
      · rintro ⟨taken, u, htaken, hclose, rfl, rfl⟩
        refine ⟨_, u, finds_subtraction.mpr ⟨taken, htaken, hclose, rfl⟩, ?_⟩
        rw [finds_setInClass_bind, finds_advance_bind]
        exact finds_pure.mpr ⟨rfl, rfl⟩
    · rw [if_neg fun h => hhyphen (beq_iff_eq.mp h), if_neg hhyphen]
      simp

/-- Events that pass something start at the first unit that they pass. -/
theorem current_of_reads {es : List Event} {us : List CodeUnit} (h : Reads es us) (hne : us ≠ [])
    (hf : Follows es s s') : s.cursor.current = us.head? := by
  obtain ⟨u, us, rfl⟩ := List.exists_cons_of_ne_nil hne
  have hhead := follows_head hf false
  rw [h.passed] at hhead
  exact hhead (u, false) rfl

theorem units_ne_nil_of_item (i : ClassItem) : i.units ≠ [] := by
  cases i with
  | single x => exact units_ne_nil_of_single x
  | range lo hi => simp [ClassItem.units]
  | set e => exact units_ne_nil_of_set e

/-- A list that is not empty begins with a hyphen of its own or with an item. -/
theorem start_of_members {v : Variant} {g : ClassGroup} (hne : g.hyphenFirst = true ∨ g.items ≠ [])
    (hf : Follows (g.members v) s s') :
    g.hyphenFirst = true ∧ s.cursor.current = some (unit '-') ∨
      g.hyphenFirst = false ∧ ∃ i rest t, g.items = i :: rest ∧ Follows (i.course v) s t := by
  rw [ClassGroup.members, List.append_assoc] at hf
  obtain ⟨t, hf, hrest⟩ := follows_append.mp hf
  cases hhyphen : g.hyphenFirst with
  | true =>
    rw [hhyphen] at hf
    exact .inl ⟨rfl, hf.1⟩
  | false =>
    rw [hhyphen] at hf hne
    obtain rfl := hf
    obtain ⟨i, rest, hi⟩ := List.exists_cons_of_ne_nil (hne.resolve_left Bool.false_ne_true)
    obtain ⟨_, hitems, _⟩ := follows_append.mp hrest
    rw [hi, List.flatMap_cons] at hitems
    obtain ⟨u, hfirst, _⟩ := follows_append.mp hitems
    exact .inr ⟨rfl, i, rest, u, hi, hfirst⟩

/-- What a list that is not empty begins with. -/
theorem current_of_members {v : Variant} {g : ClassGroup} (hne : g.hyphenFirst = true ∨ g.items ≠ [])
    (hf : Follows (g.members v) s s') :
    s.cursor.current = if g.hyphenFirst then some (unit '-') else (g.items.flatMap ClassItem.units).head? := by
  rcases start_of_members hne hf with ⟨hhyphen, hcur⟩ | ⟨hhyphen, i, rest, t, hi, hfirst⟩
  · rw [hhyphen, if_pos rfl, hcur]
  · obtain ⟨u, us, hu⟩ := List.exists_cons_of_ne_nil (units_ne_nil_of_item i)
    rw [hhyphen, if_neg Bool.false_ne_true, hi, List.flatMap_cons,
      current_of_reads (i.reads_of_course v) (units_ne_nil_of_item i) hfirst, hu]
    rfl

theorem not_bracket_of_members {v : Variant} {g : ClassGroup} (hne : g.hyphenFirst = true ∨ g.items ≠ [])
    (hitems : ∀ i ∈ g.items, ClassItem.Legal v i) (hf : Follows (g.members v) s s') :
    s.cursor.current ≠ some (unit ']') := by
  rcases start_of_members hne hf with ⟨_, hcur⟩ | ⟨_, i, rest, t, hi, hfirst⟩
  · rw [hcur]
    decide
  · obtain ⟨u, hu, hbracket, _⟩ := current_of_item (hitems i (by rw [hi]; exact List.mem_cons_self)) hfirst
    exact fun h => hbracket (Option.some.inj (hu.symm.trans h))

/-- Behind the caret a class expression is a list that is not empty, and what ends it. -/
theorem finds_listed {o : Options} {n : Nat} {outer negated : Bool} {cs : CharSet} (hn : s.cursor.remaining ≤ n)
    (hin : s.cursor.inClass = true) :
    (classRest o n outer negated).Finds s cs s' ↔
      ∃ g t, ListsFrom o negated g s t ∧ EndsClass o n outer (g.chars o) cs t s' := by
  rw [finds_classRest]
  constructor
  · rintro ⟨hend, listed, t, hlisted, h⟩
    obtain ⟨g, hg, rfl⟩ := members_first_sound negated hn hin hend hlisted
    refine ⟨g, t, hg, ?_⟩
    rwa [ClassGroup.chars, hg.1]
  · rintro ⟨g, t, hg, h⟩
    have hend := not_bracket_of_members hg.2.1 hg.2.2.1 hg.2.2.2.1
    refine ⟨hend, g.listed o, t, members_first_complete hn hin hg, ?_⟩
    rwa [ClassGroup.chars, hg.1] at h

/-- A list may begin with a caret only behind the one that negates it. -/
theorem caret_iff {o : Options} {g : ClassGroup} {t : ScanState} (hg : ListsFrom o false g s t) :
    s.cursor.current = some (unit '^') ↔
      g.hyphenFirst = false ∧ (g.items.flatMap ClassItem.units).head? = some (unit '^') := by
  rw [current_of_members hg.2.1 hg.2.2.2.1]
  cases g.hyphenFirst with
  | false => simp
  | true => simp only [if_true, Bool.true_eq_false, false_and, iff_false]; decide

theorem ListsFrom.legal {o : Options} {negated : Bool} {g : ClassGroup} {t : ScanState} (hg : ListsFrom o negated g s t)
    (hcaret : negated = false → s.cursor.current ≠ some (unit '^')) : g.Legal o.variant := by
  refine ⟨hg.2.1, hg.2.2.1, fun hneg hhyphen hhead => ?_⟩
  obtain rfl : negated = false := hg.1.symm.trans hneg
  exact hcaret rfl ((caret_iff hg).mpr ⟨hhyphen, hhead⟩)

/-- A class expression is a list, and perhaps a class expression to subtract from it. -/
theorem classExpr_iff {o : Options} {n : Nat} {cs : CharSet} (hn : s.cursor.remaining ≤ n + 1)
    (hopen : s.cursor.current = some (unit '[')) :
    (classExpr o (n + 1)).Finds s cs s' ↔
      ∃ g t, ClassGroup.Legal o.variant g ∧ Follows ([.mode true, .pass (unit '[')] ++ g.course o.variant) s t ∧
        EndsList g.hyphenLast t ∧ EndsClass o n s.cursor.inClass (g.chars o) cs t s' := by
  have hopen' : (s.setInClass true).cursor.current = some (unit '[') := hopen
  have hlt := ScanState.remaining_advance hopen'
  have hn' : (s.setInClass true).cursor.remaining ≤ n + 1 := hn
  rw [classExpr_eq]
  constructor
  · intro h
    split at h
    · next hcaret =>
      have hlt' := ScanState.remaining_advance hcaret
      obtain ⟨g, t, hg, h⟩ := (finds_listed (by omega) rfl).mp h
      obtain ⟨hneg, _, _, hf, he⟩ := id hg
      refine ⟨g, t, hg.legal (fun h => absurd h.symm Bool.false_ne_true), ⟨hopen, ?_⟩, he, h⟩
      show Follows (reads _ ++ g.members o.variant) _ t
      rw [hneg]
      exact ⟨hcaret, hf⟩
    · next hcaret =>
      obtain ⟨g, t, hg, h⟩ := (finds_listed (by omega) rfl).mp h
      obtain ⟨hneg, _, _, hf, he⟩ := id hg
      refine ⟨g, t, hg.legal fun _ => hcaret, ⟨hopen, ?_⟩, he, h⟩
      show Follows (reads _ ++ g.members o.variant) _ t
      rw [hneg]
      exact hf
  · rintro ⟨g, t, ⟨hne, hitems, hcaret⟩, ⟨_, hf⟩, he, h⟩
    have hf : Follows (reads (if g.negated then [unit '^'] else []) ++ g.members o.variant)
      (s.setInClass true).advance t := hf
    cases hneg : g.negated with
    | true =>
      rw [hneg] at hf
      obtain ⟨hc, hf⟩ := hf
      have hlt' := ScanState.remaining_advance hc
      rw [if_pos hc]
      exact (finds_listed (by omega) rfl).mpr ⟨g, t, ⟨hneg, hne, hitems, hf, he⟩, h⟩
    | false =>
      rw [hneg] at hf
      have hg : ListsFrom o false g (s.setInClass true).advance t := ⟨hneg, hne, hitems, hf, he⟩
      rw [if_neg fun hc => hcaret hneg ((caret_iff hg).mp hc).1 ((caret_iff hg).mp hc).2]
      exact (finds_listed (by omega) rfl).mpr ⟨g, t, hg, h⟩

theorem classExpr_sound {o : Options} {n : Nat} {cs : CharSet} (hn : s.cursor.remaining ≤ n)
    (hopen : s.cursor.current = some (unit '[')) (h : (classExpr o n).Finds s cs s') :
    ∃ c : ClassTree, c.Legal o.variant ∧ cs = c.chars o ∧ Follows (c.course o.variant s.cursor.inClass) s s' := by
  induction n generalizing s s' cs with
  | zero => exact (finds_fail.mp h).elim
  | succ n ih =>
    obtain ⟨g, t, hg, hf, he, h⟩ := (classExpr_iff hn hopen).mp h
    have hin : t.cursor.inClass = true := by
      rw [follows_inClass hf]
      exact (g.reads_of_course o.variant).mode true
    rw [EndsClass] at h
    split at h
    · next hhyphen =>
      obtain ⟨taken, u, htaken, hclose, rfl, rfl⟩ := h
      rcases he with he | ⟨hlast, _, hnext⟩
      · exact absurd (hhyphen.symm.trans he) (by decide)
      · have hlt := ScanState.remaining_advance hhyphen
        have hopen' : t.advance.cursor.current = some (unit '[') := by rw [← next_of_inClass hin hhyphen, hnext]
        have hle := follows_remaining_le hf
        obtain ⟨c, hc, rfl, hfc⟩ := ih (by omega) hopen' htaken
        have hfc : Follows (c.course o.variant true) t.advance u := hin ▸ hfc
        refine ⟨.minus g c, ⟨hg, hlast, hc⟩, rfl, ?_⟩
        have hhyphen' : Follows [.pass (unit '-')] t t.advance := ⟨hhyphen, rfl⟩
        have hall := follows_append.mpr ⟨_, follows_append.mpr ⟨_, hf, hhyphen'⟩, hfc⟩
        exact follows_append.mpr ⟨u, hall, hclose, rfl⟩
    · next hhyphen =>
      obtain ⟨rfl, rfl⟩ := h
      have hclose := he.resolve_right fun h => hhyphen h.2.1
      exact ⟨.list g, hg, rfl, follows_append.mpr ⟨t, hf, hclose, rfl⟩⟩

theorem classExpr_complete {o : Options} {n : Nat} {c : ClassTree} (hn : s.cursor.remaining ≤ n)
    (hc : c.Legal o.variant) (hf : Follows (c.course o.variant s.cursor.inClass) s s') :
    (classExpr o n).Finds s (c.chars o) s' := by
  induction c generalizing s s' n with
  | list g =>
    obtain ⟨t, hlist, hclose, rfl⟩ := follows_append.mp hf
    have hopen : s.cursor.current = some (unit '[') := hlist.1
    obtain ⟨n, rfl⟩ := Cursor.exists_fuel hopen hn
    refine (classExpr_iff hn hopen).mpr ⟨g, t, hc, hlist, .inl hclose, ?_⟩
    rw [EndsClass, if_neg fun h => absurd (h.symm.trans hclose) (by decide)]
    exact ⟨rfl, rfl⟩
  | minus g c ih =>
    obtain ⟨hg, hlast, hc⟩ := hc
    obtain ⟨u, hboth, hclose, rfl⟩ := follows_append.mp hf
    obtain ⟨_, hfront, hfc⟩ := follows_append.mp hboth
    obtain ⟨t, hlist, hhyphen, rfl⟩ := follows_append.mp hfront
    have hopen : s.cursor.current = some (unit '[') := hlist.1
    have hin : t.cursor.inClass = true := by
      rw [follows_inClass hlist]
      exact (g.reads_of_course o.variant).mode true
    have hlt := ScanState.remaining_advance hhyphen
    have hle := follows_remaining_le hlist
    have hopen' : t.advance.cursor.current = some (unit '[') :=
      follows_head hfc true _ (by rw [(c.passed_course o.variant true true).1]; rfl)
    obtain ⟨n, rfl⟩ := Cursor.exists_fuel hopen hn
    have hfc : Follows (c.course o.variant t.advance.cursor.inClass) t.advance u := by
      rwa [show t.advance.cursor.inClass = true from hin]
    have hnext : t.cursor.next = some (unit '[') := by rw [next_of_inClass hin hhyphen, hopen']
    refine (classExpr_iff hn hopen).mpr ⟨g, t, hg, hlist, .inr ⟨hlast, hhyphen, hnext⟩, ?_⟩
    rw [EndsClass, if_pos hhyphen]
    exact ⟨_, u, ih (by omega) hc hfc, hclose, rfl, rfl⟩

/-- A class expression is found as one of its trees, with the set that the tree stands for. -/
theorem finds_classExpr {o : Options} {n : Nat} {cs : CharSet} (hn : s.cursor.remaining ≤ n)
    (hopen : s.cursor.current = some (unit '[')) :
    (classExpr o n).Finds s cs s' ↔
      ∃ c : ClassTree, c.Legal o.variant ∧ cs = c.chars o ∧ Follows (c.course o.variant s.cursor.inClass) s s' := by
  constructor
  · exact classExpr_sound hn hopen
  · rintro ⟨c, hc, rfl, hf⟩
    exact classExpr_complete hn hc hf

end XmlPattern.Scan
