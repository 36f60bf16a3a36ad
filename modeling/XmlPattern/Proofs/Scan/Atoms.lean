import XmlPattern.Proofs.Scan.References

/-!
# Atoms

What the scanner of atoms finds, given what the scanner of the inside of groups finds.

- `schemaAtom_sound`: an atom that is found is legal, and its events have happened; otherwise none starts here.
- `schemaAtom_complete`: a legal atom whose events can happen is found.
-/

namespace XmlPattern

open Grammar

namespace Scan

variable {s s' : ScanState} {o : Options} {n depth : Nat}

/-- A state between atoms, with enough fuel for what is left. -/
structure Ready (o : Options) (n : Nat) (s : ScanState) : Prop where
  options : s.options = o
  inClass : s.cursor.inClass = false
  fuel : s.cursor.remaining ≤ n
  valid : s.groups.Valid

/-- What the inside of a group is found to be. -/
def FindsInside (o : Options) (n depth : Nat) (nested : Scan Unit) : Prop :=
  ∀ s s', Ready o n s → nested.Finds s () s' →
    depth < o.maxDepth ∧ ∃ r, Regexp.Legal o (depth + 1) s.groups r ∧ Follows (r.course o s.groups) s s'

/-- An atom is over at a state: no digit follows that a back-reference would have taken. -/
def EndsAtom (s : ScanState) : Atom → Prop
  | .reference digits => EndsReference s digits
  | _ => True

/-- An atom that stands between two states. -/
def IsAtom (o : Options) (depth : Nat) (s s' : ScanState) (a : Atom) : Prop :=
  a.Legal o depth s.groups ∧ Follows (a.course o s.groups) s s' ∧ EndsAtom s' a

theorem isAtom_leaf {l : Leaf} {t : ScanState} (hl : l.Legal o.variant) (hf : Follows (l.passing o.variant) s t) :
    IsAtom o depth s (t.write (memberFragment o (l.member o))) (.leaf l) :=
  ⟨hl, follows_append.mpr ⟨t, hf, rfl⟩, trivial⟩

theorem metaChars_ascii {c : Char} (h : c ∈ metaChars) : c.toNat < 0x80 := by
  have hall : ∀ c ∈ metaChars, c.toNat < 0x80 := List.all_iff_forall_prop.mp (by decide)
  exact hall c h

theorem anchorChars_ascii {c : Char} (h : c ∈ anchorChars) : c.toNat < 0x80 := by
  have hall : ∀ c ∈ anchorChars, c.toNat < 0x80 := List.all_iff_forall_prop.mp (by decide)
  exact hall c h

/-! ## Escapes and characters -/

/-- What an escape in a pattern is, when it is no back-reference. -/
theorem writeEscape_sound (hn : s.cursor.remaining ≤ n + 1) (hc : s.cursor.current = some (unit '\\'))
    (h : (do write (memberFragment o (← escape o n)) : Scan Unit).Finds s.advance () s') :
    ∃ a, IsAtom o depth s s' a := by
  have hlt := ScanState.remaining_advance hc
  obtain ⟨m, t, hm, h⟩ := finds_bind.mp h
  obtain rfl := finds_write.mp h
  rcases (finds_escape (by omega)).mp hm with ⟨letter, hl, rfl, hf⟩ | ⟨e, hl, rfl, hf⟩
  · exact ⟨_, isAtom_leaf (l := .single (.escaped letter)) hl ⟨hc, hf⟩⟩
  · exact ⟨_, isAtom_leaf (l := .set e) hl (follows_append.mpr ⟨_, ⟨hc, rfl⟩, hf⟩)⟩

theorem schemaEscape_sound (hs : Ready o (n + 1) s) (hc : s.cursor.current = some (unit '\\'))
    (h : (schemaEscape o n).Finds s () s') : ∃ a, IsAtom o depth s s' a := by
  have hlt := ScanState.remaining_advance hc
  have hfuel := hs.fuel
  rw [schemaEscape, finds_advance_bind, finds_ascii_bind] at h
  split at h
  · next c hascii =>
    split at h
    · next href =>
      simp only [Bool.and_eq_true, bne_iff_ne] at href
      obtain ⟨⟨hx, hdig⟩, hzero⟩ := href
      obtain ⟨es, t, hnum, hmem, hf, he, rfl⟩ :=
        (finds_backReference (by omega) (ascii_eq_some.mp hascii).2 hdig hs.valid).mp h
      refine ⟨.reference (c :: es), ⟨hx, hnum, ?_, hmem⟩, ?_, ?_⟩
      · exact fun h => hzero (Option.some.inj h)
      · exact follows_append.mpr ⟨t, ⟨hc, hf⟩, rfl⟩
      · exact he
    · exact writeEscape_sound hs.fuel hc h
  · exact writeEscape_sound hs.fuel hc h

theorem plainCharacter_sound {u : CodeUnit} (hc : s.cursor.current = some u)
    (hplain : ∀ c, u.toAscii? = some c → c ∉ metaChars ∧ (o.variant.isXPath = true → c ∉ anchorChars))
    (h : (plainCharacter o).Finds s () s') : ∃ a, IsAtom o depth s s' a := by
  rcases finds_character_bind.mp h with ⟨hend, _⟩ | ⟨c, t, hf, h⟩
  · rw [hc] at hend
    cases hend
  · obtain rfl := finds_write.mp h
    have hascii : c.toNat < 0x80 → u.toAscii? = some c := by
      intro hlt
      obtain rfl := Option.some.inj (hc.symm.trans (current_of_follows_char hf hlt))
      exact CodeUnit.toAscii?_eq_some.mpr ⟨hlt, rfl⟩
    have hm : c ∉ metaChars := fun hmem => (hplain c (hascii (metaChars_ascii hmem))).1 hmem
    have ha : o.variant.isXPath = true → c ∉ anchorChars := fun hx hmem =>
      (hplain c (hascii (anchorChars_ascii hmem))).2 hx hmem
    exact ⟨_, isAtom_leaf (l := .single (.plain c)) ⟨hm, ha⟩ hf⟩

/-! ## Groups -/

theorem Ready.follows {es : List Event} {m : Nat} (hs : Ready o n s) (hf : Follows es s s')
    (hmode : modeAfter false es = false) (hm : s'.cursor.remaining ≤ m) (hvalid : s'.groups.Valid) : Ready o m s' where
  options := by rw [follows_options hf, hs.options]
  inClass := by rw [follows_inClass hf, hs.inClass, hmode]
  fuel := hm
  valid := hvalid

theorem Ready.afterOpening (hs : Ready o (n + 1) s) (hc : s.cursor.current = some (unit '(')) :
    Ready o n (s.advance.openGroup.write (.verbatim ['('])) := by
  have hf : Follows [.pass (unit '('), .opens, .write (.verbatim ['('])] s
      (s.advance.openGroup.write (.verbatim ['('])) := ⟨hc, rfl⟩
  have hlt := ScanState.remaining_advance hc
  have hfuel := hs.fuel
  refine hs.follows hf rfl (Nat.le_of_lt_succ (Nat.lt_of_lt_of_le hlt hfuel)) fun k hk => ?_
  have hk := hs.valid k hk
  exact ⟨hk.1, Nat.le_succ_of_le hk.2⟩

theorem Ready.afterOpeningPlain (hs : Ready o (n + 1) s) (hc : s.cursor.current = some (unit '('))
    (hq : s.advance.cursor.current = some (unit '?')) (hcolon : s.advance.advance.cursor.current = some (unit ':')) :
    Ready o n (s.advance.advance.advance.write (.verbatim ['(', '?', ':'])) := by
  have hf : Follows (reads (basic ['(', '?', ':']) ++ [.write (.verbatim ['(', '?', ':'])]) s
      (s.advance.advance.advance.write (.verbatim ['(', '?', ':'])) := ⟨hc, hq, hcolon, rfl⟩
  have hlt := follows_remaining hf false
  have hfuel := hs.fuel
  refine hs.follows hf rfl ?_ hs.valid
  have hlen : (passed false (reads (basic ['(', '?', ':']) ++ [.write (.verbatim ['(', '?', ':'])])).length = 3 := rfl
  omega

theorem capturingGroup_sound {nested : Scan Unit} (hin : FindsInside o n depth nested) (hs : Ready o (n + 1) s)
    (hc : s.cursor.current = some (unit '(')) (h : (capturingGroup nested).Finds s.advance () s') :
    ∃ a, IsAtom o depth s s' a := by
  rw [capturingGroup, finds_openGroup_bind, writeText, finds_write_bind, groupBody] at h
  obtain ⟨_, t, hnested, h⟩ := finds_bind.mp h
  rw [finds_expect_bind, finds_closeGroup_bind] at h
  obtain ⟨hclose, h⟩ := h
  obtain rfl := finds_copy.mp h
  obtain ⟨hdepth, r, hr, hf⟩ := hin _ _ (hs.afterOpening hc) hnested
  refine ⟨.group true r, ⟨hdepth, hr⟩, ⟨hc, follows_append.mpr ⟨t, hf, ?_⟩⟩, trivial⟩
  exact (follows_copies (by decide)).mpr ⟨hclose, rfl⟩

theorem group_sound {nested : Scan Unit} (hin : FindsInside o n depth nested) (hs : Ready o (n + 1) s)
    (hc : s.cursor.current = some (unit '(')) (h : (group o.variant nested).Finds s () s') :
    ∃ a, IsAtom o depth s s' a := by
  rw [group, finds_advance_bind, finds_isAt_bind] at h
  split at h
  · next hx =>
    rw [Bool.and_eq_true] at hx
    have hq := beq_iff_eq.mp hx.2
    rw [finds_advance_bind, finds_expect_bind, finds_advance_bind, writeText, finds_write_bind, groupBody] at h
    obtain ⟨hcolon, h⟩ := h
    obtain ⟨_, t, hnested, h⟩ := finds_bind.mp h
    rw [finds_expect_bind, finds_pure_bind] at h
    obtain ⟨hclose, h⟩ := h
    obtain rfl := finds_copy.mp h
    obtain ⟨hdepth, r, hr, hf⟩ := hin _ _ (hs.afterOpeningPlain hc hq hcolon) hnested
    refine ⟨.group false r, ⟨hdepth, hx.1, hr⟩, ?_, trivial⟩
    refine follows_append.mpr ⟨t, ⟨hc, hq, hcolon, hf⟩, ?_⟩
    exact (follows_copies (by decide)).mpr ⟨hclose, rfl⟩
  · exact capturingGroup_sound hin hs hc h

/-! ## Classes and anchors -/

theorem classAtom_sound {cs : CharSet} {t : ScanState} (hs : Ready o (n + 1) s)
    (hc : s.cursor.current = some (unit '['))
    (h : (classExpr o (n + 1)).Finds s cs t) : ∃ a, IsAtom o depth s (t.write (memberFragment o (.set cs))) a := by
  obtain ⟨c, hl, rfl, hf⟩ := (finds_classExpr hs.fuel hc).mp h
  rw [hs.inClass] at hf
  exact ⟨_, isAtom_leaf (l := .charClass c) hl hf⟩

theorem anchor_sound {c : Char} (hc : s.cursor.current = some (unit c)) (hx : o.variant.isXPath = true)
    (hanchor : c ∈ anchorChars) (h : copy.Finds s () s') : ∃ a, IsAtom o depth s s' a := by
  obtain rfl := finds_copy.mp h
  refine ⟨.anchor c, ⟨hx, hanchor⟩, ?_, trivial⟩
  exact (follows_copies (Nat.lt_trans (anchorChars_ascii hanchor) (by decide))).mpr ⟨hc, rfl⟩

/-! ## Atoms -/

/-- The characters that an atom may start with, though they do not stand for themselves. -/
theorem isSchemaOperator_or_starts {c : Char} (h : c ∈ metaChars) :
    isSchemaOperator c = true ∨ c ∈ ['(', '\\', '[', '.'] := by
  have hall : ∀ c ∈ metaChars, isSchemaOperator c = true ∨ c ∈ ['(', '\\', '[', '.'] :=
    List.all_iff_forall_prop.mp (by decide)
  exact hall c h

theorem isAnchor_iff {b : Bool} {c : Char} : (b && (c == '^' || c == '$')) = true ↔ b = true ∧ c ∈ anchorChars := by
  rw [mem_anchorChars, Bool.and_eq_true, Bool.or_eq_true, beq_iff_eq, beq_iff_eq]

theorem finds_found {p : Scan Unit} {b : Bool} :
    (do p; return true : Scan Bool).Finds s b s' ↔ b = true ∧ p.Finds s () s' := by
  rw [finds_bind]
  constructor
  · rintro ⟨_, t, hp, h⟩
    obtain ⟨rfl, rfl⟩ := finds_pure.mp h
    exact ⟨rfl, hp⟩
  · rintro ⟨rfl, hp⟩
    exact ⟨(), s', hp, finds_pure.mpr ⟨rfl, rfl⟩⟩

/-- No atom starts at a state: it is at the end, or on an operator. -/
def AtOperator (s : ScanState) : Prop :=
  s.cursor.current = none ∨ ∃ c, isSchemaOperator c = true ∧ s.cursor.current = some (unit c)

theorem schemaAtom_sound {nested : Scan Unit} {b : Bool} (hin : FindsInside o n depth nested) (hs : Ready o (n + 1) s)
    (h : (schemaAtom o n nested).Finds s b s') :
    b = false ∧ s' = s ∧ AtOperator s ∨ b = true ∧ ∃ a, IsAtom o depth s s' a := by
  rw [schemaAtom, finds_current_bind] at h
  split at h
  · next hend =>
    obtain ⟨rfl, rfl⟩ := finds_pure.mp h
    exact .inl ⟨rfl, rfl, .inl hend⟩
  · next u hu =>
    split at h
    · next hc =>
      obtain ⟨rfl, hp⟩ := finds_found.mp h
      exact .inr ⟨rfl, group_sound hin hs (current_of_ascii hu hc) hp⟩
    · next hc =>
      obtain ⟨rfl, hp⟩ := finds_found.mp h
      exact .inr ⟨rfl, schemaEscape_sound hs (current_of_ascii hu hc) hp⟩
    · next hc =>
      obtain ⟨cs, t, hcs, h⟩ := finds_bind.mp h
      rw [finds_write_bind] at h
      obtain ⟨rfl, rfl⟩ := finds_pure.mp h
      exact .inr ⟨rfl, classAtom_sound hs (current_of_ascii hu hc) hcs⟩
    · next hc =>
      dsimp only at h
      rw [finds_advance_bind, finds_write_bind] at h
      obtain ⟨rfl, rfl⟩ := finds_pure.mp h
      exact .inr ⟨rfl, _, isAtom_leaf (l := .dot) trivial ⟨current_of_ascii hu hc, rfl⟩⟩
    · next c hopen hbackslash hbracket hdot hc =>
      dsimp only at h
      split at h
      · next hop =>
        obtain ⟨rfl, rfl⟩ := finds_pure.mp h
        exact .inl ⟨rfl, rfl, .inr ⟨c, hop, current_of_ascii hu hc⟩⟩
      · next hop =>
        have hmeta : c ∉ metaChars := by
          intro hmem
          have hstart := (isSchemaOperator_or_starts hmem).resolve_left hop
          simp only [List.mem_cons, List.not_mem_nil, or_false] at hstart
          rcases hstart with rfl | rfl | rfl | rfl
          · exact hopen rfl
          · exact hbackslash rfl
          · exact hbracket rfl
          · exact hdot rfl
        split at h
        · next hanchor =>
          obtain ⟨hx, hanchor⟩ := isAnchor_iff.mp hanchor
          obtain ⟨rfl, hp⟩ := finds_found.mp h
          exact .inr ⟨rfl, anchor_sound (current_of_ascii hu hc) hx hanchor hp⟩
        · next hanchor =>
          obtain ⟨rfl, hp⟩ := finds_found.mp h
          refine .inr ⟨rfl, plainCharacter_sound hu (fun d hd => ?_) hp⟩
          obtain rfl := Option.some.inj (hc.symm.trans hd)
          exact ⟨hmeta, fun hx hmem => hanchor (isAnchor_iff.mpr ⟨hx, hmem⟩)⟩
    · next hc =>
      obtain ⟨rfl, hp⟩ := finds_found.mp h
      exact .inr ⟨rfl, plainCharacter_sound hu (fun d hd => absurd (hc.symm.trans hd) (Option.some_ne_none d).symm) hp⟩

/-! ## What atoms begin with -/

/-- A state on a unit that is no operator. -/
def AtStart (s : ScanState) : Prop :=
  ∃ u, s.cursor.current = some u ∧ ∀ c, isSchemaOperator c = true → u ≠ unit c

theorem isSchemaOperator_meta {c : Char} (h : isSchemaOperator c = true) : c ∈ metaChars := by
  have hall : ∀ c ∈ ['?', '*', '+', ')', '\x7b', '\x7d', '|', ']'], c ∈ metaChars :=
    List.all_iff_forall_prop.mp (by decide)
  exact hall c (of_decide_eq_true h)

theorem atStart_of_unit {c : Char} (hc : c.toNat < 0x80) (hop : isSchemaOperator c = false)
    (h : s.cursor.current = some (unit c)) : AtStart s := by
  refine ⟨_, h, fun d hd he => ?_⟩
  have hlt := metaChars_ascii (isSchemaOperator_meta hd)
  rw [(CodeUnit.ofBasic_inj (by omega) (by omega)).mp he, hd] at hop
  cases hop

theorem atStart_of_leaf {l : Leaf} (hl : l.Legal o.variant) (hf : Follows (l.passing o.variant) s s') : AtStart s := by
  cases l with
  | dot => exact atStart_of_unit (c := '.') (by decide) (by decide) hf.1
  | single x =>
    cases x with
    | plain c =>
      obtain ⟨u, us, hu⟩ := List.exists_cons_of_ne_nil (ofChar_ne_nil c)
      have hcur : s.cursor.current = some u := by
        rw [show Leaf.passing o.variant (.single (.plain c)) = reads (CodeUnit.ofChar c) from rfl, hu] at hf
        exact hf.1
      refine ⟨u, hcur, ?_⟩
      rintro d hd rfl
      have hmem := isSchemaOperator_meta hd
      exact hl.1 (ascii_of_follows_char hf (ascii_of_current hcur (metaChars_ascii hmem)) ▸ hmem)
    | escaped letter => exact atStart_of_unit (c := '\\') (by decide) (by decide) hf.1
  | set e =>
    obtain ⟨_, h, _⟩ := follows_append.mp (show Follows (_ ++ _) s s' from hf)
    exact atStart_of_unit (c := '\\') (by decide) (by decide) h.1
  | charClass c =>
    have h := follows_head (show Follows (c.course o.variant false) s s' from hf) false
    rw [(c.passed_course o.variant false false).1] at h
    exact atStart_of_unit (c := '[') (by decide) (by decide) (h _ rfl)

theorem atStart_of_atom {a : Atom} {G : Groups} (ha : a.Legal o depth G) (hf : Follows (a.course o G) s s') :
    AtStart s := by
  cases a with
  | leaf l =>
    obtain ⟨_, hf, _⟩ := follows_append.mp (show Follows (_ ++ _) s s' from hf)
    exact atStart_of_leaf ha hf
  | anchor c =>
    rcases mem_anchorChars.mp ha.2 with rfl | rfl <;> exact atStart_of_unit (by decide) (by decide) hf.1
  | reference digits => exact atStart_of_unit (c := '\\') (by decide) (by decide) hf.1
  | group capturing r =>
    cases capturing <;> exact atStart_of_unit (c := '(') (by decide) (by decide) hf.1

/-- A state from which no quantifier is read: what follows is an atom, or the end of a branch. -/
def PastQuantifier (s : ScanState) : Prop := ∀ c ∈ ['*', '?', '+', '\x7b'], s.cursor.current ≠ some (unit c)

theorem pastQuantifier_of_current {d : Char} (hd : d = ')' ∨ d = '|') (h : s.cursor.current = some (unit d)) :
    PastQuantifier s := by
  have hall : ∀ c ∈ ['*', '?', '+', '\x7b'], unit ')' ≠ unit c ∧ unit '|' ≠ unit c :=
    List.all_iff_forall_prop.mp (by decide)
  intro c hc he
  have hu : unit d = unit c := Option.some.inj (h.symm.trans he)
  rcases hd with rfl | rfl
  · exact (hall c hc).1 hu
  · exact (hall c hc).2 hu

theorem AtStart.pastQuantifier (h : AtStart s) : PastQuantifier s := by
  obtain ⟨u, hu, hop⟩ := h
  have hall : ∀ c ∈ ['*', '?', '+', '\x7b'], isSchemaOperator c = true := List.all_iff_forall_prop.mp (by decide)
  exact fun c hc he => hop c (hall c hc) (Option.some.inj (hu.symm.trans he))

/-- Events that pass nothing leave the cursor where it is. -/
theorem current_of_passed_nil {es : List Event} (h : Follows es s s') (b : Bool) (hp : passed b es = []) :
    s'.cursor.current = s.cursor.current := by
  induction es generalizing s b with
  | nil => rw [h]
  | cons e es ih =>
    cases e with
    | pass u => cases hp
    | mode b' => exact ih (s := s.setInClass b') h b' hp
    | write f => exact ih (s := s.write f) h b hp
    | opens => exact ih (s := s.openGroup) h b hp
    | closes n => exact ih (s := s.closeGroup n) h b hp
    | warns r => exact ih (s := s.warn r) h b hp

theorem pastQuantifier_of_branch {b : Branch} {G : Groups} (hb : b.Legal o depth G) (hf : Follows (b.course o G) s s')
    (hend : PastQuantifier s') : PastQuantifier s := by
  cases b with
  | nil =>
    obtain rfl := hf
    exact hend
  | cons a q b =>
    rw [Branch.course, List.append_assoc] at hf
    obtain ⟨_, hf, _⟩ := follows_append.mp hf
    exact (atStart_of_atom hb.1 hf).pastQuantifier

theorem pastQuantifier_of_regexp {r : Regexp} {G : Groups} (hr : r.Legal o depth G) (hf : Follows (r.course o G) s s')
    (hend : PastQuantifier s') : PastQuantifier s := by
  cases r with
  | branch b => exact pastQuantifier_of_branch hr hf hend
  | bar b r =>
    rw [Regexp.course, List.append_assoc] at hf
    obtain ⟨t, hf, hrest⟩ := follows_append.mp hf
    exact pastQuantifier_of_branch hr.1 hf (pastQuantifier_of_current (.inr rfl) hrest.1)

/-! ## Legal atoms are found -/

/-- What follows a backslash is no back-reference unless it begins with a digit. -/
theorem schemaEscape_of_escape
    (hdigit : ∀ c, c.isDigit = true → s.advance.cursor.current ≠ some (unit c)) {m : Member} {t : ScanState}
    (h : (escape o n).Finds s.advance m t) :
    (schemaEscape o n).Finds s () (t.write (memberFragment o m)) := by
  rw [schemaEscape, finds_advance_bind, finds_ascii_bind]
  split
  · next c hascii =>
    rw [if_neg]
    · exact finds_bind.mpr ⟨m, t, h, finds_write.mpr rfl⟩
    · simp only [Bool.and_eq_true, not_and]
      rintro ⟨_, hd⟩
      exact absurd (ascii_eq_some.mp hascii).2 (hdigit c hd)
  · exact finds_bind.mpr ⟨m, t, h, finds_write.mpr rfl⟩

theorem not_digit_of_unit {c : Char} (hc : c.toNat < 0x80) (hd : c.isDigit = false)
    (h : s.cursor.current = some (unit c)) : ∀ d, d.isDigit = true → s.cursor.current ≠ some (unit d) := by
  rintro d hdig he
  have hlt := isDigit_lt hdig
  rw [h] at he
  rw [(CodeUnit.ofBasic_inj (by omega) (by omega)).mp (Option.some.inj he), hdig] at hd
  cases hd

theorem escapable_not_digit {v : Variant} {c : Char} (h : c ∈ escapable v) : c.isDigit = false := by
  have hall : ∀ c ∈ escapable v, c.isDigit = false := by
    cases v <;> exact List.all_iff_forall_prop.mp (by decide)
  exact hall c h

theorem setLetters_not_digit {c : Char} (h : c ∈ setLetters) : c.isDigit = false := by
  have hall : ∀ c ∈ setLetters, c.isDigit = false := List.all_iff_forall_prop.mp (by decide)
  exact hall c h

theorem schemaEscape_of_leaf {l : Leaf} {t : ScanState} (hs : Ready o (n + 1) s)
    (hc : s.cursor.current = some (unit '\\')) (hl : l.Legal o.variant) (hf : Follows (l.passing o.variant) s t) :
    (schemaEscape o n).Finds s () (t.write (l.fragment o)) := by
  have hlt := ScanState.remaining_advance hc
  have hfuel := hs.fuel
  have hne : ∀ c : Char, c.toNat < 0x80 → c ≠ '\\' → s.cursor.current ≠ some (unit c) := by
    intro c hlt hcne h
    rw [hc] at h
    exact hcne ((CodeUnit.ofBasic_inj (by omega) (by decide)).mp (Option.some.inj h).symm)
  cases l with
  | dot => exact absurd hf.1 (hne '.' (by decide) (by decide))
  | single x =>
    cases x with
    | plain c =>
      have hcb := ascii_of_follows_char hf (ascii_of_current hc (by decide))
      exact absurd (by rw [hcb]; decide) hl.1
    | escaped letter =>
      obtain ⟨hlt', _⟩ := escapable_ascii hl
      exact schemaEscape_of_escape (not_digit_of_unit hlt' (escapable_not_digit hl) hf.2.1)
        ((finds_escape (by omega)).mpr (.inl ⟨letter, hl, rfl, hf.2⟩))
  | set e =>
    obtain ⟨_, ⟨_, rfl⟩, hf⟩ := follows_append.mp (show Follows (_ ++ _) s t from hf)
    refine schemaEscape_of_escape ?_ ((finds_escape (by omega)).mpr (.inr ⟨e, hl, rfl, hf⟩))
    cases e with
    | letter c => exact not_digit_of_unit (setLetters_ascii (v := o.variant) hl).1 (setLetters_not_digit hl) hf.1
    | property negated name =>
      have h : s.advance.cursor.current = some (unit (if negated then 'P' else 'p')) := hf.1
      cases negated <;> exact not_digit_of_unit (by decide) (by decide) h
  | charClass c =>
    have h := follows_head (show Follows (c.course o.variant false) s t from hf) false
    rw [(c.passed_course o.variant false false).1] at h
    exact absurd (h _ rfl) (hne '[' (by decide) (by decide))

theorem schemaAtom_of_plain {nested : Scan Unit} {c : Char} {t : ScanState}
    (hl : Single.LegalAtom o.variant (.plain c)) (hf : Follows (reads (CodeUnit.ofChar c)) s t) :
    (schemaAtom o n nested).Finds s true (t.write (memberFragment o (.char c))) := by
  obtain ⟨u, us, hu⟩ := List.exists_cons_of_ne_nil (ofChar_ne_nil c)
  have hcur : s.cursor.current = some u := by
    have hf := hf
    rw [hu] at hf
    exact hf.1
  have hplain : (plainCharacter o).Finds s () (t.write (memberFragment o (.char c))) :=
    finds_character_bind.mpr (.inr ⟨c, t, hf, finds_write.mpr rfl⟩)
  have hascii : ∀ d, u.toAscii? = some d → c = d := fun d hd =>
    ascii_of_follows_char hf (by rw [hcur]; exact hd)
  have hne : ∀ d ∈ metaChars, u.toAscii? ≠ some d := fun d hd h => hl.1 (hascii d h ▸ hd)
  have hend := finds_found.mpr ⟨rfl, hplain⟩
  rw [schemaAtom, finds_current_bind, hcur]
  dsimp only
  split
  · next h => exact absurd h (hne _ (by decide))
  · next h => exact absurd h (hne _ (by decide))
  · next h => exact absurd h (hne _ (by decide))
  · next h => exact absurd h (hne _ (by decide))
  · next d _ _ _ _ h =>
    obtain rfl := hascii d h
    rw [if_neg fun hop => hl.1 (isSchemaOperator_meta hop), if_neg]
    · exact hend
    · intro hanchor
      obtain ⟨hx, hc⟩ := isAnchor_iff.mp hanchor
      exact hl.2 hx hc
  · exact hend

theorem schemaAtom_of_leaf {nested : Scan Unit} {l : Leaf} {t : ScanState} (hs : Ready o (n + 1) s)
    (hl : l.Legal o.variant) (hf : Follows (l.passing o.variant) s t) :
    (schemaAtom o n nested).Finds s true (t.write (l.fragment o)) := by
  have hbackslash : s.cursor.current = some (unit '\\') →
      (schemaAtom o n nested).Finds s true (t.write (l.fragment o)) := by
    intro hc
    rw [schemaAtom, finds_current_bind, hc]
    exact finds_found.mpr ⟨rfl, schemaEscape_of_leaf hs hc hl hf⟩
  cases l with
  | dot =>
    obtain ⟨hc, rfl⟩ := hf
    rw [schemaAtom, finds_current_bind, hc]
    show Finds (do advance; write (memberFragment o (.set (dotChars o.dotAll))); return true) _ _ _
    rw [finds_advance_bind, finds_write_bind]
    exact finds_pure.mpr ⟨rfl, rfl⟩
  | single x =>
    cases x with
    | plain c => exact schemaAtom_of_plain hl hf
    | escaped letter => exact hbackslash hf.1
  | set e =>
    obtain ⟨_, h, _⟩ := follows_append.mp (show Follows (_ ++ _) s t from hf)
    exact hbackslash h.1
  | charClass c =>
    have hf : Follows (c.course o.variant false) s t := hf
    have h := follows_head hf false
    rw [(c.passed_course o.variant false false).1] at h
    have hopen : s.cursor.current = some (unit '[') := h _ rfl
    rw [← hs.inClass] at hf
    rw [schemaAtom, finds_current_bind, hopen]
    refine finds_bind.mpr ⟨_, t, (finds_classExpr hs.fuel hopen).mpr ⟨c, hl, rfl, hf⟩, ?_⟩
    rw [finds_write_bind]
    exact finds_pure.mpr ⟨rfl, rfl⟩

/-- That the inside of a group is found, whichever way the group captures. -/
def InsideFound (o : Options) (n depth : Nat) (nested : Scan Unit) : Atom → Prop
  | .group _ r => ∀ s s', Ready o n s → Regexp.Legal o (depth + 1) s.groups r →
      Follows (r.course o s.groups) s s' → s'.cursor.current = some (unit ')') → nested.Finds s () s'
  | _ => True

theorem schemaEscape_of_reference {digits : List Char} {t : ScanState} (hs : Ready o (n + 1) s)
    (hc : s.cursor.current = some (unit '\\')) (hl : Atom.Legal o depth s.groups (.reference digits))
    (hf : Follows (reads (basic digits)) s.advance t) (he : EndsReference t digits) :
    (schemaEscape o n).Finds s () (t.write (.reference (Numeral.ofDecimal digits) o.caseBlind)) := by
  obtain ⟨hx, hnum, hzero, hmem⟩ := hl
  obtain ⟨c, es, rfl⟩ := List.exists_cons_of_ne_nil hnum.1
  have hd := hnum.2 c List.mem_cons_self
  have hlt := ScanState.remaining_advance hc
  have hfuel := hs.fuel
  have hcond : (o.variant.isXPath && c.isDigit && c != '0') = true := by
    simp only [hx, hd, Bool.true_and, bne_iff_ne]
    exact fun h => hzero (congrArg some h)
  rw [schemaEscape, finds_advance_bind, finds_ascii_bind, ascii_of_current hf.1 (isDigit_lt hd)]
  dsimp only
  rw [if_pos hcond]
  exact (finds_backReference (by omega) hf.1 hd hs.valid).mpr ⟨es, t, hnum, hmem, hf, he, rfl⟩

theorem group_of_capturing {nested : Scan Unit} {r : Regexp} (hs : Ready o (n + 1) s)
    (hin : InsideFound o n depth nested (.group true r)) (hl : Atom.Legal o depth s.groups (.group true r))
    (hf : Follows (Atom.course o s.groups (.group true r)) s s') : (group o.variant nested).Finds s () s' := by
  obtain ⟨hc, hf⟩ := hf
  obtain ⟨t, hinside, hend⟩ := follows_append.mp hf
  obtain ⟨hclose, rfl⟩ := (follows_copies (c := ')') (by decide)).mp
    (show Follows (copies ')') (t.closeGroup _) s' from hend)
  have hpast : PastQuantifier s.advance := pastQuantifier_of_regexp (s := s.advance.openGroup.write (.verbatim ['(']))
    hl.2 hinside (pastQuantifier_of_current (.inl rfl) hclose)
  rw [group, finds_advance_bind, finds_isAt_bind, if_neg]
  · rw [capturingGroup, finds_openGroup_bind, writeText, finds_write_bind, groupBody]
    refine finds_bind.mpr ⟨(), t, hin _ _ (hs.afterOpening hc) hl.2 hinside hclose, ?_⟩
    rw [finds_expect_bind, finds_closeGroup_bind]
    exact ⟨hclose, finds_copy.mpr rfl⟩
  · rw [Bool.and_eq_true, beq_iff_eq]
    exact fun h => hpast '?' (by decide) h.2

theorem group_of_plain {nested : Scan Unit} {r : Regexp} (hs : Ready o (n + 1) s)
    (hin : InsideFound o n depth nested (.group false r)) (hl : Atom.Legal o depth s.groups (.group false r))
    (hf : Follows (Atom.course o s.groups (.group false r)) s s') : (group o.variant nested).Finds s () s' := by
  obtain ⟨t, hfront, hend⟩ := follows_append.mp hf
  obtain ⟨hc, hq, hcolon, hinside⟩ := hfront
  obtain ⟨hclose, rfl⟩ := (follows_copies (by decide)).mp hend
  rw [group, finds_advance_bind, finds_isAt_bind, if_pos]
  · rw [finds_advance_bind, finds_expect_bind, finds_advance_bind, writeText, finds_write_bind, groupBody]
    refine ⟨hcolon, finds_bind.mpr ⟨(), t, hin _ _ (hs.afterOpeningPlain hc hq hcolon) hl.2.2 hinside hclose, ?_⟩⟩
    rw [finds_expect_bind, finds_pure_bind]
    exact ⟨hclose, finds_copy.mpr rfl⟩
  · rw [Bool.and_eq_true, beq_iff_eq]
    exact ⟨hl.2.1, hq⟩

theorem schemaAtom_complete {nested : Scan Unit} {a : Atom} (hs : Ready o (n + 1) s)
    (hin : InsideFound o n depth nested a) (ha : IsAtom o depth s s' a) :
    (schemaAtom o n nested).Finds s true s' := by
  obtain ⟨hl, hf, he⟩ := ha
  cases a with
  | leaf l =>
    obtain ⟨t, hpass, rfl⟩ := follows_append.mp (show Follows (_ ++ [.write _]) s s' from hf)
    exact schemaAtom_of_leaf hs hl hpass
  | anchor c =>
    have hx : o.variant.isXPath = true := hl.1
    rcases mem_anchorChars.mp hl.2 with rfl | rfl
    all_goals
      obtain ⟨hcur, rfl⟩ := (follows_copies (by decide)).mp hf
      rw [schemaAtom, finds_current_bind, hcur]
      show Finds (if _ then _ else if _ then _ else _) _ _ _
      rw [if_neg (by decide), hx, if_pos (by decide), finds_copy_bind]
      exact finds_pure.mpr ⟨rfl, rfl⟩
  | reference digits =>
    obtain ⟨t, hread, rfl⟩ := follows_append.mp (show Follows (_ ++ [.write _]) s s' from hf)
    obtain ⟨hc, hread⟩ := hread
    rw [schemaAtom, finds_current_bind, hc]
    exact finds_found.mpr ⟨rfl, schemaEscape_of_reference hs hc hl hread he⟩
  | group capturing r =>
    have hc : s.cursor.current = some (unit '(') := by cases capturing <;> exact hf.1
    rw [schemaAtom, finds_current_bind, hc]
    refine finds_found.mpr ⟨rfl, ?_⟩
    cases capturing with
    | true => exact group_of_capturing hs hin hl hf
    | false => exact group_of_plain hs hin hl hf

end Scan

end XmlPattern
