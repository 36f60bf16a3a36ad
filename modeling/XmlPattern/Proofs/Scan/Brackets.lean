import XmlPattern.Proofs.Scan.Copying

/-!
# Brackets that are copied

What the scanners of native patterns copy that has a front and an end: classes with the brackets within them, and the
heads of groups up to the sign that ends them. Each finds exactly the texts of its part that stand at the cursor.

- `copyClass_sound`, `copyClass_complete`: classes.
- `copyGroupHead_sound`, `copyGroupHead_complete`: the heads of groups.
-/

namespace XmlPattern

open CodeUnit Grammar
open Verbatim (ClassRest ClassBody IsFlags insideSigns)

namespace Scan

variable {s s' : ScanState} {n : Nat}

/-! ## Classes -/

/-- Copies the rest of a class, and leaves the class with its closing bracket. -/
def classTail (outer : Bool) (rest : List Char) : List Event := echo rest ++ .mode outer :: echo [']']

/-- Copies a class, from a place that is inside another or not. -/
def classEvents (outer negated : Bool) (body : List Char) : List Event :=
  .mode true :: echo ('[' :: if negated then ['^'] else []) ++ classTail outer body

theorem classTail_append (outer : Bool) (front rest : List Char) :
    classTail outer (front ++ rest) = echo front ++ classTail outer rest := by
  rw [classTail, classTail, echo_append, List.append_assoc]

theorem classTail_cons (outer : Bool) (c : Char) (rest : List Char) :
    classTail outer (c :: rest) = echoed c ++ classTail outer rest := by
  rw [← echo_singleton, ← classTail_append]
  rfl

theorem taken_classTail (outer : Bool) (rest : List Char) : taken (classTail outer rest) = encode (rest ++ [']']) := by
  rw [encode, List.flatMap_append, classTail, taken_append, taken_echo]
  rfl

/-- What is in front of a closing bracket ends there as it does at the end of a text. -/
theorem endsBefore_bracket (e : Verbatim.Escape) (rest : List Char) :
    e.EndsBefore (rest ++ [']']) ↔ e.EndsBefore rest := by
  cases e with
  | lettered letter operand => exact Iff.rfl
  | numbered digits =>
    cases rest with
    | nil =>
      refine iff_of_true ?_ nofun
      rintro _ ⟨⟩
      rfl
    | cons c rest => exact Iff.rfl

/-- Whether an escape is over is told by the rest of the class. -/
theorem endsEscape_iff_of_classTail {outer : Bool} {rest : List Char} {e : Verbatim.Escape}
    (hf : Follows (classTail outer rest) s s') : EndsEscape s e ↔ e.EndsBefore rest := by
  have hne : rest ++ [']'] ≠ [] := List.append_ne_nil_of_right_ne_nil rest (List.cons_ne_nil _ _)
  rw [endsEscape_iff hf (taken_classTail outer rest), endsBefore_bracket, and_iff_left fun he => absurd he hne]

/-- A member that is a character is copied, and the class goes on behind it. -/
theorem finds_copyClassRest_char {outer : Bool} {inner : Nat} {u : CodeUnit} (hu : s.cursor.current = some u)
    (hne : ∀ c ∈ ['\\', '[', ']'], u.toAscii? ≠ some c) :
    (copyClassRest outer (n + 1) inner).Finds s () s' ↔
      (do
        copyCharacter
        copyClassRest outer n inner).Finds s () s' := by
  simp only [copyClassRest, finds_current_bind, hu]
  split
  · next hc => exact absurd hc (hne _ (by decide))
  · next hc => exact absurd hc (hne _ (by decide))
  · next hc => exact absurd hc (hne _ (by decide))
  · next hc => exact absurd hc (hne _ (by decide))
  · exact Iff.rfl

theorem copyClassRest_complete {outer : Bool} {inner : Nat} {rest : List Char} (h : ClassRest inner rest)
    (hn : s.cursor.remaining ≤ n) (hf : Follows (classTail outer rest) s s') :
    (copyClassRest outer n inner).Finds s () s' := by
  induction h generalizing s n with
  | nil =>
    obtain ⟨hcur, rfl⟩ := (follows_echo_singleton (s := s.setInClass outer) (by decide)).mp hf
    have hcur : s.cursor.current = some (unit ']') := hcur
    obtain ⟨n, rfl⟩ := Cursor.exists_fuel hcur hn
    simp only [copyClassRest, finds_current_bind, hcur]
    exact finds_setInClass_bind.mpr (finds_copy.mpr rfl)
  | @char inner c rest hc _ ih =>
    rw [classTail_cons] at hf
    obtain ⟨u, hu⟩ := Option.ne_none_iff_exists'.mp (current_ne_none_of_echoed hf)
    obtain ⟨t, hcopy, hrest⟩ := follows_append.mp hf
    have hlt := remaining_lt_of_echoed hcopy
    obtain ⟨n, rfl⟩ := Nat.exists_eq_add_one.mpr (show 0 < n by omega)
    have hne : ∀ d ∈ ['\\', '[', ']'], u.toAscii? ≠ some d := by
      intro d hd he
      exact hc (eq_of_ascii_of_echoed hf hu he ▸ hd)
    refine (finds_copyClassRest_char hu hne).mpr ?_
    exact finds_bind.mpr ⟨(), t, copyCharacter_complete hcopy, ih (by omega) hrest⟩
  | @opens inner rest _ ih =>
    rw [classTail_cons] at hf
    obtain ⟨hcur, hf⟩ := (follows_echoed (by decide)).mp hf
    have hlt := remaining_lt_of_copied hcur
    obtain ⟨n, rfl⟩ := Cursor.exists_fuel hcur hn
    simp only [copyClassRest, finds_current_bind, hcur]
    exact finds_copy_bind.mpr (ih (by omega) hf)
  | @closes inner rest _ ih =>
    rw [classTail_cons] at hf
    obtain ⟨hcur, hf⟩ := (follows_echoed (by decide)).mp hf
    have hlt := remaining_lt_of_copied hcur
    obtain ⟨n, rfl⟩ := Cursor.exists_fuel hcur hn
    simp only [copyClassRest, finds_current_bind, hcur]
    exact finds_copy_bind.mpr (ih (by omega) hf)
  | @escape inner e rest he hends _ ih =>
    rw [classTail_append] at hf
    obtain ⟨t, hescape, hrest⟩ := follows_append.mp hf
    obtain ⟨hslash, hlt⟩ := current_of_escape hescape
    obtain ⟨n, rfl⟩ := Cursor.exists_fuel hslash hn
    simp only [copyClassRest, finds_current_bind, hslash]
    exact finds_bind.mpr ⟨(), t, copyEscape_complete he hn hescape ((endsEscape_iff_of_classTail hrest).mpr hends),
      ih (by omega) hrest⟩

theorem copyClassRest_sound {outer : Bool} {inner : Nat} (hn : s.cursor.remaining ≤ n)
    (h : (copyClassRest outer n inner).Finds s () s') :
    ∃ rest, ClassRest inner rest ∧ Follows (classTail outer rest) s s' := by
  induction n generalizing s inner with
  | zero => exact (finds_fail.mp h).elim
  | succ n ih =>
    simp only [copyClassRest, finds_current_bind] at h
    split at h
    · exact (finds_fail.mp h).elim
    · next u hcur =>
      split at h
      · next hc =>
        obtain ⟨_, t, hescape, h⟩ := finds_bind.mp h
        obtain ⟨e, he, hf, hends⟩ := copyEscape_sound (current_of_ascii hcur hc) hn hescape
        obtain ⟨_, hlt⟩ := current_of_escape hf
        obtain ⟨rest, hrest, hrf⟩ := ih (by omega) h
        refine ⟨e.text ++ rest, .escape he ((endsEscape_iff_of_classTail hrf).mp hends) hrest, ?_⟩
        rw [classTail_append]
        exact follows_append.mpr ⟨t, hf, hrf⟩
      · next hc =>
        have hlt := remaining_lt_of_copied hcur
        obtain ⟨rest, hrest, hf⟩ := ih (by omega) (finds_copy_bind.mp h)
        refine ⟨'[' :: rest, .opens hrest, ?_⟩
        rw [classTail_cons]
        exact (follows_echoed (by decide)).mpr ⟨current_of_ascii hcur hc, hf⟩
      · next hc =>
        rw [finds_setInClass_bind] at h
        exact ⟨[], .nil, (follows_echo_singleton (s := s.setInClass outer) (by decide)).mpr
          ⟨current_of_ascii hcur hc, finds_copy.mp h⟩⟩
      · next hc =>
        have hlt := remaining_lt_of_copied hcur
        obtain ⟨rest, hrest, hf⟩ := ih (by omega) (finds_copy_bind.mp h)
        refine ⟨']' :: rest, .closes hrest, ?_⟩
        rw [classTail_cons]
        exact (follows_echoed (by decide)).mpr ⟨current_of_ascii hcur hc, hf⟩
      · next inner _ _ hslash hopen hclose hinner =>
        obtain ⟨_, t, hchar, h⟩ := finds_bind.mp h
        obtain ⟨c, hc⟩ := (finds_copyCharacter (by rw [hcur]; exact Option.some_ne_none u)).mp hchar
        have hlt := remaining_lt_of_echoed hc
        obtain ⟨rest, hrest, hf⟩ := ih (by omega) h
        have hall : Follows (echoed c ++ classTail outer rest) s s' := follows_append.mpr ⟨t, hc, hf⟩
        refine ⟨c :: rest, .char ?_ hrest, by rwa [classTail_cons]⟩
        -- A character that is copied as a member is none of those that have been looked for.
        have hascii : c.toNat < 0x80 → u.toAscii? = some c := toAscii?_of_echoed hall hcur
        simp only [List.mem_cons, List.not_mem_nil, or_false]
        rintro (rfl | rfl | rfl)
        · exact hslash (hascii (by decide))
        · exact hopen (hascii (by decide))
        · cases inner with
          | zero => exact hclose (hascii (by decide)) rfl
          | succ inner => exact hinner inner (hascii (by decide)) rfl

/-- A character that may be there is copied if it is, and the rest is scanned behind it. -/
theorem finds_optional {c : Char} (hc : c.toNat < 0x10000) {p : Scan Unit} :
    (do
      if ← isAt c then copy
      p).Finds s () s' ↔
    ∃ (b : Bool) (t : ScanState), Follows (echo (if b then [c] else [])) s t ∧
      (b = false → s.cursor.current ≠ some (unit c)) ∧ p.Finds t () s' := by
  rw [finds_isAt_bind]
  constructor
  · intro h
    split at h
    · next hat =>
      exact ⟨true, s.copied, (follows_echo_singleton hc).mpr ⟨beq_iff_eq.mp hat, rfl⟩,
        fun h => absurd h.symm Bool.false_ne_true, finds_copy_bind.mp h⟩
    · next hat => exact ⟨false, s, rfl, fun _ h => hat (beq_iff_eq.mpr h), h⟩
  · rintro ⟨b, t, hf, hb, h⟩
    cases b with
    | true =>
      obtain ⟨hcur, rfl⟩ := (follows_echo_singleton hc).mp hf
      rw [if_pos (beq_iff_eq.mpr hcur)]
      exact finds_copy_bind.mpr h
    | false =>
      obtain rfl := hf
      rw [if_neg fun hat => hb rfl (beq_iff_eq.mp hat)]
      exact h

theorem copyClass_complete {negated : Bool} {body : List Char} (h : ClassBody body)
    (hhead : negated = false → body.head? ≠ some '^') (hn : s.cursor.remaining ≤ n + 1)
    (hf : Follows (classEvents s.cursor.inClass negated body) s s') : (copyClass n).Finds s () s' := by
  generalize houter : s.cursor.inClass = outer at hf
  have hf : Follows (echoed '[' ++ (echo (if negated then ['^'] else []) ++ classTail outer body))
      (s.setInClass true) s' := hf
  obtain ⟨hopen, hf⟩ := (follows_echoed (by decide)).mp hf
  have hlt : (s.setInClass true).copied.cursor.remaining < s.cursor.remaining := remaining_lt_of_copied hopen
  obtain ⟨t, hcaret, hbody⟩ := follows_append.mp hf
  have hle := follows_remaining_le hcaret
  have hne : body ≠ [] := by
    rintro rfl
    cases h with
    | rest hne _ => exact hne rfl
  obtain ⟨c, rest, rfl⟩ := List.exists_cons_of_ne_nil hne
  have hfirst : Follows (echoed c ++ classTail outer rest) t s' := by rwa [classTail_cons] at hbody
  simp only [copyClass, finds_inClass_bind, finds_setInClass_bind, finds_copy_bind, houter]
  refine (finds_optional (by decide)).mpr ⟨negated, t, hcaret, ?_, ?_⟩
  · rintro rfl
    obtain rfl := hcaret
    exact fun hcur => hhead rfl (congrArg some (eq_of_echoed hfirst hcur (by decide)))
  · refine (finds_optional (by decide)).mpr ?_
    cases h with
    | bracket hrest =>
      obtain ⟨hcur, hf⟩ := (follows_echoed (by decide)).mp hfirst
      have hlt' := remaining_lt_of_copied hcur
      refine ⟨true, t.copied, (follows_echo_singleton (by decide)).mpr ⟨hcur, rfl⟩,
        fun h => absurd h.symm Bool.false_ne_true, ?_⟩
      exact copyClassRest_complete hrest (by omega) hf
    | rest _ hrest =>
      refine ⟨false, t, rfl, fun _ hcur => ?_, copyClassRest_complete hrest (by omega) hbody⟩
      obtain rfl := eq_of_echoed hfirst hcur (by decide)
      exact hrest.head_ne rfl

theorem copyClass_sound (hopen : s.cursor.current = some (unit '[')) (hn : s.cursor.remaining ≤ n + 1)
    (h : (copyClass n).Finds s () s') :
    ∃ negated body, ClassBody body ∧ (negated = false → body.head? ≠ some '^') ∧
      Follows (classEvents s.cursor.inClass negated body) s s' := by
  simp only [copyClass, finds_inClass_bind, finds_setInClass_bind, finds_copy_bind] at h
  have hopen : (s.setInClass true).cursor.current = some (unit '[') := hopen
  have hlt : (s.setInClass true).copied.cursor.remaining < s.cursor.remaining := remaining_lt_of_copied hopen
  obtain ⟨negated, t, hcaret, hnegated, h⟩ := (finds_optional (by decide)).mp h
  obtain ⟨front, u, hclose, hfront, h⟩ := (finds_optional (by decide)).mp h
  have hle := follows_remaining_le hcaret
  have hle' := follows_remaining_le hclose
  obtain ⟨rest, hrest, hf⟩ := copyClassRest_sound (by omega) h
  have hbody : Follows (classTail s.cursor.inClass ((if front then [']'] else []) ++ rest)) t s' := by
    rw [classTail_append]
    exact follows_append.mpr ⟨u, hclose, hf⟩
  refine ⟨negated, (if front then [']'] else []) ++ rest, ?_, ?_, ?_⟩
  · cases front with
    | true => exact .bracket hrest
    | false =>
      refine .rest ?_ hrest
      rintro rfl
      exact hfront rfl ((follows_echo_singleton (s := t.setInClass s.cursor.inClass) (by decide)).mp hbody).1
  · rintro rfl hhead
    obtain ⟨tail, htail⟩ := List.head?_eq_some_iff.mp hhead
    obtain rfl := hcaret
    rw [htail, classTail_cons] at hbody
    exact hnegated rfl ((follows_echoed (by decide)).mp hbody).1
  · exact (follows_echoed (by decide)).mpr ⟨hopen, follows_append.mpr ⟨t, hcaret, hbody⟩⟩

/-! ## Heads of groups -/

/-- What the end of a head says about whether the group has an inside. -/
def EndsHead (sign : Char) (inside : Bool) : Prop := if inside then sign ∈ insideSigns else sign = ')'

theorem EndsHead.mem {sign : Char} {inside : Bool} (h : EndsHead sign inside) : sign ∈ ')' :: insideSigns := by
  cases inside with
  | true => exact List.mem_cons_of_mem _ h
  | false => exact h ▸ List.mem_cons_self

theorem headEnds_ascii {sign : Char} (h : sign ∈ ')' :: insideSigns) : sign.toNat < 0x80 := by
  have hall : ∀ c ∈ ')' :: insideSigns, c.toNat < 0x80 := List.all_iff_forall_prop.mp (by decide)
  exact hall sign h

/-- The sign that ends a head is copied, and the head is over. -/
theorem copyGroupHead_sign {sign : Char} {inside : Bool} (hcur : s.cursor.current = some (unit sign))
    (h : EndsHead sign inside) : (copyGroupHead (n + 1)).Finds s inside s.copied := by
  simp only [copyGroupHead, finds_current_bind, hcur]
  cases inside with
  | false =>
    obtain rfl : sign = ')' := h
    exact finds_copy_bind.mpr (finds_pure.mpr ⟨rfl, rfl⟩)
  | true =>
    have h : sign ∈ insideSigns := h
    simp only [insideSigns, List.mem_cons, List.not_mem_nil, or_false] at h
    rcases h with rfl | rfl | rfl | rfl <;> exact finds_copy_bind.mpr (finds_pure.mpr ⟨rfl, rfl⟩)

/-- The sign of what looks behind itself is no flag, so that it ends the head. -/
theorem lookBehind_sign {flags : List Char} {sign x : Char} (hx : x ∈ ['=', '!']) (h : IsFlags flags)
    (hcur : s.cursor.current = some (unit x)) (hf : Follows (echo (flags ++ [sign])) s s') : flags = [] ∧ sign = x := by
  have hall : ∀ x ∈ ['=', '!'], x ∈ ')' :: insideSigns := List.all_iff_forall_prop.mp (by decide)
  have hsign := hall x hx
  cases flags with
  | nil =>
    have hf : Follows (echoed sign ++ []) s s' := hf
    exact ⟨rfl, eq_of_echoed hf hcur (headEnds_ascii hsign)⟩
  | cons d flags =>
    have hf : Follows (echoed d ++ echo (flags ++ [sign])) s s' := hf
    obtain rfl := eq_of_echoed hf hcur (headEnds_ascii hsign)
    exact absurd hsign (h d List.mem_cons_self)

theorem copyGroupHead_complete {flags : List Char} {sign : Char} {inside : Bool} (h : IsFlags flags)
    (hsign : EndsHead sign inside) (hn : s.cursor.remaining ≤ n) (hf : Follows (echo (flags ++ [sign])) s s') :
    (copyGroupHead n).Finds s inside s' := by
  induction flags generalizing s n with
  | nil =>
    have hascii := headEnds_ascii hsign.mem
    obtain ⟨hcur, rfl⟩ := (follows_echo_singleton (by omega)).mp hf
    obtain ⟨n, rfl⟩ := Cursor.exists_fuel hcur hn
    exact copyGroupHead_sign hcur hsign
  | cons c flags ih =>
    obtain ⟨hc, hflags⟩ := List.forall_mem_cons.mp h
    have hf : Follows (echoed c ++ echo (flags ++ [sign])) s s' := hf
    obtain ⟨u, hu⟩ := Option.ne_none_iff_exists'.mp (current_ne_none_of_echoed hf)
    have heq : ∀ {d}, u.toAscii? = some d → c = d := eq_of_ascii_of_echoed hf hu
    obtain ⟨t, hcopy, hrest⟩ := follows_append.mp hf
    have hlt := remaining_lt_of_echoed hcopy
    obtain ⟨n, rfl⟩ := Cursor.exists_fuel hu hn
    have hmore : (do
        copyCharacter
        copyGroupHead n).Finds s inside s' :=
      finds_bind.mpr ⟨(), t, copyCharacter_complete hcopy, ih hflags (by omega) hrest⟩
    simp only [copyGroupHead, finds_current_bind, hu]
    split
    iterate 5
      next hd => exact absurd (by decide) (heq hd ▸ hc)
    · next hd =>
      obtain rfl := heq hd
      rw [finds_next_bind]
      split
      · next hnext =>
        -- The sign behind `<` ends the head in any case, so that no more than the two have been copied.
        obtain ⟨x, hx, hcurrent⟩ := current_of_lookBehind hnext
        obtain ⟨_, rfl⟩ := (follows_echo_singleton (by decide)).mp (echo_singleton '<' ▸ hcopy)
        obtain ⟨rfl, rfl⟩ := lookBehind_sign hx hflags hcurrent hrest
        have hascii := headEnds_ascii hsign.mem
        obtain ⟨_, rfl⟩ := (follows_echo_singleton (by omega)).mp hrest
        cases inside with
        | true => exact finds_copy_bind.mpr (finds_copy_bind.mpr (finds_pure.mpr ⟨rfl, rfl⟩))
        | false =>
          obtain rfl : sign = ')' := hsign
          exact absurd hx (by decide)
      · exact hmore
    · exact hmore

/-- The head of a group stands between two states. -/
def IsHead (inside : Bool) (s s' : ScanState) : Prop :=
  ∃ flags sign, IsFlags flags ∧ EndsHead sign inside ∧ Follows (echo (flags ++ [sign])) s s'

/-- A sign that ends a head is one by itself. -/
theorem isHead_of_sign {c : Char} {b inside : Bool} (hcur : s.cursor.current = some (unit c)) (hend : EndsHead c b)
    (h : (do
      copy
      return b).Finds s inside s') : IsHead inside s s' := by
  rw [finds_copy_bind, finds_pure] at h
  obtain ⟨rfl, rfl⟩ := h
  have hascii := headEnds_ascii hend.mem
  exact ⟨[], c, Verbatim.isFlags_nil, hend, (follows_echo_singleton (by omega)).mpr ⟨hcur, rfl⟩⟩

/-- A character that ends no head is a flag in front of one. -/
theorem isHead_of_flag {u : CodeUnit} {inside : Bool} {p : Scan Bool} (hcur : s.cursor.current = some u)
    (hne : ∀ c ∈ ')' :: insideSigns, u.toAscii? ≠ some c) (hp : ∀ {t}, p.Finds t inside s' → IsHead inside t s')
    (h : (do
      copyCharacter
      p).Finds s inside s') : IsHead inside s s' := by
  obtain ⟨_, t, hchar, h⟩ := finds_bind.mp h
  obtain ⟨c, hc⟩ := (finds_copyCharacter (by rw [hcur]; exact Option.some_ne_none u)).mp hchar
  obtain ⟨flags, sign, hflags, hsign, hf⟩ := hp h
  have hall : Follows (echoed c ++ echo (flags ++ [sign])) s s' := follows_append.mpr ⟨t, hc, hf⟩
  refine ⟨c :: flags, sign, List.forall_mem_cons.mpr ⟨fun hmem => ?_, hflags⟩, hsign, hall⟩
  exact hne c hmem (toAscii?_of_echoed hall hcur (headEnds_ascii hmem))

theorem copyGroupHead_sound {inside : Bool} (h : (copyGroupHead n).Finds s inside s') : IsHead inside s s' := by
  induction n generalizing s with
  | zero => exact (finds_fail.mp h).elim
  | succ n ih =>
    simp only [copyGroupHead, finds_current_bind] at h
    split at h
    · exact (finds_fail.mp h).elim
    · next u hcur =>
      split at h
      · next hc => exact isHead_of_sign (b := false) (current_of_ascii hcur hc) rfl h
      iterate 4
        next hc => exact isHead_of_sign (b := true) (current_of_ascii hcur hc) (show _ ∈ insideSigns by decide) h
      · next hc =>
        rw [finds_next_bind] at h
        split at h
        · next hnext =>
          rw [finds_copy_bind, finds_copy_bind, finds_pure] at h
          obtain ⟨rfl, rfl⟩ := h
          obtain ⟨x, hx, hbehind⟩ := current_of_lookBehind hnext
          have hall : ∀ x ∈ ['=', '!'], x ∈ insideSigns ∧ x.toNat < 0x10000 := List.all_iff_forall_prop.mp (by decide)
          have hsign := (follows_echo_singleton (hall x hx).2).mpr ⟨hbehind, rfl⟩
          exact ⟨['<'], x, List.forall_mem_singleton.mpr (by decide), (hall x hx).1,
            (follows_echoed (by decide)).mpr ⟨current_of_ascii hcur hc, hsign⟩⟩
        · refine isHead_of_flag hcur (fun d hd => ?_) ih h
          rw [hc]
          rintro ⟨⟩
          exact absurd hd (by decide)
      · next h₁ h₂ h₃ h₄ h₅ _ =>
        refine isHead_of_flag hcur (fun d hd he => ?_) ih h
        simp only [insideSigns, List.mem_cons, List.not_mem_nil, or_false] at hd
        rcases hd with rfl | rfl | rfl | rfl | rfl
        · exact h₁ he
        · exact h₂ he
        · exact h₃ he
        · exact h₄ he
        · exact h₅ he

end Scan

end XmlPattern
