import Mathlib.Data.Bool.AllAny
import XmlPattern.Proofs.Scan.Parts

/-!
# Characters and escapes

What the scanners of characters and of escapes find. At the end of an expression the scanner of characters finds NUL; a
class that this happens in is never closed, because a cursor stays at the end.

- `finds_character_bind`: a character is all of its units.
- `finds_escape`: an escape is one of a single character or of a set.
-/

namespace XmlPattern.Scan

open Grammar

variable {s s' : ScanState}

/-! ## Characters -/

theorem character_sound {c : Char} (h : character.Finds s c s') :
    s.cursor.current = none ∧ c = '\x00' ∧ s' = s ∨
      ∃ front u, CodeUnit.ofChar c = front ++ [u] ∧ Follows (reads front) s s' ∧ s'.cursor.current = some u := by
  rw [character, finds_current_bind] at h
  split at h
  · next hcur =>
    obtain ⟨rfl, rfl⟩ := finds_pure.mp h
    exact .inl ⟨hcur, rfl, rfl⟩
  · next u hcur =>
    split at h
    · next hu =>
      simp only [finds_advance_bind, finds_current_bind] at h
      split at h
      · next v hcur' =>
        split at h
        · next hv =>
          obtain ⟨hc, rfl⟩ := finds_pure.mp h
          exact .inr ⟨[u], v, hc ▸ CodeUnit.ofChar_combine hu hv, ⟨hcur, rfl⟩, hcur'⟩
        · exact (finds_fail.mp h).elim
      · exact (finds_fail.mp h).elim
    · next hu =>
      split at h
      · exact (finds_fail.mp h).elim
      · next hv =>
        obtain ⟨rfl, rfl⟩ := finds_pure.mp h
        have hs : u.isSurrogate = false := by
          rw [CodeUnit.isSurrogate_eq, Bool.eq_false_iff.mpr hu, Bool.eq_false_iff.mpr hv]
          rfl
        exact .inr ⟨[], u, CodeUnit.ofChar_toBasic hs, rfl, hcur⟩

theorem character_complete {c : Char} {front : List CodeUnit} {u : CodeUnit} (hc : CodeUnit.ofChar c = front ++ [u])
    (hf : Follows (reads front) s s') (hcur : s'.cursor.current = some u) : character.Finds s c s' := by
  rw [character, finds_current_bind]
  rcases CodeUnit.ofChar_cases c with ⟨u', h, hu, rfl⟩ | ⟨u', v, h, hu, hv, rfl⟩
  · obtain ⟨rfl, rfl⟩ : front = [] ∧ u = u' := by
      have happend : front ++ [u] = [] ++ [u'] := hc.symm.trans h
      simpa using List.append_inj' happend rfl
    obtain rfl := hf
    rw [CodeUnit.isSurrogate_eq, Bool.or_eq_false_iff] at hu
    simp only [hcur, hu.1, hu.2, Bool.false_eq_true, if_false, finds_pure, and_self]
  · obtain ⟨rfl, rfl⟩ : front = [u'] ∧ u = v := by
      have happend : front ++ [u] = [u'] ++ [v] := hc.symm.trans h
      simpa using List.append_inj' happend rfl
    obtain ⟨hcur', rfl⟩ := hf
    simp only [hcur', hu, if_true, finds_advance_bind, finds_current_bind, hcur, hv, finds_pure, and_self]

theorem finds_character {c : Char} :
    character.Finds s c s' ↔ s.cursor.current = none ∧ c = '\x00' ∧ s' = s ∨
      ∃ front u, CodeUnit.ofChar c = front ++ [u] ∧ Follows (reads front) s s' ∧ s'.cursor.current = some u := by
  constructor
  · exact character_sound
  · intro h
    rcases h with ⟨hcur, rfl, rfl⟩ | ⟨front, u, hc, hf, hcur⟩
    · rw [character, finds_current_bind, hcur]
      exact finds_pure.mpr ⟨rfl, rfl⟩
    · exact character_complete hc hf hcur

theorem finds_character_bind {β : Type} {f : Char → Scan β} {b : β} :
    (do
      let c ← character
      advance
      f c).Finds s b s' ↔
      s.cursor.current = none ∧ (f '\x00').Finds s.advance b s' ∨
        ∃ c t, Follows (reads (CodeUnit.ofChar c)) s t ∧ (f c).Finds t b s' := by
  simp only [finds_bind (p := character), finds_character, finds_advance_bind]
  constructor
  · rintro ⟨c, t, ⟨hcur, rfl, rfl⟩ | ⟨front, u, hc, hf, hcur⟩, h⟩
    · exact .inl ⟨hcur, h⟩
    · refine .inr ⟨c, t.advance, ?_, h⟩
      rw [hc, reads_append]
      exact follows_append.mpr ⟨t, hf, hcur, rfl⟩
  · rintro (⟨hcur, h⟩ | ⟨c, t, hf, h⟩)
    · exact ⟨_, _, .inl ⟨hcur, rfl, rfl⟩, h⟩
    · obtain ⟨front, u, hc⟩ : ∃ front u, CodeUnit.ofChar c = front ++ [u] := by
        rcases CodeUnit.ofChar_cases c with ⟨u, h, _⟩ | ⟨u, v, h, _⟩
        · exact ⟨[], u, h⟩
        · exact ⟨[u], v, h⟩
      rw [hc, reads_append] at hf
      obtain ⟨t', hfront, hcur, rfl⟩ := follows_append.mp hf
      exact ⟨c, t', .inr ⟨front, u, hc, hfront, hcur⟩, h⟩

/-! ## Names in braces -/

theorem run_braced_of_end (n : Nat) (h : s.cursor.current = none) :
    (braced n).run s = (.error (s.diagnostic (.expected '\x7d')), s) := by
  cases n with
  | zero => rfl
  | succ n =>
    simp only [braced, run_bind, current, run_command, Command.run, h]
    rfl

theorem braced_sound {n : Nat} {name : List CodeUnit} (hn : s.cursor.remaining ≤ n) (h : (braced n).Finds s name s') :
    unit '\x7d' ∉ name ∧ Follows (reads name) s s' ∧ s'.cursor.current = some (unit '\x7d') := by
  induction n generalizing s name with
  | zero => exact (finds_fail.mp h).elim
  | succ n ih =>
    rw [braced, finds_current_bind] at h
    split at h
    · exact (finds_fail.mp h).elim
    · next u hcur =>
      have hlt := ScanState.remaining_advance hcur
      split at h
      · next hu =>
        obtain ⟨rfl, rfl⟩ := finds_pure.mp h
        exact ⟨List.not_mem_nil, rfl, by rw [hcur, beq_iff_eq.mp hu]⟩
      · next hu =>
        simp only [finds_advance_bind] at h
        obtain ⟨name, t, hname, h⟩ := finds_bind.mp h
        obtain ⟨rfl, rfl⟩ := finds_pure.mp h
        obtain ⟨hmem, hf, he⟩ := ih (by omega) hname
        refine ⟨?_, ⟨hcur, hf⟩, he⟩
        rw [List.mem_cons, not_or]
        exact ⟨fun h => hu (beq_iff_eq.mpr h.symm), hmem⟩

theorem braced_complete {n : Nat} {name : List CodeUnit} (hn : s.cursor.remaining ≤ n) (hmem : unit '\x7d' ∉ name)
    (hf : Follows (reads name) s s') (he : s'.cursor.current = some (unit '\x7d')) : (braced n).Finds s name s' := by
  induction n generalizing s name with
  | zero =>
    have := follows_remaining_le hf
    have := Cursor.remaining_pos he
    omega
  | succ n ih =>
    rw [braced, finds_current_bind]
    cases name with
    | nil =>
      obtain rfl := hf
      rw [he]
      exact finds_pure.mpr ⟨rfl, rfl⟩
    | cons u name =>
      obtain ⟨hcur, hf⟩ := hf
      rw [List.mem_cons, not_or] at hmem
      have hlt := ScanState.remaining_advance hcur
      simp only [hcur, beq_iff_eq, if_neg (Ne.symm hmem.1), finds_advance_bind]
      exact finds_bind.mpr ⟨name, s', ih (by omega) hmem.2 hf, finds_pure.mpr ⟨rfl, rfl⟩⟩

theorem finds_braced {n : Nat} {name : List CodeUnit} (hn : s.cursor.remaining ≤ n) :
    (braced n).Finds s name s' ↔
      unit '\x7d' ∉ name ∧ Follows (reads name) s s' ∧ s'.cursor.current = some (unit '\x7d') :=
  ⟨braced_sound hn, fun h => braced_complete hn h.1 h.2.1 h.2.2⟩

theorem charsNamed_isSome_iff {name : List Char} :
    (Block.charsNamed? false name).isSome = true ↔ ∃ b ∈ Block.all, b.name.toList = name := by
  have h : (Block.charsNamed? false name).isSome = true ↔ Block.named false name ≠ [] := by
    unfold Block.charsNamed?
    split
    · next h => simp [h]
    · next h => simpa using h
  rw [h, Block.named, Ne, List.filter_eq_nil_iff]
  simp [Block.hasName]

theorem ofCode_ne_nil_iff {code : List Char} : Unicode.Category.ofCode code ≠ [] ↔ code ∈ categoryCodes := by
  constructor
  · intro h
    unfold Unicode.Category.ofCode at h
    split at h
    · next a =>
      obtain ⟨k, hk⟩ := List.exists_mem_of_ne_nil _ h
      obtain rfl : k.code.1 = a := by simpa using (List.mem_filter.mp hk).2
      cases k <;> decide
    · next a b =>
      obtain ⟨k, hk⟩ := List.exists_mem_of_ne_nil _ h
      have hab : k.code = (a, b) := by simpa using (List.mem_filter.mp hk).2
      obtain ⟨rfl, rfl⟩ : k.code.1 = a ∧ k.code.2 = b := by rw [hab]; exact ⟨rfl, rfl⟩
      cases k <;> decide
    · exact absurd rfl h
  · revert code
    decide

theorem charsOfCode_isSome_iff {code : List Char} :
    (Unicode.Category.charsOfCode? code).isSome = true ↔ code ∈ categoryCodes := by
  rw [← ofCode_ne_nil_iff]
  unfold Unicode.Category.charsOfCode?
  split
  · next h => simp [h]
  · next h => simpa using h

theorem finds_blockChars {v : Variant} {name : List Char} {cs : CharSet} :
    (blockChars v name).Finds s cs s' ↔ IsKnownName v ('I' :: 's' :: name) ∧
      cs = Grammar.namedChars v ('I' :: 's' :: name) ∧ Follows (nameWarnings v ('I' :: 's' :: name)) s s' := by
  unfold blockChars
  rw [IsKnownName.eq_1, Grammar.namedChars.eq_1, nameWarnings.eq_1]
  cases h : Block.charsNamed? v.isLenient name with
  | some t =>
    have hk : v.isLenient = true ∨ ∃ b ∈ Block.all, b.name.toList = name := by
      by_cases hv : v.isLenient = true
      · exact .inl hv
      · rw [Bool.eq_false_iff.mpr hv] at h
        exact .inr (charsNamed_isSome_iff.mp (by rw [h]; rfl))
    simp only [hk, true_and, Option.isNone_some, Bool.false_eq_true, if_false, Option.getD_some, finds_pure,
      follows_nil]
  | none =>
    by_cases hv : v.isLenient = true
    · simp only [hv, true_or, true_and, Option.isNone_none, if_true, Option.getD_none, finds_warn_bind, finds_pure,
        follows_warns, follows_nil]
    · have hb : ¬ ∃ b ∈ Block.all, b.name.toList = name := by
        rw [Bool.eq_false_iff.mpr hv] at h
        rw [← charsNamed_isSome_iff, h]
        decide
      simp only [hv, hb, or_self, false_and, Bool.false_eq_true, if_false, finds_fail_bind]

theorem finds_namedChars {v : Variant} {name : List Char} {cs : CharSet} :
    (Scan.namedChars v name).Finds s cs s' ↔
      IsKnownName v name ∧ cs = Grammar.namedChars v name ∧ Follows (nameWarnings v name) s s' := by
  unfold Scan.namedChars
  split
  · exact finds_blockChars
  · next hne =>
    rw [IsKnownName.eq_2 v name hne, Grammar.namedChars.eq_2 v name hne, nameWarnings.eq_2 v name hne,
      ← charsOfCode_isSome_iff]
    cases Unicode.Category.charsOfCode? name <;> simp

/-! ## Escapes -/

theorem character?_eq (v : Variant) (c : Char) :
    Escape.character? v c = if c ∈ escapable v then some (escapedChar c) else none := by
  unfold Escape.character? escapable escapedChar
  split
  · simp
  · simp
  · simp
  · cases v.isXPath <;> simp
  · next hn hr ht hd =>
    have hplain : c ∉ ['n', 'r', 't', '$'] := by
      simp only [List.mem_cons, List.not_mem_nil, or_false, not_or]
      exact ⟨hn, hr, ht, hd⟩
    simp only [List.mem_cons, List.not_mem_nil, or_false, not_or] at hplain
    cases v.isXPath <;> simp [hplain]

theorem ofLetter?_isSome_iff {c : Char} (hc : c.toNat < 0x80) :
    (Escape.ofLetter? c.toLower).isSome = true ↔ c ∈ setLetters := by
  have h : ∀ n < 0x80, (Escape.ofLetter? (Char.ofNat n).toLower).isSome = true ↔ Char.ofNat n ∈ setLetters := by
    decide
  simpa using h c.toNat hc

theorem cursor_of_warnings {v : Variant} {name : List Char} (h : Follows (nameWarnings v name) s s') :
    s'.cursor = s.cursor := by
  unfold nameWarnings at h
  split at h
  · split at h
    · rw [show s' = s.warn _ from h]
      rfl
    · rw [show s' = s from h]
  · rw [show s' = s from h]

theorem escapable_ascii {v : Variant} {c : Char} (h : c ∈ escapable v) : c.toNat < 0x80 ∧ c ≠ 'p' ∧ c ≠ 'P' := by
  have hall : ∀ c ∈ escapable v, c.toNat < 0x80 ∧ c ≠ 'p' ∧ c ≠ 'P' := by
    cases v <;> exact List.all_iff_forall_prop.mp (by decide)
  exact hall c h

theorem setLetters_ascii {v : Variant} {c : Char} (h : c ∈ setLetters) :
    c.toNat < 0x80 ∧ c ≠ 'p' ∧ c ≠ 'P' ∧ c ∉ escapable v := by
  have hall : ∀ c ∈ setLetters, c.toNat < 0x80 ∧ c ≠ 'p' ∧ c ≠ 'P' ∧ c ∉ escapable v := by
    cases v <;> exact List.all_iff_forall_prop.mp (by decide)
  exact hall c h

theorem finds_propertyEscape {o : Options} {n : Nat} (negated : Bool) {m : Member} (hn : s.cursor.remaining ≤ n)
    (hcur : s.cursor.current = some (unit (if negated then 'P' else 'p'))) :
    (propertyEscape o n negated).Finds s m s' ↔
      ∃ name, (SetEscape.property negated name).Legal o.variant ∧ m = .set ((SetEscape.property negated name).chars o) ∧
        Follows ((SetEscape.property negated name).body o.variant) s s' := by
  unfold propertyEscape
  simp only [finds_advance_bind, finds_expect_bind, SetEscape.body, follows_append, reads_append]
  have hle : s.advance.cursor.current = some (unit '\x7b') → s.advance.advance.cursor.remaining ≤ n := by
    intro hopen
    have hpassed : Follows [.pass _, .pass _] s s.advance.advance := ⟨hcur, hopen, rfl⟩
    have h := follows_remaining_le hpassed
    omega
  constructor
  · rintro ⟨hopen, h⟩
    obtain ⟨name, t, hname, h⟩ := finds_bind.mp h
    obtain ⟨hmem, hf, hclose⟩ := (finds_braced (hle hopen)).mp hname
    obtain ⟨cs, u, hcs, h⟩ := finds_bind.mp h
    obtain ⟨hk, rfl, hw⟩ := finds_namedChars.mp hcs
    rw [finds_advance_bind] at h
    obtain ⟨rfl, rfl⟩ := finds_pure.mp h
    refine ⟨name, ⟨hmem, hk⟩, rfl, u, ⟨t, ⟨_, ⟨hcur, hopen, rfl⟩, hf⟩, hw⟩, ?_, rfl⟩
    rw [cursor_of_warnings hw]
    exact hclose
  · rintro ⟨name, ⟨hmem, hk⟩, rfl, u, ⟨t, ⟨_, ⟨_, hopen, rfl⟩, hf⟩, hw⟩, hclose, rfl⟩
    refine ⟨hopen, finds_bind.mpr ⟨name, t, (finds_braced (hle hopen)).mpr ⟨hmem, hf, ?_⟩, ?_⟩⟩
    · rw [← cursor_of_warnings hw]
      exact hclose
    · exact finds_bind.mpr
        ⟨_, u, finds_namedChars.mpr ⟨hk, rfl, hw⟩, finds_advance_bind.mpr (finds_pure.mpr ⟨rfl, rfl⟩)⟩

theorem escape_sound {o : Options} {n : Nat} {m : Member} (hn : s.cursor.remaining ≤ n)
    (h : (escape o n).Finds s m s') :
    (∃ letter ∈ escapable o.variant, m = .char (escapedChar letter) ∧ Follows (reads [unit letter]) s s') ∨
      ∃ e : SetEscape, e.Legal o.variant ∧ m = .set (e.chars o) ∧ Follows (e.body o.variant) s s' := by
  simp only [escape, finds_ascii_bind] at h
  split at h
  · exact (finds_fail.mp h).elim
  · next hc =>
    obtain ⟨name, hl, hm, hf⟩ := (finds_propertyEscape false hn (ascii_eq_some.mp hc).2).mp h
    exact .inr ⟨_, hl, hm, hf⟩
  · next hc =>
    obtain ⟨name, hl, hm, hf⟩ := (finds_propertyEscape true hn (ascii_eq_some.mp hc).2).mp h
    exact .inr ⟨_, hl, hm, hf⟩
  · next letter hp hP hc =>
    obtain ⟨hlt, hcur⟩ := ascii_eq_some.mp hc
    rw [character?_eq] at h
    split at h
    · next c _ hchar =>
      rw [finds_advance_bind] at h
      obtain ⟨rfl, rfl⟩ := finds_pure.mp h
      split at hchar
      · next hmem => exact .inl ⟨letter, hmem, by rw [Option.some.inj hchar], hcur, rfl⟩
      · cases hchar
    · next cs hchar hset =>
      rw [finds_advance_bind] at h
      obtain ⟨rfl, rfl⟩ := finds_pure.mp h
      refine .inr ⟨.letter letter, (ofLetter?_isSome_iff hlt).mp (by rw [hset]; rfl), ?_, hcur, rfl⟩
      rw [SetEscape.chars, hset]
      rfl
    · exact (finds_fail.mp h).elim

theorem escape_of_letter {o : Options} {n : Nat} {letter : Char} (hmem : letter ∈ escapable o.variant)
    (hcur : s.cursor.current = some (unit letter)) :
    (escape o n).Finds s (.char (escapedChar letter)) s.advance := by
  obtain ⟨hlt, hp⟩ := escapable_ascii hmem
  simp only [escape, finds_ascii_bind, ascii_of_current hcur hlt]
  split
  · next hc => cases hc
  · next hc => exact absurd (Option.some.inj hc) hp.1
  · next hc => exact absurd (Option.some.inj hc) hp.2
  · next hc =>
    obtain rfl := Option.some.inj hc
    simp only [character?_eq, if_pos hmem, finds_advance_bind, finds_pure, and_self]

theorem escape_of_set {o : Options} {n : Nat} {e : SetEscape} (hn : s.cursor.remaining ≤ n) (hl : e.Legal o.variant)
    (hf : Follows (e.body o.variant) s s') : (escape o n).Finds s (.set (e.chars o)) s' := by
  simp only [escape, finds_ascii_bind]
  cases e with
  | letter c =>
    obtain ⟨hcur, rfl⟩ := hf
    obtain ⟨hlt, hp, hP, hesc⟩ := setLetters_ascii (v := o.variant) hl
    obtain ⟨cs, hcs⟩ := Option.isSome_iff_exists.mp ((ofLetter?_isSome_iff hlt).mpr hl)
    simp only [ascii_of_current hcur hlt, character?_eq, if_neg hesc, hcs, SetEscape.chars, Option.getD_some,
      finds_advance_bind, finds_pure, and_self]
  | property negated name =>
    have hcur : s.cursor.current = some (unit (if negated then 'P' else 'p')) := hf.1
    have hfinds := (finds_propertyEscape _ hn hcur).mpr ⟨name, hl, rfl, hf⟩
    cases negated with
    | true =>
      simp only [ascii_of_current (c := 'P') hcur (by decide)]
      exact hfinds
    | false =>
      simp only [ascii_of_current (c := 'p') hcur (by decide)]
      exact hfinds

theorem finds_escape {o : Options} {n : Nat} {m : Member} (hn : s.cursor.remaining ≤ n) :
    (escape o n).Finds s m s' ↔
      (∃ letter ∈ escapable o.variant, m = .char (escapedChar letter) ∧ Follows (reads [unit letter]) s s') ∨
        ∃ e : SetEscape, e.Legal o.variant ∧ m = .set (e.chars o) ∧ Follows (e.body o.variant) s s' := by
  constructor
  · exact escape_sound hn
  · rintro (⟨letter, hmem, rfl, hcur, rfl⟩ | ⟨e, hl, rfl, hf⟩)
    · exact escape_of_letter hmem hcur
    · exact escape_of_set hn hl hf

end XmlPattern.Scan
