import XmlPattern.Proofs.Scan.Course

/-!
# Characters, quantifiers and escapes

What the scanners of the smaller parts find: each finds exactly the trees of its part that stand at the cursor. A
scanner with fuel has enough of it when so many units are left.

- `finds_digits`, `finds_quantifier`: bounds and quantifiers.
- `finds_escape`: the escapes.
-/

namespace XmlPattern

open Grammar

theorem Cursor.remaining_pos {c : Cursor} {u : CodeUnit} (h : c.current = some u) : 0 < c.remaining := by
  have hlt := remaining_advance (atEnd_of_current h)
  omega

/-- Fuel for what remains is fuel for a unit, if there is one. -/
theorem Cursor.exists_fuel {c : Cursor} {u : CodeUnit} {n : Nat} (h : c.current = some u) (hn : c.remaining ≤ n) :
    ∃ k, n = k + 1 := Nat.exists_eq_add_one.mpr (Nat.lt_of_lt_of_le (remaining_pos h) hn)

namespace Scan

variable {s s' : ScanState}

theorem current_of_remaining (h : s.cursor.remaining ≤ 0) : s.cursor.current = none := by
  cases hc : s.cursor.current with
  | none => rfl
  | some u =>
    have := Cursor.remaining_pos hc
    omega

/-! ## Units of ASCII -/

theorem ascii_eq_some {c : Char} :
    s.cursor.current.bind CodeUnit.toAscii? = some c ↔ c.toNat < 0x80 ∧ s.cursor.current = some (unit c) := by
  cases s.cursor.current with
  | none => simp
  | some u => simp [CodeUnit.toAscii?_eq_some]

theorem ascii_of_current {c : Char} (h : s.cursor.current = some (unit c)) (hc : c.toNat < 0x80) :
    s.cursor.current.bind CodeUnit.toAscii? = some c :=
  ascii_eq_some.mpr ⟨hc, h⟩

theorem current_of_ascii {u : CodeUnit} {c : Char} (hu : s.cursor.current = some u) (hc : u.toAscii? = some c) :
    s.cursor.current = some (unit c) := by
  rw [hu, (CodeUnit.toAscii?_eq_some.mp hc).2]

/-- What makes a group look behind itself is the sign behind `<`. -/
theorem current_of_lookBehind (h : (s.cursor.next == some (unit '=') || s.cursor.next == some (unit '!')) = true) :
    ∃ x ∈ ['=', '!'], s.copied.cursor.current = some (unit x) := by
  rw [Bool.or_eq_true, beq_iff_eq, beq_iff_eq] at h
  rw [ScanState.cursor_copied]
  rcases h with h | h
  · exact ⟨'=', by decide, Cursor.current_advance_of_next h (by decide)⟩
  · exact ⟨'!', by decide, Cursor.current_advance_of_next h (by decide)⟩

theorem unit_beq {c d : Char} (hc : c.toNat < 0x80) (hd : d.toNat < 0x80) :
    (some (unit c) == some (unit d)) = (c == d) := by
  rw [Bool.eq_iff_iff, beq_iff_eq, beq_iff_eq, Option.some.injEq, CodeUnit.ofBasic_inj (by omega) (by omega)]

theorem isDigit_lt {c : Char} (h : c.isDigit = true) : c.toNat < 0x80 := by
  simp only [Char.isDigit, Bool.and_eq_true, decide_eq_true_eq, UInt32.le_iff_toNat_le] at h
  have h₂ : c.toNat ≤ 57 := h.2
  omega

/-! ## Bounds -/

/-- A bound ends before a comma or a closing brace. -/
def EndsBound (s : ScanState) : Prop :=
  s.cursor.current = some (unit ',') ∨ s.cursor.current = some (unit '\x7d')

theorem endsBound_iff :
    (s.cursor.current == some (unit ',') || s.cursor.current == some (unit '\x7d')) = true ↔ EndsBound s := by
  simp [EndsBound]

theorem not_endsBound_of_isDigit {c : Char} (hc : c.isDigit = true) (h : s.cursor.current = some (unit c)) :
    ¬ EndsBound s := by
  rw [← endsBound_iff, h, unit_beq (isDigit_lt hc) (by decide), unit_beq (isDigit_lt hc) (by decide)]
  rw [Bool.or_eq_true, beq_iff_eq, beq_iff_eq]
  rintro (rfl | rfl) <;> cases hc

theorem run_digits_of_end (n : Nat) (h : s.cursor.current = none) :
    (digits n).run s = (.error (s.diagnostic .expectedDigit), s) := by
  cases n with
  | zero => rfl
  | succ n =>
    simp only [digits, ascii, run_bind, current, run_command, Command.run, h]
    rfl

theorem digits_sound {n : Nat} {ds : List Char} (hn : s.cursor.remaining ≤ n) (h : (digits n).Finds s ds s') :
    IsNumeral ds ∧ Follows (reads (basic ds)) s s' ∧ EndsBound s' := by
  induction n generalizing s ds with
  | zero => exact (finds_fail.mp h).elim
  | succ n ih =>
    rw [digits, finds_ascii_bind] at h
    split at h
    · next c hc =>
      obtain ⟨_, hcur⟩ := ascii_eq_some.mp hc
      have hlt := ScanState.remaining_advance hcur
      split at h
      · next hd =>
        simp only [finds_advance_bind, finds_isAt_bind] at h
        split at h
        · next he =>
          obtain ⟨rfl, rfl⟩ := finds_pure.mp h
          exact ⟨⟨List.cons_ne_nil _ _, by simpa using hd⟩, ⟨hcur, rfl⟩, endsBound_iff.mp he⟩
        · obtain ⟨ds, t, hds, h⟩ := finds_bind.mp h
          obtain ⟨rfl, rfl⟩ := finds_pure.mp h
          obtain ⟨hnum, hf, he⟩ := ih (by omega) hds
          exact ⟨⟨List.cons_ne_nil _ _, List.forall_mem_cons.mpr ⟨hd, hnum.2⟩⟩, ⟨hcur, hf⟩, he⟩
      · exact (finds_fail_bind.mp h).elim
    · exact (finds_fail.mp h).elim

theorem digits_complete {n : Nat} {ds : List Char} (hn : s.cursor.remaining ≤ n) (hds : IsNumeral ds)
    (hf : Follows (reads (basic ds)) s s') (he : EndsBound s') : (digits n).Finds s ds s' := by
  induction n generalizing s ds with
  | zero =>
    obtain ⟨c, ds, rfl⟩ := List.exists_cons_of_ne_nil hds.1
    have := Cursor.remaining_pos hf.1
    omega
  | succ n ih =>
    obtain ⟨c, ds, rfl⟩ := List.exists_cons_of_ne_nil hds.1
    obtain ⟨hcur, hf⟩ := hf
    obtain ⟨hc, hd⟩ := List.forall_mem_cons.mp hds.2
    have hlt := ScanState.remaining_advance hcur
    rw [digits, finds_ascii_bind, ascii_of_current hcur (isDigit_lt hc)]
    simp only [hc, if_true, finds_advance_bind, finds_isAt_bind]
    cases ds with
    | nil =>
      rw [show s' = s.advance from hf] at he ⊢
      rw [if_pos (endsBound_iff.mpr he)]
      exact finds_pure.mpr ⟨rfl, rfl⟩
    | cons d ds =>
      rw [if_neg fun h => not_endsBound_of_isDigit (hd d List.mem_cons_self) hf.1 (endsBound_iff.mp h)]
      exact finds_bind.mpr ⟨_, _, ih (by omega) ⟨List.cons_ne_nil _ _, hd⟩ hf, finds_pure.mpr ⟨rfl, rfl⟩⟩

theorem finds_digits {n : Nat} {ds : List Char} (hn : s.cursor.remaining ≤ n) :
    (digits n).Finds s ds s' ↔ IsNumeral ds ∧ Follows (reads (basic ds)) s s' ∧ EndsBound s' :=
  ⟨digits_sound hn, fun h => digits_complete hn h.1 h.2.1 h.2.2⟩

theorem follows_copies {c : Char} (hc : c.toNat < 0x10000) :
    Follows (copies c) s s' ↔ s.cursor.current = some (unit c) ∧ s' = s.copied := by
  constructor
  · rintro ⟨h, rfl⟩
    exact ⟨h, (ScanState.copied_of_current (s := s) h hc).symm⟩
  · rintro ⟨h, rfl⟩
    exact ⟨h, ScanState.copied_of_current h hc⟩

theorem follows_boundCourse {ds : List Char} :
    Follows (boundCourse ds) s s' ↔
      ∃ t, Follows (reads (basic ds)) s t ∧ s' = t.write (.verbatim (boundText ds)) := by
  simp only [boundCourse, follows_append, follows_write, follows_nil]

theorem current_of_numeral {ds : List Char} (hd : IsNumeral ds) (h : Follows (reads (basic ds)) s s') :
    (s.cursor.current == some (unit '\x7d')) = false := by
  obtain ⟨c, ds, rfl⟩ := List.exists_cons_of_ne_nil hd.1
  have hc := hd.2 c List.mem_cons_self
  rw [h.1]
  refine (unit_beq (isDigit_lt hc) (by decide)).trans (beq_eq_false_iff_ne.mpr ?_)
  rintro rfl
  cases hc

/-- What the bounds of a quantity do between the braces. -/
inductive BoundsCourse : Quantity → List Event → Prop where
  | exactly {ds : List Char} : BoundsCourse (.exactly ds) (boundCourse ds)
  | atLeast {ds : List Char} : BoundsCourse (.atLeast ds) (boundCourse ds ++ copies ',')
  | between {lo hi : List Char} : BoundsCourse (.between lo hi) (boundCourse lo ++ copies ',' ++ boundCourse hi)

theorem bounds_sound {n : Nat} (hn : s.cursor.remaining ≤ n) (h : (bounds n).Finds s () s') :
    ∃ q es, q.Legal ∧ BoundsCourse q es ∧ Follows es s s' := by
  unfold bounds at h
  obtain ⟨lo, t, hlo, h⟩ := finds_bind.mp h
  obtain ⟨hnum, hf, _⟩ := (finds_digits hn).mp hlo
  have hb : Follows (boundCourse lo) s (t.write (.verbatim (boundText lo))) := follows_boundCourse.mpr ⟨t, hf, rfl⟩
  simp only [finds_write_bind, finds_isAt_bind] at h
  split at h
  · next hc =>
    simp only [finds_copy_bind, finds_isAt_bind] at h
    have hcopy := (follows_copies (by decide)).mpr ⟨beq_iff_eq.mp hc, rfl⟩
    have hbc := follows_append.mpr ⟨_, hb, hcopy⟩
    split at h
    · obtain ⟨_, rfl⟩ := finds_pure.mp h
      exact ⟨.atLeast lo, _, hnum, .atLeast, hbc⟩
    · obtain ⟨hi, u, hhi, h⟩ := finds_bind.mp h
      have hle := follows_remaining_le hbc
      obtain ⟨hnum', hf', _⟩ := (finds_digits (by omega)).mp hhi
      simp only [finds_write_bind] at h
      split at h
      · exact (finds_fail.mp h).elim
      · next hr =>
        obtain ⟨_, rfl⟩ := finds_pure.mp h
        exact ⟨.between lo hi, _, ⟨hnum, hnum', Nat.le_of_not_lt (mt isReversed_iff.mpr hr)⟩, .between,
          follows_append.mpr ⟨_, hbc, follows_boundCourse.mpr ⟨u, hf', rfl⟩⟩⟩
  · obtain ⟨_, rfl⟩ := finds_pure.mp h
    exact ⟨.exactly lo, _, hnum, .exactly, hb⟩

theorem bounds_complete {n : Nat} {q : Quantity} {es : List Event} (hn : s.cursor.remaining ≤ n)
    (he : s'.cursor.current = some (unit '\x7d')) (hq : q.Legal) (hes : BoundsCourse q es) (hf : Follows es s s') :
    (bounds n).Finds s () s' := by
  have hcomma : (some (unit '\x7d') == some (unit ',')) = false := by decide
  unfold bounds
  cases hes with
  | @exactly lo =>
    obtain ⟨t, hlo, rfl⟩ := follows_boundCourse.mp hf
    refine finds_bind.mpr ⟨lo, t, (finds_digits hn).mpr ⟨hq, hlo, .inr he⟩, ?_⟩
    simp only [finds_write_bind, finds_isAt_bind, he, hcomma, Bool.false_eq_true, if_false, finds_pure, and_self]
  | @atLeast lo =>
    obtain ⟨t', hlower, hcopy⟩ := follows_append.mp hf
    obtain ⟨t, hlo, rfl⟩ := follows_boundCourse.mp hlower
    obtain ⟨hc, rfl⟩ := (follows_copies (by decide)).mp hcopy
    refine finds_bind.mpr ⟨lo, t, (finds_digits hn).mpr ⟨hq, hlo, .inl hc⟩, ?_⟩
    simp only [finds_write_bind, finds_isAt_bind, hc, beq_self_eq_true, if_true, finds_copy_bind, he, finds_pure,
      and_self]
  | @between lo hi =>
    obtain ⟨t'', hf, hupper⟩ := follows_append.mp hf
    have hle := follows_remaining_le hf
    obtain ⟨t', hlower, hcopy⟩ := follows_append.mp hf
    obtain ⟨t, hlo, rfl⟩ := follows_boundCourse.mp hlower
    obtain ⟨hc, rfl⟩ := (follows_copies (by decide)).mp hcopy
    obtain ⟨u, hhi, rfl⟩ := follows_boundCourse.mp hupper
    refine finds_bind.mpr ⟨lo, t, (finds_digits hn).mpr ⟨hq.1, hlo, .inl hc⟩, ?_⟩
    have hnext := current_of_numeral hq.2.1 hhi
    simp only [finds_write_bind, finds_isAt_bind, hc, beq_self_eq_true, if_true, finds_copy_bind, hnext,
      Bool.false_eq_true, if_false]
    refine finds_bind.mpr ⟨hi, u, (finds_digits (by omega)).mpr ⟨hq.2.1, hhi, .inr he⟩, ?_⟩
    rw [finds_write_bind, if_neg (mt isReversed_iff.mp (Nat.not_lt.mpr hq.2.2))]
    exact finds_pure.mpr ⟨rfl, rfl⟩

/-! ## Quantifiers -/

/--
What stands behind a quantifier, or behind an atom without one, is none of the characters that would belong to it.
-/
def EndsQuantifier (v : Variant) (s : ScanState) : Option Quantifier → Prop
  | none => ∀ c ∈ ['*', '?', '+', '\x7b'], s.cursor.current ≠ some (unit c)
  | some q => q.isLazy = false → v.allowsLazy = true → s.cursor.current ≠ some (unit '?')

/-- The question mark that makes a quantifier lazy. -/
def lazyMark (v : Variant) : Scan Unit := do
  if v.allowsLazy && (← isAt '?') then copy

theorem finds_lazyMark {v : Variant} :
    (lazyMark v).Finds s () s' ↔ ∃ b : Bool, (b = true → v.allowsLazy = true) ∧
      Follows (if b then copies '?' else []) s s' ∧
        (b = false → v.allowsLazy = true → s'.cursor.current ≠ some (unit '?')) := by
  unfold lazyMark
  simp only [finds_isAt_bind, Bool.and_eq_true, beq_iff_eq]
  constructor
  · intro h
    split at h
    · next hc =>
      exact ⟨true, fun _ => hc.1, (follows_copies (by decide)).mpr ⟨hc.2, finds_copy.mp h⟩,
        fun h => absurd h.symm Bool.false_ne_true⟩
    · next hc =>
      obtain ⟨_, rfl⟩ := finds_pure.mp h
      exact ⟨false, fun h => absurd h Bool.false_ne_true, rfl, fun _ hv hq => hc ⟨hv, hq⟩⟩
  · rintro ⟨b, hb, hf, he⟩
    cases b with
    | true =>
      obtain ⟨hc, hs⟩ := (follows_copies (by decide)).mp hf
      rw [if_pos ⟨hb rfl, hc⟩]
      exact finds_copy.mpr hs
    | false =>
      obtain rfl := hf
      rw [if_neg fun h => he rfl h.1 h.2]
      exact finds_pure.mpr ⟨rfl, rfl⟩

/-- What is left of a quantifier once its quantity has been read. -/
theorem finds_lazyMark_of_quantity {v : Variant} {t : ScanState} {q : Quantity} (hq : q.Legal)
    (hf : Follows q.course s t) :
    (lazyMark v).Finds t () s' ↔ ∃ b, Quantifier.Legal v ⟨q, b⟩ ∧ Follows (Quantifier.course ⟨q, b⟩) s s' ∧
      EndsQuantifier v s' (some ⟨q, b⟩) := by
  rw [finds_lazyMark]
  refine exists_congr fun b => and_congr ⟨fun h => ⟨hq, h⟩, And.right⟩ (and_congr ?_ Iff.rfl)
  rw [Quantifier.course, follows_append]
  constructor
  · exact fun h => ⟨t, hf, h⟩
  · rintro ⟨t', ht, h⟩
    rwa [follows_unique ht hf]

theorem quantifier_of_quantity {v : Variant} {n : Nat} {q : Quantity} {t : ScanState} (hn : s.cursor.remaining ≤ n)
    (hq : q.Legal) (hf : Follows q.course s t) (h : (lazyMark v).Finds t () s') : (quantifier v n).Finds s () s' := by
  have hbounds : ∀ es, BoundsCourse q es → q.course = copies '\x7b' ++ es ++ copies '\x7d' →
      (quantifier v n).Finds s () s' := by
    intro es hes he
    rw [he, follows_append] at hf
    obtain ⟨t', hf, hclose⟩ := hf
    obtain ⟨t'', hopen, hf⟩ := follows_append.mp hf
    obtain ⟨hc, rfl⟩ := (follows_copies (by decide)).mp hopen
    obtain ⟨hc', rfl⟩ := (follows_copies (by decide)).mp hclose
    have hle := follows_remaining_le hopen
    simp only [quantifier, finds_ascii_bind, ascii_of_current hc (by decide), finds_copy_bind]
    refine finds_bind.mpr ⟨(), t', bounds_complete (by omega) hc' hq hes hf, ?_⟩
    simp only [finds_expect_bind, finds_copy_bind]
    exact ⟨hc', h⟩
  have hsign : ∀ c ∈ ['*', '?', '+'], q.course = copies c → (quantifier v n).Finds s () s' := by
    intro c hc he
    rw [he] at hf
    simp only [List.mem_cons, List.not_mem_nil, or_false] at hc
    rcases hc with rfl | rfl | rfl
    all_goals
      obtain ⟨hc, rfl⟩ := (follows_copies (by decide)).mp hf
      simp only [quantifier, finds_ascii_bind, ascii_of_current hc (by decide), finds_copy_bind]
      exact h
  cases q with
  | star => exact hsign _ (by decide) rfl
  | plus => exact hsign _ (by decide) rfl
  | option => exact hsign _ (by decide) rfl
  | exactly ds => exact hbounds _ .exactly rfl
  | atLeast ds => exact hbounds _ .atLeast (by simp [Quantity.course])
  | between lo hi => exact hbounds _ .between (by simp [Quantity.course])

theorem quantity_of_quantifier {v : Variant} {n : Nat} (hn : s.cursor.remaining ≤ n)
    (h : (quantifier v n).Finds s () s') :
    (∃ q t, Quantity.Legal q ∧ Follows q.course s t ∧ (lazyMark v).Finds t () s') ∨
      s' = s ∧ EndsQuantifier v s none := by
  simp only [quantifier, finds_ascii_bind] at h
  split at h
  · next hc =>
    have hcopy := (follows_copies (by decide)).mpr ⟨(ascii_eq_some.mp hc).2, rfl⟩
    exact .inl ⟨.star, _, trivial, hcopy, finds_copy_bind.mp h⟩
  · next hc =>
    have hcopy := (follows_copies (by decide)).mpr ⟨(ascii_eq_some.mp hc).2, rfl⟩
    exact .inl ⟨.option, _, trivial, hcopy, finds_copy_bind.mp h⟩
  · next hc =>
    have hcopy := (follows_copies (by decide)).mpr ⟨(ascii_eq_some.mp hc).2, rfl⟩
    exact .inl ⟨.plus, _, trivial, hcopy, finds_copy_bind.mp h⟩
  · next hc =>
    have hopen := (follows_copies (by decide)).mpr ⟨(ascii_eq_some.mp hc).2, rfl⟩
    have hle := follows_remaining_le hopen
    obtain ⟨⟨⟩, t, hb, h⟩ := finds_bind.mp (finds_copy_bind.mp h)
    simp only [finds_expect_bind, finds_copy_bind] at h
    obtain ⟨hc', h⟩ := h
    obtain ⟨q, es, hq, hes, hf⟩ := bounds_sound (by omega) hb
    have hclose := (follows_copies (by decide)).mpr ⟨hc', rfl⟩
    have hall := follows_append.mpr ⟨_, follows_append.mpr ⟨_, hopen, hf⟩, hclose⟩
    refine .inl ⟨q, _, hq, ?_, h⟩
    cases hes with
    | exactly => exact hall
    | atLeast => simpa only [Quantity.course, List.append_assoc] using hall
    | between => simpa only [Quantity.course, List.append_assoc] using hall
  · next h₁ h₂ h₃ h₄ =>
    obtain ⟨_, rfl⟩ := finds_pure.mp h
    refine .inr ⟨rfl, fun c hc hcur => ?_⟩
    simp only [List.mem_cons, List.not_mem_nil, or_false] at hc
    rcases hc with rfl | rfl | rfl | rfl
    · exact h₁ (ascii_of_current hcur (by decide))
    · exact h₂ (ascii_of_current hcur (by decide))
    · exact h₃ (ascii_of_current hcur (by decide))
    · exact h₄ (ascii_of_current hcur (by decide))

theorem finds_quantifier {v : Variant} {n : Nat} (hn : s.cursor.remaining ≤ n) :
    (quantifier v n).Finds s () s' ↔ ∃ q, (∀ x ∈ q, Quantifier.Legal v x) ∧ Follows (quantifierCourse q) s s' ∧
      EndsQuantifier v s' q := by
  constructor
  · intro h
    rcases quantity_of_quantifier hn h with ⟨q, t, hq, hf, h⟩ | ⟨rfl, he⟩
    · obtain ⟨b, hb, hf, he⟩ := (finds_lazyMark_of_quantity hq hf).mp h
      exact ⟨some ⟨q, b⟩, by simpa using hb, hf, he⟩
    · exact ⟨none, nofun, rfl, he⟩
  · rintro ⟨q, hq, hf, he⟩
    cases q with
    | none =>
      obtain rfl := hf
      simp only [quantifier, finds_ascii_bind]
      split
      · next hc => exact absurd (ascii_eq_some.mp hc).2 (he _ (by decide))
      · next hc => exact absurd (ascii_eq_some.mp hc).2 (he _ (by decide))
      · next hc => exact absurd (ascii_eq_some.mp hc).2 (he _ (by decide))
      · next hc => exact absurd (ascii_eq_some.mp hc).2 (he _ (by decide))
      · exact finds_pure.mpr ⟨rfl, rfl⟩
    | some q =>
      have hl := hq q rfl
      obtain ⟨t, ht, _⟩ := follows_append.mp (show Follows (_ ++ _) s s' from hf)
      exact quantifier_of_quantity hn hl.1 ht ((finds_lazyMark_of_quantity hl.1 ht).mpr ⟨_, hl, hf, he⟩)

end Scan

end XmlPattern
