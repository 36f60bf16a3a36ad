import XmlPattern.Proofs.Scan.Failing
import XmlPattern.Proofs.Scan.Patterns
import XmlPattern.Proofs.Structure

/-!
# The digits of back-references

Of the digits behind a backslash a back-reference takes as many as name a group that has been opened, and the first one
in any case. The next digit is an atom of its own. What has been taken must be the number of a group that is closed.

- `TakesDigits`: which digits of a run are taken.
- `Scan.run_referenceNumber32`: numbers of groups fit into 32 bits while they are counted.
- `Scan.run_reference`: what a scan makes of a backslash and a run of digits.
-/

namespace XmlPattern

open Grammar

/-! ## Digits in a run -/

/--
Of a run of digits, some are taken where so many groups have been opened: as many as name one of them, but at least one.
-/
structure TakesDigits (opened : Nat) (run taken : List Char) : Prop where
  front : taken <+: run
  nonempty : taken ≠ []
  fits : 1 < taken.length → Numeral.ofDecimal taken ≤ opened
  longest : ∀ more, more <+: run → taken.length < more.length → opened < Numeral.ofDecimal more

/-- A digit that is not taken would make too large a number, and so would all that are behind it. -/
theorem TakesDigits.of_next {opened : Nat} {taken rest : List Char} (hne : taken ≠ [])
    (hfits : 1 < taken.length → Numeral.ofDecimal taken ≤ opened)
    (hnext : ∀ c ∈ rest.head?, opened < Numeral.ofDecimal (taken ++ [c])) :
    TakesDigits opened (taken ++ rest) taken := by
  refine ⟨List.prefix_append _ _, hne, hfits, fun more hmore hlt => ?_⟩
  obtain ⟨behind, rfl⟩ := List.prefix_of_prefix_length_le (List.prefix_append _ _) hmore (Nat.le_of_lt hlt)
  rw [List.prefix_append_right_inj] at hmore
  cases behind with
  | nil => simp at hlt
  | cons c behind =>
    obtain ⟨rest, rfl⟩ := hmore
    calc opened < Numeral.ofDecimal (taken ++ [c]) := hnext c rfl
      _ ≤ Numeral.ofDecimal (taken ++ [c] ++ behind) := Numeral.ofDecimal_le_append _ _
      _ = Numeral.ofDecimal (taken ++ c :: behind) := by rw [← List.append_cons]

theorem exists_takesDigits (opened : Nat) {ds : List Char} (hne : ds ≠ [])
    (hfits : 1 < ds.length → Numeral.ofDecimal ds ≤ opened) (es : List Char) :
    ∃ more rest, es = more ++ rest ∧ TakesDigits opened (ds ++ es) (ds ++ more) := by
  induction es generalizing ds with
  | nil =>
    have h : TakesDigits opened (ds ++ []) ds := .of_next hne hfits fun c hc => by cases hc
    exact ⟨[], [], rfl, by rwa [List.append_nil] at h ⊢⟩
  | cons c es ih =>
    by_cases hc : Numeral.ofDecimal (ds ++ [c]) ≤ opened
    · obtain ⟨more, rest, rfl, h⟩ := @ih (ds ++ [c]) (by simp) fun _ => hc
      refine ⟨c :: more, rest, rfl, ?_⟩
      rwa [← List.append_cons, ← List.append_cons] at h
    · refine ⟨[], c :: es, rfl, ?_⟩
      rw [List.append_nil]
      refine .of_next hne hfits ?_
      rintro _ ⟨⟩
      exact Nat.lt_of_not_le hc

namespace Scan

variable {o : Options} {d : Dialect} {n depth : Nat} {s t u : ScanState} {run taken rest : List Char}

/-- A scan that has come to the first digit that is not taken has come to the end of the number. -/
theorem endsReference_of_takes (htakes : TakesDigits s.opened (taken ++ rest) taken) (hopened : t.opened = s.opened)
    (hrest : ∀ c ∈ rest, c.isDigit = true) (hf : Follows (reads (basic rest)) t u)
    (hend : ∀ c : Char, c.isDigit = true → u.cursor.current ≠ some (unit c)) : EndsReference t taken := by
  intro c hc hcurrent
  rw [hopened]
  cases rest with
  | nil =>
    obtain rfl := hf
    exact absurd hcurrent (hend c hc)
  | cons e rest =>
    have hlt := isDigit_lt hc
    have hlt' := isDigit_lt (hrest e List.mem_cons_self)
    obtain rfl : e = c :=
      (CodeUnit.ofBasic_inj (by omega) (by omega)).mp (Option.some.inj (hf.1.symm.trans hcurrent))
    exact htakes.longest (taken ++ [e]) (List.prefix_append_right_inj _ |>.mpr ⟨rest, rfl⟩) (by simp)

/-! ## Numbers of 32 bits -/

theorem digit_le_nine {c : Char} (h : c.isDigit = true) : c.toNat - '0'.toNat ≤ 9 := by
  simp only [Char.isDigit, Bool.and_eq_true, decide_eq_true_eq, UInt32.le_iff_toNat_le] at h
  have hle : c.toNat ≤ 57 := h.2
  have hzero : '0'.toNat = 48 := rfl
  omega

/-- The number of a back-reference, counted in 32 bits; nothing if a number comes up that does not fit. -/
def referenceNumber32 : (fuel : Nat) → (number : UInt32) → Scan (Option UInt32)
  | 0, number => return some number
  | n + 1, number => do
    advance
    match ← ascii with
    | some c =>
      if c.isDigit then
        let extended := number.toNat * 10 + (c.toNat - '0'.toNat)
        if UInt32.size ≤ extended then return none
        if extended ≤ (← opened) then referenceNumber32 n (.ofNat extended) else return some number
      else return some number
    | none => return some number

/-- With ten times as many groups and nine within 32 bits, a number is counted in 32 bits as it is without a limit. -/
theorem run_referenceNumber32 {number : UInt32} {m : Nat} (hopened : 10 * s.opened + 9 < 2 ^ 32)
    (hnumber : number.toNat ≤ max s.opened 9) (h : (referenceNumber n number.toNat).Finds s m t) :
    ∃ k, (referenceNumber32 n number).Finds s (some k) t ∧ k.toNat = m := by
  induction n generalizing s number with
  | zero =>
    obtain ⟨rfl, rfl⟩ := finds_pure.mp h
    exact ⟨number, finds_pure.mpr ⟨rfl, rfl⟩, rfl⟩
  | succ n ih =>
    have hstop : m = number.toNat ∧ t = s.advance →
        ∃ k, (pure (some number) : Scan (Option UInt32)).Finds s.advance (some k) t ∧ k.toNat = m := by
      rintro ⟨rfl, rfl⟩
      exact ⟨number, finds_pure.mpr ⟨rfl, rfl⟩, rfl⟩
    rw [referenceNumber, finds_advance_bind, finds_ascii_bind] at h
    simp only [referenceNumber32, finds_advance_bind, finds_ascii_bind]
    generalize s.advance.cursor.current.bind CodeUnit.toAscii? = next at h ⊢
    cases next with
    | none => exact hstop (finds_pure.mp h)
    | some c =>
      dsimp only at h ⊢
      rw [finds_opened_bind] at h
      cases hd : c.isDigit with
      | false =>
        rw [hd, Bool.false_and, if_neg Bool.false_ne_true] at h
        rw [if_neg Bool.false_ne_true]
        exact hstop (finds_pure.mp h)
      | true =>
        -- Either the number names a group, or it is a single digit; so one more digit keeps it within 32 bits.
        have hsmall : number.toNat * 10 + (c.toNat - '0'.toNat) < UInt32.size := by
          have hdigit := digit_le_nine hd
          clear ih hstop
          show _ < 4294967296
          omega
        rw [if_pos rfl, if_neg (Nat.not_le.mpr hsmall)]
        simp only [finds_opened_bind]
        rw [hd, Bool.true_and] at h
        split
        · next hle =>
          rw [if_pos (decide_eq_true hle)] at h
          have htoNat : (UInt32.ofNat (number.toNat * 10 + (c.toNat - '0'.toNat))).toNat =
              number.toNat * 10 + (c.toNat - '0'.toNat) := UInt32.toNat_ofNat_of_lt hsmall
          refine ih (s := s.advance) hopened ?_ ?_
          · rw [htoNat]
            exact Nat.le_trans hle (Nat.le_max_left _ _)
          · rwa [htoNat]
        · next hle =>
          rw [if_neg (by simpa using hle)] at h
          exact hstop (finds_pure.mp h)

theorem referenceNumber32_of_digit {first : Char} {number : Nat} (hfirst : first.isDigit = true)
    (hopened : 10 * s.opened + 9 < 2 ^ 32) (h : (referenceNumber n (first.toNat - '0'.toNat)).Finds s number t) :
    ∃ k, (referenceNumber32 n (.ofNat (first.toNat - '0'.toNat))).Finds s (some k) t ∧ k.toNat = number := by
  have hle := digit_le_nine hfirst
  have htoNat : (UInt32.ofNat (first.toNat - '0'.toNat)).toNat = first.toNat - '0'.toNat :=
    UInt32.toNat_ofNat_of_lt (Nat.lt_of_le_of_lt hle (by decide))
  refine run_referenceNumber32 hopened (by omega) ?_
  rwa [htoNat]

/-! ## Back-references -/

/-- The digits behind a first one are counted as far as they are taken. -/
theorem referenceNumber_of_takes {first : Char} {more : List Char} (hn : s.cursor.remaining ≤ n)
    (hdigits : ∀ c ∈ more ++ rest, c.isDigit = true)
    (htakes : TakesDigits s.opened (first :: (more ++ rest)) (first :: more)) (hopened : t.opened = s.opened)
    (hft : Follows (reads (basic (first :: more))) s t) (hfu : Follows (reads (basic rest)) t u)
    (hend : ∀ c : Char, c.isDigit = true → u.cursor.current ≠ some (unit c)) :
    (referenceNumber n (first.toNat - '0'.toNat)).Finds s (Numeral.ofDecimal (first :: more)) t := by
  have hmore : ∀ c ∈ more, c.isDigit = true := fun c hc => hdigits c (List.mem_append_left _ hc)
  have hrest : ∀ c ∈ rest, c.isDigit = true := fun c hc => hdigits c (List.mem_append_right _ hc)
  have hends : EndsReference t ([first] ++ more) := endsReference_of_takes htakes hopened hrest hfu hend
  have hfits : more ≠ [] → Numeral.ofDecimal ([first] ++ more) ≤ s.opened := by
    intro h
    have hpos := List.length_pos_iff.mpr h
    exact htakes.fits (by simpa using hpos)
  have hdigit : first.toNat - '0'.toNat = Numeral.ofDecimal [first] := (Nat.zero_add _).symm
  rw [hdigit]
  exact referenceNumber_complete hn hmore hfits hft hends

/-- What a back-reference comes to once its number is known. -/
theorem run_backReference {first : Char} {number : Nat}
    (h : (referenceNumber n (first.toNat - '0'.toNat)).Finds s number t) :
    (backReference o n first).run s =
      if number ∈ t.closed then (.ok (), t.write (.reference number o.caseBlind))
      else (.error (t.diagnostic (.invalidReference number
        (if t.opened < number then .noSuchGroup else .groupNotClosed))), t) := by
  refine (run_bind_of_run h).trans ((run_bind_of_run rfl).trans ?_)
  dsimp only
  by_cases hmem : number ∈ t.closed
  · rw [if_pos hmem, if_pos (List.contains_iff_mem.mpr hmem)]
    rfl
  · rw [if_neg hmem, if_neg (mt List.contains_iff_mem.mp hmem)]
    rfl

/-- Behind a backslash, a digit other than zero begins a back-reference. -/
theorem run_atom_digit {first : Char} (hx : o.variant.isXPath = true) (hc : s.cursor.current = some (unit '\\'))
    (hd : first.isDigit = true) (hzero : first ≠ '0') (hfirst : s.advance.cursor.current = some (unit first)) :
    (atom o (.schema d) (n + 1) depth).run s = match (backReference o n first).run s.advance with
      | (.ok _, t) => (.ok true, t)
      | (.error e, t) => (.error e, t) := by
  have hcond : (o.variant.isXPath && first.isDigit && first != '0') = true := by
    rw [hx, hd, Bool.true_and, Bool.true_and, bne_iff_ne]
    exact hzero
  have hescape : (schemaEscape o n).run s = (backReference o n first).run s.advance := by
    refine (run_bind_of_run rfl).trans ((run_bind_of_run rfl).trans ?_)
    rw [ascii_of_current hfirst (isDigit_lt hd)]
    dsimp only
    rw [if_pos hcond]
  rw [atom_schema, ← hescape]
  refine (run_bind_of_run rfl).trans ?_
  rw [hc]
  show (schemaEscape o n >>= fun _ => pure true).run s = _
  rw [run_bind]
  rcases (schemaEscape o n).run s with ⟨_ | _, _⟩ <;> rfl

/-- A digit that is left stands for itself, and does not quantify what is in front. -/
theorem run_digit {c : Char} (hd : c.isDigit = true) (hc : s.cursor.current = some (unit c)) (m : Nat) :
    (quantifier o.variant m).run s = (.ok (), s) ∧
      (atom o (.schema d) (m + 1) depth).run s = (.ok true, s.advance.write (memberFragment o (.char c))) := by
  have hlt := isDigit_lt hd
  have hne : ∀ c' : Char, c'.isDigit = false → c ≠ c' := by
    rintro _ h rfl
    cases hd.symm.trans h
  constructor
  · refine (run_bind_of_run rfl).trans ?_
    rw [ascii_of_current hc hlt]
    split
    · next h => exact absurd (Option.some.inj h) (hne _ rfl)
    · next h => exact absurd (Option.some.inj h) (hne _ rfl)
    · next h => exact absurd (Option.some.inj h) (hne _ rfl)
    · next h => exact absurd (Option.some.inj h) (hne _ rfl)
    · rfl
  · have hlegal : Single.LegalAtom o.variant (.plain c) := by
      have hmeta : ∀ c ∈ metaChars, c.isDigit = false := List.all_iff_forall_prop.mp (by decide)
      have hanchor : ∀ c ∈ anchorChars, c.isDigit = false := List.all_iff_forall_prop.mp (by decide)
      exact ⟨fun h => hne c (hmeta c h) rfl, fun _ h => hne c (hanchor c h) rfl⟩
    have hf : Follows (reads (CodeUnit.ofChar c)) s s.advance := by
      rw [show CodeUnit.ofChar c = [unit c] from if_pos (by omega)]
      exact ⟨hc, rfl⟩
    exact schemaAtom_of_plain hlegal hf

/-- What a scan makes of a backslash and a run of digits, of which some are taken and the rest are not. -/
structure RefersBy (o : Options) (d : Dialect) (n depth : Nat) (s t : ScanState) (taken rest : List Char) : Prop where
  closed : Numeral.ofDecimal taken ∈ s.closed →
    (atom o (.schema d) n depth).run s = (.ok true, t.write (.reference (Numeral.ofDecimal taken) o.caseBlind))
  notClosed : Numeral.ofDecimal taken ∉ s.closed → (atom o (.schema d) n depth).run s =
    (.error (t.diagnostic (.invalidReference (Numeral.ofDecimal taken)
      (if s.opened < Numeral.ofDecimal taken then .noSuchGroup else .groupNotClosed))), t)
  /-- The first digit of the rest is the next atom. -/
  next : ∀ c ∈ rest.head?, ∀ m, let t' := t.write (.reference (Numeral.ofDecimal taken) o.caseBlind)
    (quantifier o.variant m).run t' = (.ok (), t') ∧
      (atom o (.schema d) (m + 1) depth).run t' = (.ok true, t'.advance.write (memberFragment o (.char c)))
  /-- The number is counted in 32 bits, unless there are too many groups for that. -/
  counted : 10 * s.opened + 9 < 2 ^ 32 → ∀ first ∈ taken.head?,
    ∃ k, (referenceNumber32 n (.ofNat (first.toNat - '0'.toNat))).Finds s.advance (some k) t ∧
      k.toNat = Numeral.ofDecimal taken

/--
In XPath, of a run of digits behind a backslash those are taken that name a group that has been opened, and the first
one in any case. The scan comes to the first digit that is not taken, which is an atom of its own, and fails there if
the group is not closed; then so does the whole conversion.
-/
theorem run_reference (hx : o.variant.isXPath = true) (hn : s.cursor.remaining ≤ n) (hrun : IsNumeral run)
    (hzero : run.head? ≠ some '0') (hf : Follows (reads (unit '\\' :: basic run)) s u)
    (hend : ∀ c : Char, c.isDigit = true → u.cursor.current ≠ some (unit c)) :
    ∃ taken rest t, taken ++ rest = run ∧ TakesDigits s.opened run taken ∧
      Follows (reads (unit '\\' :: basic taken)) s t ∧ Follows (reads (basic rest)) t u ∧
      RefersBy o d n depth s t taken rest ∧
      ∀ units, o.literal = false → Numeral.ofDecimal taken ∉ s.closed →
        (pattern o (.schema d) (ScanState.ofUnits o units).cursor.remaining).Calls (.ofUnits o units)
          (atom o (.schema d) n depth) s →
        convert o (.schema d) units = .error (.pattern (t.diagnostic (.invalidReference (Numeral.ofDecimal taken)
          (if s.opened < Numeral.ofDecimal taken then .noSuchGroup else .groupNotClosed)))) := by
  obtain ⟨first, es, rfl⟩ := List.exists_cons_of_ne_nil hrun.1
  obtain ⟨hfirst, hes⟩ := List.forall_mem_cons.mp hrun.2
  have hne : first ≠ '0' := fun h => hzero (congrArg some h)
  obtain ⟨more, rest, rfl, htakes⟩ :=
    exists_takesDigits s.opened (List.cons_ne_nil first []) (fun h => absurd h (Nat.lt_irrefl 1)) es
  -- The scan passes the backslash, then the digits that are taken, then the others.
  obtain ⟨hc, hfollows⟩ := hf
  have hfollows : Follows (reads (basic (first :: more)) ++ reads (basic rest)) s.advance u := by
    rw [← reads_append, ← basic_append]
    exact hfollows
  obtain ⟨t, hft, hfu⟩ := follows_append.mp hfollows
  obtain ⟨hopened, hclosed⟩ : t.opened = s.opened ∧ t.closed = s.closed := closed_of_reads (s := s.advance) hft
  obtain ⟨n, rfl⟩ := Cursor.exists_fuel hc hn
  have hlt := ScanState.remaining_advance hc
  have hnumber : ∀ m, s.advance.cursor.remaining ≤ m →
      (referenceNumber m (first.toNat - '0'.toNat)).Finds s.advance (Numeral.ofDecimal ([first] ++ more)) t :=
    fun m hm => referenceNumber_of_takes hm hes htakes hopened hft hfu hend
  have hatom : (atom o (.schema d) (n + 1) depth).run s = _ := run_atom_digit hx hc hfirst hne hft.1
  rw [run_backReference (hnumber n (by omega)), hopened, hclosed] at hatom
  have hnot (h : Numeral.ofDecimal ([first] ++ more) ∉ s.closed) : (atom o (.schema d) (n + 1) depth).run s =
      (.error (t.diagnostic (.invalidReference (Numeral.ofDecimal ([first] ++ more))
        (if s.opened < Numeral.ofDecimal ([first] ++ more) then .noSuchGroup else .groupNotClosed))), t) := by
    rw [hatom, if_neg h]
  refine ⟨[first] ++ more, rest, t, rfl, htakes, ⟨hc, hft⟩, hfu, ⟨fun h => ?_, hnot, ?_, ?_⟩, ?_⟩
  · rw [hatom, if_pos h]
  · intro c hc m
    obtain ⟨rest, rfl⟩ := List.head?_eq_some_iff.mp hc
    exact run_digit (s := t.write _) (hes c (List.mem_append_right _ List.mem_cons_self)) hfu.1 m
  · rintro hopened _ ⟨⟩
    exact referenceNumber32_of_digit hfirst hopened (hnumber (n + 1) (by omega))
  · intro units hl h hcalls
    have hscan : (ScanState.ofUnits o units).scan (pattern o (.schema d)) = _ := hcalls.run_error (hnot h)
    rw [convert_of_not_literal hl, convertPattern, hscan]

/-- The state behind `(a)`, on the backslash of `\10`. -/
def behindGroup : ScanState where
  options := .ofVariant .xpath20
  cursor := ⟨basic "\\)a(".toList, basic "10".toList, false, false, false⟩
  output := #[.verbatim ['('], .literal 'a', .verbatim [')']]
  opened := 1
  closed := [1]
  warnings := #[]

/-- One group has been opened, so that one digit is taken and the other is not. -/
theorem run_reference_behindGroup :
    ∃ taken rest t, taken ++ rest = "10".toList ∧ TakesDigits 1 "10".toList taken ∧
      RefersBy (.ofVariant .xpath20) .scalar 3 0 behindGroup t taken rest := by
  have hrun : IsNumeral "10".toList := ⟨by decide, List.all_eq_true.mp rfl⟩
  have hf : Follows (reads (unit '\\' :: basic "10".toList)) behindGroup behindGroup.advance.advance.advance :=
    ⟨rfl, rfl, rfl, rfl⟩
  have hend : ∀ c : Char, c.isDigit = true → behindGroup.advance.advance.advance.cursor.current ≠ some (unit c) := by
    intro c _ h
    cases h
  obtain ⟨taken, rest, t, happend, htakes, _, _, hrefers, _⟩ :=
    @run_reference (.ofVariant .xpath20) .scalar 3 0 behindGroup _ _ rfl (by decide) hrun (by decide) hf hend
  exact ⟨taken, rest, t, happend, htakes, hrefers⟩

end Scan

end XmlPattern
