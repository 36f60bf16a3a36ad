import XmlPattern.Proofs.Scan.Embedding
import XmlPattern.Proofs.Scan.Failing
import XmlPattern.Proofs.Scan.Parts

/-!
# Bounds of quantifiers

Bounds are compared as the numbers that they are, whatever their length, and are written with their own digits unless a
number is larger than native engines take. A scan of `n,m` fails behind the digits of `m` if that is the smaller number,
and nothing else is wrong with bounds that are numerals.

- `Scan.run_bounds_between`, `Scan.run_bounds_atLeast`, `Scan.run_bounds_exactly`: the three forms of bounds.
- `Scan.fails_bounds_iff`: when bounds are in the wrong order.
- `Scan.run_bounds`: what a scan makes of bounds between other units.
-/

namespace XmlPattern

open Grammar

variable {s t : ScanState}

theorem plain_boundCourse (digits : List Char) : Plain (boundCourse digits) :=
  (plain_reads _).append (.write .nil)

namespace Scan

variable {fuel : Nat} {n m : List Char} {d : Diagnostic}

/-! ## The three forms -/

theorem run_bounds_exactly (hfuel : s.cursor.remaining ≤ fuel) (hn : IsNumeral n) (hf : Follows (boundCourse n) s t)
    (he : t.cursor.current = some (unit '\x7d')) : (bounds fuel).run s = (.ok (), t) :=
  bounds_complete (q := .exactly n) hfuel he hn .exactly hf

theorem run_bounds_atLeast (hfuel : s.cursor.remaining ≤ fuel) (hn : IsNumeral n)
    (hf : Follows (boundCourse n ++ copies ',') s t) (he : t.cursor.current = some (unit '\x7d')) :
    (bounds fuel).run s = (.ok (), t) :=
  bounds_complete (q := .atLeast n) hfuel he hn .atLeast hf

theorem endsBound_of_current {c : Char} (hc : c = ',' ∨ c = '\x7d') (h : t.cursor.current = some (unit c)) :
    EndsBound t := by
  rcases hc with rfl | rfl
  · exact .inl h
  · exact .inr h

theorem run_bounds_between (hfuel : s.cursor.remaining ≤ fuel) (hn : IsNumeral n) (hm : IsNumeral m)
    (hf : Follows (boundCourse n ++ copies ',' ++ boundCourse m) s t) (he : EndsBound t) :
    (bounds fuel).run s =
      (if Numeral.ofDecimal m < Numeral.ofDecimal n then .error (t.diagnostic .invalidQuantity) else .ok (), t) := by
  obtain ⟨t', hf, hupper⟩ := follows_append.mp hf
  have hle := follows_remaining_le hf
  obtain ⟨u, hlower, hcopy⟩ := follows_append.mp hf
  obtain ⟨u', hlo, rfl⟩ := follows_boundCourse.mp hlower
  obtain ⟨hc, rfl⟩ := (follows_copies (by decide)).mp hcopy
  obtain ⟨v, hhi, rfl⟩ := follows_boundCourse.mp hupper
  have hdigits : (digits fuel).run s = (.ok n, u') := (finds_digits hfuel).mpr ⟨hn, hlo, .inl hc⟩
  have hdigits' : (digits fuel).run _ = (.ok m, v) := (finds_digits (by omega)).mpr ⟨hm, hhi, he⟩
  have hbrace := current_of_numeral hm hhi
  unfold bounds
  refine (run_bind_of_run hdigits).trans ((run_bind_of_run rfl).trans ((run_bind_of_run rfl).trans ?_))
  rw [if_pos (beq_iff_eq.mpr hc)]
  refine (run_bind_of_run run_copy).trans ((run_bind_of_run rfl).trans ?_)
  rw [if_neg (Bool.eq_false_iff.mp hbrace)]
  refine (run_bind_of_run hdigits').trans ((run_bind_of_run rfl).trans ?_)
  by_cases hlt : Numeral.ofDecimal m < Numeral.ofDecimal n
  · rw [if_pos hlt, if_pos (isReversed_iff.mpr hlt)]
    rfl
  · rw [if_neg hlt, if_neg (mt isReversed_iff.mp hlt)]
    rfl

/-- Where bounds are found to be in the wrong order, a numeral is in front of one for a smaller number. -/
theorem exists_numerals_of_fails (hfuel : s.cursor.remaining ≤ fuel) (h : (bounds fuel).run s = (.error d, t))
    (hd : d.reason = .invalidQuantity) :
    ∃ n m, IsNumeral n ∧ IsNumeral m ∧ Follows (boundCourse n ++ copies ',' ++ boundCourse m) s t ∧ EndsBound t ∧
      Numeral.ofDecimal m < Numeral.ofDecimal n ∧ d = t.diagnostic .invalidQuantity := by
  have hdigits : ∀ {s t : ScanState}, (digits fuel).run s ≠ (.error d, t) := by
    intro s t h
    cases hd.symm.trans (failsOnly_digits fuel h)
  unfold bounds at h
  rcases run_bind_eq_error.mp h with h | ⟨n, u, hlo, h⟩
  · exact (hdigits h).elim
  · replace h := (run_bind_of_run rfl).symm.trans ((run_bind_of_run rfl).symm.trans h)
    obtain ⟨hn, hlower, _⟩ := (finds_digits hfuel).mp hlo
    split at h
    · next hc =>
      replace h := (run_bind_of_run rfl).symm.trans ((run_bind_of_run run_copy).symm.trans h)
      have hcopy : Follows (copies ',') (u.write (.verbatim (boundText n))) _ :=
        (follows_copies (by decide)).mpr ⟨beq_iff_eq.mp hc, rfl⟩
      have hfirst := follows_append.mpr ⟨_, follows_boundCourse.mpr ⟨u, hlower, rfl⟩, hcopy⟩
      have hle := follows_remaining_le hfirst
      split at h
      · cases h
      · rcases run_bind_eq_error.mp h with h | ⟨m, v, hhi, h⟩
        · exact (hdigits h).elim
        · obtain ⟨hm, hupper, he⟩ := (finds_digits (by omega)).mp hhi
          replace h := (run_bind_of_run rfl).symm.trans h
          split at h
          · next hlt =>
            cases h
            exact ⟨n, m, hn, hm, follows_append.mpr ⟨_, hfirst, follows_boundCourse.mpr ⟨v, hupper, rfl⟩⟩, he,
              isReversed_iff.mp hlt, rfl⟩
          · cases h
    · cases h

/-- Bounds are in the wrong order exactly where a numeral is in front of one for a smaller number. -/
theorem fails_bounds_iff (hfuel : s.cursor.remaining ≤ fuel) :
    ((bounds fuel).run s = (.error d, t) ∧ d.reason = .invalidQuantity) ↔
      ∃ n m, IsNumeral n ∧ IsNumeral m ∧ Follows (boundCourse n ++ copies ',' ++ boundCourse m) s t ∧ EndsBound t ∧
        Numeral.ofDecimal m < Numeral.ofDecimal n ∧ d = t.diagnostic .invalidQuantity := by
  constructor
  · intro h
    exact exists_numerals_of_fails hfuel h.1 h.2
  · intro h
    obtain ⟨n, m, hn, hm, hf, he, hlt, rfl⟩ := h
    refine ⟨(run_bounds_between hfuel hn hm hf he).trans ?_, rfl⟩
    rw [if_pos hlt]

end Scan

/-! ## Bounds between other units -/

/-- The state with the cursor elsewhere, once texts have been written. -/
def ScanState.writing (s : ScanState) (cursor : Cursor) (texts : List (List Char)) : ScanState :=
  { s with cursor, output := s.output ++ (texts.map Fragment.verbatim).toArray }

theorem boundText_eq (digits : List Char) :
    boundText digits = if Numeral.ofDecimal digits ≤ 2147483647 then digits else "2147483647".toList := by
  have hmax : Numeral.decimal maxBound = "2147483647".toList := by decide
  rw [boundText, hmax]
  rfl

theorem boundText_le {lower upper : List Char} (h : Numeral.ofDecimal lower ≤ Numeral.ofDecimal upper) :
    Numeral.ofDecimal (boundText lower) ≤ Numeral.ofDecimal (boundText upper) := by
  rw [ofDecimal_boundText, ofDecimal_boundText]
  omega

namespace Scan

variable {fuel : Nat} {n m : List Char}

/--
Bounds `n,m` between other units fail exactly if `m` is the smaller number, at the unit behind them. Otherwise, and in
the forms `n,` and `n` always, the bounds are written, each with its own digits or as the largest bound.
-/
theorem run_bounds {fold : Bool} {front us behind : List CodeUnit} {c : Char}
    (hs : s.cursor = (Cursor.between fold false front (us ++ unit c :: behind)).advance)
    (hfuel : s.cursor.remaining ≤ fuel) (hn : IsNumeral n) (hm : IsNumeral m) :
    (c = ',' ∨ c = '\x7d' → Spells fold false (outside (basic (n ++ ',' :: m))) us →
      (bounds fuel).run s =
        (if Numeral.ofDecimal m < Numeral.ofDecimal n then
            .error ⟨.invalidQuantity, (front ++ us).length,
              String.ofList (CodeUnit.decodeLossy (front ++ us ++ unit c :: behind))⟩
          else .ok (),
          s.writing (.between fold false (front ++ us ++ [unit c]) behind) [boundText n, [','], boundText m])) ∧
    (c = '\x7d' → Spells fold false (outside (basic (n ++ [',']))) us →
      (bounds fuel).run s =
        (.ok (), s.writing (.between fold false (front ++ us ++ [unit c]) behind) [boundText n, [',']])) ∧
    (c = '\x7d' → Spells fold false (outside (basic n)) us →
      (bounds fuel).run s = (.ok (), s.writing (.between fold false (front ++ us ++ [unit c]) behind) [boundText n])) ∧
    (∀ k ∈ [n, m], boundText k = (if Numeral.ofDecimal k ≤ 2147483647 then k else "2147483647".toList) ∧
      Numeral.ofDecimal (boundText k) = min (Numeral.ofDecimal k) 2147483647) ∧
    (Numeral.ofDecimal n ≤ Numeral.ofDecimal m →
      Numeral.ofDecimal (boundText n) ≤ Numeral.ofDecimal (boundText m)) := by
  have hlower := plain_boundCourse n
  have hcomma := hlower.append (plain_copies ',')
  refine ⟨?_, ?_, ?_, ?_, boundText_le⟩
  · intro hc hus
    have hblank : (unit c).isBlank = false := by
      rcases hc with rfl | rfl <;> rfl
    have hf := (hcomma.append (plain_boundCourse m)).follows_between (by simpa [taken_append] using hus) hblank hs
    rw [run_bounds_between hfuel hn hm hf (endsBound_of_current hc (Cursor.current_between ..))]
    simp [ScanState.writing, ScanState.diagnostic, Cursor.position, Cursor.between, Cursor.expression, Nat.add_comm]
  · intro hc hus
    subst hc
    have hf := hcomma.follows_between (by simpa [taken_append] using hus) rfl hs
    rw [run_bounds_atLeast hfuel hn hf (Cursor.current_between ..)]
    simp [ScanState.writing]
  · intro hc hus
    subst hc
    have hf := hlower.follows_between (by simpa using hus) rfl hs
    rw [run_bounds_exactly hfuel hn hf (Cursor.current_between ..)]
    simp [ScanState.writing]
  · intro k _
    exact ⟨boundText_eq k, ofDecimal_boundText k⟩

/-- The state of a scan that has come to the bounds in `a\x7b…\x7d`. -/
def atBounds (text : List Char) : ScanState :=
  { ScanState.ofUnits {} [] with
    cursor := (Cursor.between false false (basic ['a', '\x7b']) (basic text ++ unit '\x7d' :: [])).advance }

/-- Of two numbers that are too large for native engines, the larger one may not stand in front. -/
theorem run_bounds_large :
    (atBounds "99999999999999999999,99999999999".toList).scan bounds =
      (.error ⟨.invalidQuantity, 34, "a\x7b99999999999999999999,99999999999\x7d"⟩,
        (atBounds "99999999999999999999,99999999999".toList).writing
          (.between false false (basic "a\x7b99999999999999999999,99999999999\x7d".toList) [])
          ["2147483647".toList, [','], "2147483647".toList]) := by
  have hn : IsNumeral "99999999999999999999".toList := ⟨by decide, List.all_iff_forall_prop.mp (by decide)⟩
  have hm : IsNumeral "99999999999".toList := ⟨by decide, List.all_iff_forall_prop.mp (by decide)⟩
  have hs : Spells false false (outside (basic "99999999999999999999,99999999999".toList))
      (basic "99999999999999999999,99999999999".toList) := spells_iff.mpr (by decide)
  have hlower : boundText "99999999999999999999".toList = "2147483647".toList := by decide
  have hupper : boundText "99999999999".toList = "2147483647".toList := by decide
  have hcursor : (atBounds "99999999999999999999,99999999999".toList).cursor =
      (Cursor.between false false (basic ['a', '\x7b'])
        (basic "99999999999999999999,99999999999".toList ++ unit '\x7d' :: [])).advance := rfl
  unfold ScanState.scan
  rw [(run_bounds hcursor (Nat.le_refl _) hn hm).1 (.inr rfl) hs, hlower, hupper, if_pos (by decide)]
  rfl

end Scan

end XmlPattern
