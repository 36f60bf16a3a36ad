import XmlPattern.Proofs.Scan.Classes

/-!
# Back-references

A back-reference takes a further digit as long as so many groups have been opened. A number of a group that has been
closed is therefore read whole, because groups are closed only once they have been opened (`Groups.Valid`).

- `finds_backReference`: a back-reference is a legal one, behind which no digit stands that it would have taken.
-/

namespace XmlPattern

open Grammar

namespace Numeral

theorem ofDecimal_append (ds : List Char) (d : Char) :
    ofDecimal (ds ++ [d]) = ofDecimal ds * 10 + (d.toNat - '0'.toNat) := by
  rw [ofDecimal, Nat.ofDigitChars_append, Nat.ofDigitChars_cons, Nat.mul_comm]
  rfl

theorem le_ofDigitChars (ds : List Char) (n : Nat) : n ≤ Nat.ofDigitChars 10 ds n := by
  induction ds generalizing n with
  | nil => exact Nat.le_refl n
  | cons d ds ih =>
    rw [Nat.ofDigitChars_cons]
    exact Nat.le_trans (by omega) (ih _)

theorem ofDecimal_le_append (ds es : List Char) : ofDecimal ds ≤ ofDecimal (ds ++ es) := by
  rw [ofDecimal, ofDecimal, Nat.ofDigitChars_append]
  exact le_ofDigitChars es _

end Numeral

/-- Groups are closed once they have been opened, and are counted from one. -/
def Grammar.Groups.Valid (G : Groups) : Prop := ∀ n ∈ G.closed, 1 ≤ n ∧ n ≤ G.opened

namespace Scan

variable {s s' : ScanState}

/-- No digit stands behind a back-reference that it would have taken. -/
def EndsReference (s : ScanState) (digits : List Char) : Prop :=
  ∀ d : Char, d.isDigit = true → s.cursor.current = some (unit d) → s.opened < Numeral.ofDecimal (digits ++ [d])

theorem referenceNumber_sound {n number : Nat} {ds : List Char} {u : CodeUnit} (hn : s.cursor.remaining ≤ n)
    (hu : s.cursor.current = some u) (h : (referenceNumber n (Numeral.ofDecimal ds)).Finds s number s') :
    ∃ es : List Char, (∀ c ∈ es, c.isDigit = true) ∧ number = Numeral.ofDecimal (ds ++ es) ∧
      Follows (reads (u :: basic es)) s s' ∧ EndsReference s' (ds ++ es) := by
  induction n generalizing s ds u with
  | zero =>
    have := Cursor.remaining_pos hu
    omega
  | succ n ih =>
    have hlt := ScanState.remaining_advance hu
    rw [referenceNumber, finds_advance_bind, finds_ascii_bind] at h
    have hstop : (∀ d : Char, d.isDigit = true → s.advance.cursor.current = some (unit d) →
        s.advance.opened < Numeral.ofDecimal (ds ++ [d])) → number = Numeral.ofDecimal ds → s' = s.advance →
        ∃ es : List Char, (∀ c ∈ es, c.isDigit = true) ∧ number = Numeral.ofDecimal (ds ++ es) ∧
          Follows (reads (u :: basic es)) s s' ∧ EndsReference s' (ds ++ es) := by
      rintro he rfl rfl
      exact ⟨[], nofun, by rw [List.append_nil], ⟨hu, rfl⟩, by rwa [List.append_nil]⟩
    split at h
    · next c hc =>
      obtain ⟨_, hcur⟩ := ascii_eq_some.mp hc
      rw [finds_opened_bind, ← Numeral.ofDecimal_append] at h
      split at h
      · next hd =>
        rw [Bool.and_eq_true, decide_eq_true_eq] at hd
        obtain ⟨es, hes, hnum, hf, he⟩ := ih (by omega) hcur h
        refine ⟨c :: es, List.forall_mem_cons.mpr ⟨hd.1, hes⟩, ?_, ⟨hu, hf⟩, ?_⟩
        · rw [hnum, List.append_assoc]
          rfl
        · rwa [List.append_assoc] at he
      · next hd =>
        obtain ⟨hnum, hs⟩ := finds_pure.mp h
        refine hstop (fun d hdig hcur' => ?_) hnum hs
        have hlt' := isDigit_lt hdig
        obtain rfl : c = d := (CodeUnit.ofBasic_inj (by omega) (by omega)).mp (Option.some.inj (hcur.symm.trans hcur'))
        rw [Bool.and_eq_true, decide_eq_true_eq] at hd
        exact Nat.lt_of_not_le fun hle => hd ⟨hdig, hle⟩
    · next hc =>
      obtain ⟨hnum, hs⟩ := finds_pure.mp h
      refine hstop (fun d hdig hcur' => ?_) hnum hs
      rw [ascii_of_current hcur' (isDigit_lt hdig)] at hc
      cases hc

theorem referenceNumber_complete {n : Nat} {ds es : List Char} {u : CodeUnit} (hn : s.cursor.remaining ≤ n)
    (hes : ∀ c ∈ es, c.isDigit = true) (hle : es ≠ [] → Numeral.ofDecimal (ds ++ es) ≤ s.opened)
    (hf : Follows (reads (u :: basic es)) s s') (he : EndsReference s' (ds ++ es)) :
    (referenceNumber n (Numeral.ofDecimal ds)).Finds s (Numeral.ofDecimal (ds ++ es)) s' := by
  induction es generalizing s ds u n with
  | nil =>
    obtain ⟨hu, rfl⟩ := hf
    obtain ⟨n, rfl⟩ := Cursor.exists_fuel hu hn
    rw [List.append_nil] at he ⊢
    rw [referenceNumber, finds_advance_bind, finds_ascii_bind]
    split
    · next c hc =>
      rw [finds_opened_bind, ← Numeral.ofDecimal_append]
      split
      · next hd =>
        rw [Bool.and_eq_true, decide_eq_true_eq] at hd
        exact absurd hd.2 (Nat.not_le.mpr (he c hd.1 (ascii_eq_some.mp hc).2))
      · exact finds_pure.mpr ⟨rfl, rfl⟩
    · exact finds_pure.mpr ⟨rfl, rfl⟩
  | cons c es ih =>
    obtain ⟨hu, hf⟩ := hf
    obtain ⟨hc, hes⟩ := List.forall_mem_cons.mp hes
    obtain ⟨n, rfl⟩ := Cursor.exists_fuel hu hn
    have hlt := ScanState.remaining_advance hu
    rw [List.append_cons] at hle he ⊢
    have hle := hle (List.cons_ne_nil _ _)
    have hle' := Nat.le_trans (Numeral.ofDecimal_le_append (ds ++ [c]) es) hle
    have h := ih (s := s.advance) (n := n) (by omega) hes (fun _ => hle) hf he
    rw [referenceNumber, finds_advance_bind, finds_ascii_bind, ascii_of_current hf.1 (isDigit_lt hc)]
    dsimp only
    rw [finds_opened_bind, ← Numeral.ofDecimal_append, if_pos]
    · exact h
    · rw [Bool.and_eq_true, decide_eq_true_eq]
      exact ⟨hc, hle'⟩

theorem closed_of_reads {us : List CodeUnit} (hf : Follows (reads us) s s') :
    s'.opened = s.opened ∧ s'.closed = s.closed := by
  have h : s'.groups = s.groups := by rw [follows_groups hf, groupsAfter_reads]
  exact ⟨congrArg Groups.opened h, congrArg Groups.closed h⟩

theorem finds_backReference {o : Options} {n : Nat} {first : Char} (hn : s.cursor.remaining ≤ n)
    (hc : s.cursor.current = some (unit first)) (hfirst : first.isDigit = true) (hvalid : s.groups.Valid) :
    (backReference o n first).Finds s () s' ↔
      ∃ es t, IsNumeral (first :: es) ∧ Numeral.ofDecimal (first :: es) ∈ s.closed ∧
        Follows (reads (basic (first :: es))) s t ∧ EndsReference t (first :: es) ∧
          s' = t.write (.reference (Numeral.ofDecimal (first :: es)) o.caseBlind) := by
  have hnumber : first.toNat - '0'.toNat = Numeral.ofDecimal [first] := (Nat.zero_add _).symm
  rw [backReference, hnumber, finds_bind]
  constructor
  · rintro ⟨number, t, hnum, h⟩
    obtain ⟨es, hes, rfl, hf, he⟩ := referenceNumber_sound hn hc hnum
    rw [finds_isClosed_bind] at h
    dsimp only at h
    split at h
    · next hmem =>
      rw [(closed_of_reads hf).2, List.contains_iff_mem] at hmem
      exact ⟨es, t, ⟨List.cons_ne_nil _ _, List.forall_mem_cons.mpr ⟨hfirst, hes⟩⟩, hmem, hf, he, finds_write.mp h⟩
    · rw [finds_opened_bind] at h
      exact (finds_fail_bind.mp h).elim
  · rintro ⟨es, t, hnum, hmem, hf, he, rfl⟩
    have hes := (List.forall_mem_cons.mp hnum.2).2
    have hle : Numeral.ofDecimal ([first] ++ es) ≤ s.opened := (hvalid _ hmem).2
    refine ⟨_, t, referenceNumber_complete hn hes (fun _ => hle) hf he, ?_⟩
    rw [finds_isClosed_bind]
    dsimp only
    rw [if_pos]
    · exact finds_write.mpr rfl
    · rw [(closed_of_reads hf).2, List.contains_iff_mem]
      exact hmem

end Scan

end XmlPattern
