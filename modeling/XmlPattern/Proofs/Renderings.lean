import XmlPattern.Proofs.Agreement

/-!
# Sets as they are written

A set of characters is written as one atom. Over units the atom matches the encodings of the characters and nothing
else, so never half of a pair. Over characters it is a class in brackets, which `BracketClass.read?` reads back: whether
a set is written by its ranges or by those of its complement, the class stands for the set.

- `unitClass_exact`: the atom over units matches the encodings of the characters.
- `BracketClass.ranges?_scalarRanges`: ranges in brackets are read back as they are.
- `scalarClass_roundTrip`: the class over characters stands for the set.
-/

namespace XmlPattern

open CharSet Native

/-! ## Over units -/

/--
A set is written over units as one atom, wherever it stands and with any quantifier behind it. The atom matches the
units that encode exactly one character of the set, and no surrogate by itself.
-/
theorem unitClass_exact (expand : Bool) (set : CharSet) :
    ∃ t : Native.Tree UnitSet, t.IsAtom ∧
      (∀ s : Scope, s.caseBlind = false → ReadsAtom Lexis.unit s (Dialect.utf16.charClass expand set) t) ∧
      (∀ (multiLine : Bool) (q : Option Grammar.Quantifier), (∀ x ∈ q, x.quantity.Legal) →
        Lexis.unit.tree? multiLine (Dialect.utf16.charClass expand set ++ Grammar.quantifierText q) =
          some (.seq (t.quantify q) .empty, 0)) ∧
      (∀ us, us ∈ t.unitLanguage ↔ ∃! c, c ∈ set ∧ us = CodeUnit.ofChar c) ∧
      ∀ u : CodeUnit, u.isSurrogate = true → [u] ∉ t.unitLanguage := by
  have hread : ∀ s : Scope, s.caseBlind = false → ReadsAtom Lexis.unit s (unitClass set) (UnitClass.tree set) :=
    fun s hs => readsAtom_unitClass hs set
  refine ⟨UnitClass.tree set, isAtom_unitClass set, hread, ?_, ?_, ?_⟩
  · intro multiLine q hq
    exact tree?_quantified (hread _ rfl) hq
  · intro us
    rw [mem_unitLanguage_tree]
    constructor
    · intro h
      obtain ⟨c, hc, rfl⟩ := h
      exact ⟨c, ⟨hc, rfl⟩, fun d hd => CodeUnit.ofChar_inj hd.2.symm⟩
    · intro h
      exact h.exists
  · intro u hu h
    obtain ⟨c, _, hc⟩ := mem_unitLanguage_tree.mp h
    exact CodeUnit.singleton_ne_ofChar hu c hc

/-- The characters from the surrogate gap to the first one above the basic plane are written as units and a pair. -/
theorem unitClass_exact_span :
    ∃ t : Native.Tree UnitSet, Lexis.unit.tree? false "(?:[\\uD7FF\\uE000-\\uFFFF]|\\uD800\\uDC00)+".toList =
        some (.seq (.repeated 1 none true t) .empty, 0) ∧
      [0xD800, 0xDC00] ∈ t.unitLanguage ∧ [0xD800] ∉ t.unitLanguage := by
  have htext : Dialect.utf16.charClass false (CharSet.span 0xD7FF 0x10000) =
      "(?:[\\uD7FF\\uE000-\\uFFFF]|\\uD800\\uDC00)".toList := rfl
  obtain ⟨t, _, _, htree, hmatches, halone⟩ := unitClass_exact false (CharSet.span 0xD7FF 0x10000)
  have hplus := htree false (some ⟨.plus, false⟩) (by simp [Grammar.Quantity.Legal])
  rw [htext] at hplus
  have hpair : [0xD800, 0xDC00] = CodeUnit.ofChar (Char.ofNat 0x10000) := by decide
  refine ⟨t, hplus, (hmatches _).mpr ⟨Char.ofNat 0x10000, ⟨mem_span.mpr (by decide), hpair⟩, ?_⟩, halone _ (by decide)⟩
  intro c hc
  exact CodeUnit.ofChar_inj (hc.2.symm.trans hpair)

/-! ## Classes in brackets -/

namespace BracketClass

/-- A code point in front: a letter or digit of ASCII, or a hexadecimal numeral in braces. -/
def codePoint? : List Char → Option (Nat × List Char)
  | '\\' :: 'x' :: '\x7b' :: rest =>
    match rest.span (· != '\x7d') with
    | (d :: ds, '\x7d' :: rest) => (Numeral.ofHex? (d :: ds)).map (·, rest)
    | _ => none
  | c :: rest => if isAsciiAlphanumeric c.toNat then some (c.toNat, rest) else none
  | [] => none

/-- A range in front: a code point, or two with a hyphen in between. -/
def range? (cs : List Char) : Option (Range × List Char) :=
  match codePoint? cs with
  | some (first, '-' :: cs) => (codePoint? cs).map fun (last, cs) => (⟨first, last⟩, cs)
  | some (first, cs) => some (⟨first, first⟩, cs)
  | none => none

/-- Ranges, up to the bracket that ends the text. -/
def ranges? : (fuel : Nat) → List Char → Option (List Range)
  | 0, _ => none
  | _ + 1, [']'] => some []
  | n + 1, cs =>
    match range? cs with
    | some (r, cs) => (ranges? n cs).map (r :: ·)
    | none => none

/-- The class that a text is. -/
def read? : List Char → Option BracketClass
  | '[' :: '^' :: cs => (ranges? cs.length cs).map (⟨true, ·⟩)
  | '[' :: cs => (ranges? cs.length cs).map (⟨false, ·⟩)
  | _ => none

theorem codePoint?_scalarMember (n : Nat) (rest : List Char) :
    codePoint? (scalarMember n ++ rest) = some (n, rest) := by
  unfold scalarMember
  split
  · next h =>
    have hn := (toNat_alphanumeric h).1
    have hbackslash : Char.ofNat n ≠ '\\' := ofNat_ne_of_alphanumeric h (by decide)
    simp [codePoint?, hn, h, hbackslash]
  · have hspan := span_hex n rest
    have hvalue := Numeral.ofHex?_hex n
    obtain ⟨d, ds, hhex⟩ := List.exists_cons_of_ne_nil (Numeral.hex_ne_nil n)
    rw [hhex] at hspan hvalue
    unfold scalarHex
    rw [hhex, List.append_assoc, List.append_assoc]
    simp only [List.cons_append, List.nil_append, codePoint?]
    rw [← List.cons_append, hspan]
    show (Numeral.ofHex? (d :: ds)).map _ = _
    rw [hvalue]
    rfl

/-- A range in brackets is read back as it is. -/
theorem range?_bracketRange {r : Range} (hr : r.min ≤ r.max) {rest : List Char} (hrest : EndsItem rest) :
    range? (bracketRange scalarMember r.min r.max ++ rest) = some (r, rest) := by
  unfold range? bracketRange
  rw [List.append_assoc, codePoint?_scalarMember]
  by_cases hlt : r.min < r.max
  · rw [if_pos hlt]
    simp only [List.cons_append, codePoint?_scalarMember]
    rfl
  · obtain ⟨min, max⟩ := r
    obtain rfl : min = max := Nat.le_antisymm hr (Nat.le_of_not_lt hlt)
    rw [if_neg hlt, List.nil_append]
    split
    · next he =>
      cases he
      exact absurd rfl (hrest '-' rfl)
    · next he =>
      cases he
      rfl
    · next he => cases he

/-- Ranges in brackets are read back as they are. -/
theorem ranges?_scalarRanges {ranges : List Range} (hr : ∀ r ∈ ranges, r.min ≤ r.max) {fuel : Nat}
    (hf : (scalarRanges ranges ++ [']']).length ≤ fuel) :
    ranges? fuel (scalarRanges ranges ++ [']']) = some ranges := by
  induction ranges generalizing fuel with
  | nil =>
    cases fuel with
    | zero => exact absurd hf (Nat.not_succ_le_zero _)
    | succ fuel => rfl
  | cons r ranges ih =>
    have hrange := range?_bracketRange (hr r List.mem_cons_self) (endsItem_ranges ranges [])
    rw [scalarRanges_cons] at hf ⊢
    obtain ⟨fuel, rfl, hfuel⟩ := exists_fuel_behind_item startsMember_range hf
    rw [ranges?, hrange]
    · show (ranges? fuel _).map _ = _
      rw [ih (fun x hx => hr x (List.mem_cons_of_mem _ hx)) hfuel]
      rfl
    · exact (startsMember_range r _).ne (by decide) []

theorem read?_of_startsMember {cs : List Char} (h : StartsMember cs) :
    read? ('[' :: cs) = (ranges? cs.length cs).map (⟨false, ·⟩) := by
  rw [read?]
  exact h.ne (by decide)

/-- A class of ranges in order is read back from its text. -/
theorem read?_text {b : BracketClass} (h : ∀ r ∈ b.ranges, r.min ≤ r.max) (hne : b.ranges ≠ []) :
    read? b.text = some b := by
  obtain ⟨negated, ranges⟩ := b
  have hread := ranges?_scalarRanges h (Nat.le_refl _)
  cases negated with
  | true =>
    show read? ('[' :: '^' :: (scalarRanges ranges ++ [']'])) = _
    rw [read?, hread]
    rfl
  | false =>
    obtain ⟨r, rs, rfl⟩ := List.exists_cons_of_ne_nil hne
    have hstarts : StartsMember (scalarRanges (r :: rs) ++ [']']) := by
      rw [scalarRanges_cons]
      exact startsMember_range r _
    show read? ('[' :: (scalarRanges (r :: rs) ++ [']'])) = _
    rw [read?_of_startsMember hstarts, hread]
    rfl

end BracketClass

/--
The class that is written for a canonical set is read back, whether it is written by the ranges of the set or by those
of the complement. Its ranges are in order and their ends are characters, it stands for the set whichever way it is
written, and an engine takes it for the set wherever it stands.
-/
theorem scalarClass_roundTrip {set : CharSet} (h : set.Canonical) (expand : Bool) :
    ∃ b, BracketClass.read? (Dialect.scalar.charClass expand set) = some b ∧ b.ranges ≠ [] ∧
      (∀ r ∈ b.ranges, IsRange r) ∧ (∀ c, b.Takes c ↔ c ∈ set) ∧
      (∃ b', BracketClass.read? (Dialect.scalar.charClass (!expand) set) = some b' ∧ ∀ c, b'.Takes c ↔ b.Takes c) ∧
      ∀ s : Scope, s.caseBlind = false →
        ∃ read, ReadsAtom Lexis.scalar s (Dialect.scalar.charClass expand set) (.chars read) ∧
          ∀ c, c ∈ read ↔ c ∈ set := by
  have hread : ∀ expand, BracketClass.read? (Dialect.scalar.charClass expand set) =
      some (ScalarClass.bracketClass expand set) := by
    intro expand
    rw [Dialect.charClass, ← ScalarClass.text_bracketClass]
    apply BracketClass.read?_text
    · intro r hr
      exact (ScalarClass.isRange_of_bracketClass hr).ordered
    · exact ScalarClass.ranges_bracketClass_ne_nil expand set
  refine ⟨_, hread expand, ScalarClass.ranges_bracketClass_ne_nil expand set, ?_, ?_, ⟨_, hread !expand, ?_⟩, ?_⟩
  · intro r hr
    exact ScalarClass.isRange_of_bracketClass hr
  · intro c
    exact ScalarClass.takes_bracketClass h
  · intro c
    rw [ScalarClass.takes_bracketClass h, ScalarClass.takes_bracketClass h]
  · intro s hs
    exact ⟨_, readsAtom_class hs expand set, fun c => ScalarClass.mem_readBack_of_canonical h⟩

/-- All characters but the first one behind the surrogate gap are written as a complement. -/
theorem scalarClass_roundTrip_behindGap :
    ∃ b, BracketClass.read? "[^\\x\x7bE000\x7d]".toList = some b ∧
      (∀ c, b.Takes c ↔ c ∈ CharSet.full \ .single behindGap) ∧
      ∃ b', BracketClass.read? "[\\x\x7b0\x7d-\\x\x7bD7FF\x7d\\x\x7bE001\x7d-\\x\x7b10FFFF\x7d]".toList = some b' ∧
        ∀ c, b'.Takes c ↔ b.Takes c := by
  have hcanonical : (CharSet.full \ .single behindGap).Canonical := (separated_full_diff _).parted _
  have hshort : Dialect.scalar.charClass false (CharSet.full \ .single behindGap) = "[^\\x\x7bE000\x7d]".toList := rfl
  have hlong : Dialect.scalar.charClass true (CharSet.full \ .single behindGap) =
      "[\\x\x7b0\x7d-\\x\x7bD7FF\x7d\\x\x7bE001\x7d-\\x\x7b10FFFF\x7d]".toList := rfl
  obtain ⟨b, hb, _, _, htakes, ⟨b', hb', hsame⟩, _⟩ := scalarClass_roundTrip hcanonical false
  rw [hshort] at hb
  rw [Bool.not_false, hlong] at hb'
  exact ⟨b, hb, htakes, b', hb', hsame⟩

end XmlPattern
