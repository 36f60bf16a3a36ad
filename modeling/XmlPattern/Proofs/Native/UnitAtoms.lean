import XmlPattern.Proofs.Dialect.UnitClass
import XmlPattern.Proofs.Grammar.Denotation
import XmlPattern.Proofs.Native.Language
import XmlPattern.Proofs.Native.Shape
import XmlPattern.Proofs.Text.Numeral

/-!
# Reading the atoms of the UTF-16 dialect

A literal of the UTF-16 dialect is read as the units of its character, and a class as its alternatives. What each is
read as matches the encodings of the characters that it stands for, and nothing else.

- `readsAtom_unitLiteral`, `readsAtom_unitClass`: literals and classes are read as one atom, whatever follows them.
- `Fragment.language_unitTree`: what they are read as matches.
-/

namespace XmlPattern

namespace Native

open CharSet CodeUnit UnitClass

variable {s : Scope}

/-! ## Units by their numbers -/

theorem unitEscape?_hex (u : CodeUnit) (rest : List Char) :
    unitEscape? ('u' :: (Numeral.hex4 u.toNat ++ rest)) = some (u, rest) := by
  obtain ⟨a, b, c, d, hhex, hvalue⟩ := Numeral.hex4_eq u.toNat_lt
  rw [hhex]
  show (Numeral.ofHex? [a, b, c, d]).map _ = _
  rw [hvalue]
  exact congrArg (fun v => some (v, rest)) UInt16.ofNat_toNat

/-- A unit by its number is read as the unit, whatever classes are. -/
theorem readsAtom_unitHex_withClasses (class? : Scope → List Char → Option (UnitSet × List Char))
    (hs : s.caseBlind = false) (u : CodeUnit) :
    ReadsAtom (Lexis.unit.withClasses class?) s (unitHex u.toNat) (.chars (.single u)) := by
  refine ⟨⟨'\\', _, rfl, by decide, by decide, by decide⟩, fun {n opened rest} _ => ?_⟩
  refine atom?_escape rfl ?_
  show (if s.caseBlind then none else (unitEscape? ('u' :: (Numeral.hex4 u.toNat ++ rest))).map _) = _
  rw [hs, unitEscape?_hex]
  rfl

theorem readsAtom_unitHex (hs : s.caseBlind = false) (u : CodeUnit) :
    ReadsAtom Lexis.unit s (unitHex u.toNat) (.chars (.single u)) :=
  readsAtom_unitHex_withClasses Lexis.unit.class? hs u

/-! ## Literals -/

/-- What a group of alternatives is read as. -/
def Tree.ofClasses (alternatives : List (List UnitSet)) : Tree UnitSet :=
  .group .plain (.alternation ((alternatives.map (List.map .chars)).map .sequence))

/-- What a literal is read as. -/
def unitLiteral (c : Char) : Tree UnitSet :=
  if isSupplementary c then .ofClasses [[.single (highOf c.toNat), .single (lowOf c.toNat)]]
  else .chars (.single (.ofBasic c))

theorem unitOf?_of_basic {c : Char} (h : ¬ isSupplementary c = true) : unitOf? c = some (.ofBasic c) := if_neg h

theorem toNat_of_basic {c : Char} (h : ¬ isSupplementary c = true) : (ofBasic c).toNat = c.toNat :=
  toNat_ofBasic (Nat.lt_of_not_le fun hle => h (decide_eq_true hle))

/-- A character that is no letter or digit stands for itself behind a backslash. -/
theorem unitEscape?_symbol {c : Char} (h : c.isAlphanum = false) (hb : ¬ isSupplementary c = true) (rest : List Char) :
    unitEscape? (c :: rest) = some (.ofBasic c, rest) := by
  unfold unitEscape?
  split
  · next he =>
    rw [List.head_eq_of_cons_eq he] at h
    exact absurd h (by decide)
  · next he =>
    cases he
    rw [h, unitOf?_of_basic hb]
    rfl
  · next he => cases he

/-- A literal is read as the units of its character, whatever classes are. -/
theorem readsAtom_unitLiteral_withClasses (class? : Scope → List Char → Option (UnitSet × List Char))
    (hs : s.caseBlind = false) (c : Char) :
    ReadsAtom (Lexis.unit.withClasses class?) s (utf16Literal c) (unitLiteral c) := by
  unfold utf16Literal unitLiteral
  split
  · have hhex := readsAtom_unitHex_withClasses (s := s) class? hs
    have hpair : ReadsAtoms (Lexis.unit.withClasses class?) s
        (unitHex (highOf c.toNat).toNat ++ unitHex (lowOf c.toNat).toNat)
        [.chars (.single (highOf c.toNat)), .chars (.single (lowOf c.toNat))] :=
      .cons (hhex _) (hhex _).readsAtoms
    have hgroup := readsAtom_alternatives (.cons hpair .nil) (List.cons_ne_nil _ _)
    rw [intercalate_singleton, ← List.append_assoc] at hgroup
    exact hgroup
  · next hb =>
    split
    · next hm =>
      have hall : ∀ c ∈ ['\\', '.', '*', '+', '?', '(', ')', '[', ']', '\x7b', '\x7d', '|', '^', '$', '/'],
          c.isDigit = false ∧ c.isAlphanum = false := List.all_iff_forall_prop.mp (by decide)
      obtain ⟨hdigit, halnum⟩ := hall c (by simpa [isUtf16Meta] using hm)
      refine ⟨⟨'\\', [c], rfl, by decide, by decide, by decide⟩, fun {n opened rest} _ => atom?_escape hdigit ?_⟩
      show (if s.caseBlind then none else (unitEscape? (c :: rest)).map _) = _
      rw [hs, unitEscape?_symbol halnum hb]
      rfl
    · next hm =>
      split
      · simp only [isUtf16Meta, decide_eq_true_eq, List.mem_cons, List.not_mem_nil, or_false, not_or] at hm
        refine ⟨⟨c, [], rfl, by simp [quantifiers, hm], by simp [hm], by simp [hm]⟩, fun {n opened rest} _ => ?_⟩
        refine atom?_plain (by simp [hm]) ?_
        show (if s.caseBlind then none else (unitOf? c).map _) = _
        rw [hs, unitOf?_of_basic hb]
        rfl
      · have hread := readsAtom_unitHex_withClasses class? hs (ofBasic c)
        rw [toNat_of_basic hb] at hread
        exact hread

/-- A literal is read as the units of its character. -/
theorem readsAtom_unitLiteral (hs : s.caseBlind = false) (c : Char) :
    ReadsAtom Lexis.unit s (utf16Literal c) (unitLiteral c) :=
  readsAtom_unitLiteral_withClasses Lexis.unit.class? hs c

/-! ## Classes -/

theorem startsMember_unitMember (n : Nat) (rest : List Char) : StartsMember (unitMember n ++ rest) := by
  unfold unitMember
  split
  · next h => exact startsMember_alphanumeric h rest
  · exact ⟨'\\', _, rfl, by decide⟩

theorem unitMember?_unitMember (u : CodeUnit) (rest : List Char) :
    unitMember? (unitMember u.toNat ++ rest) = some (u, rest) := by
  unfold unitMember
  split
  · next h =>
    obtain ⟨hvalue, hlt⟩ := toNat_alphanumeric h
    have hb : ¬ isSupplementary (Char.ofNat u.toNat) = true := by
      rw [isSupplementary, hvalue, decide_eq_true_eq]
      omega
    show unitMember? (Char.ofNat u.toNat :: rest) = _
    unfold unitMember?
    split
    · next he => exact absurd (List.head_eq_of_cons_eq he) (ofNat_ne_of_alphanumeric h (by decide))
    · next he =>
      cases he
      rw [unitOf?_of_basic hb, ofBasic, hvalue, UInt16.ofNat_toNat]
      rfl
    · next he => cases he
  · exact unitEscape?_hex u rest

/-- Spans in brackets. -/
def unitSpans (spans : List UnitSpan) : List Char := spans.flatMap fun r => unitRange r.min r.max

theorem startsMember_span (r : UnitSpan) (rest : List Char) : StartsMember (unitRange r.min r.max ++ rest) :=
  startsMember_bracketRange startsMember_unitMember _ _ _

theorem endsItem_spans (spans : List UnitSpan) (rest : List Char) : EndsItem (unitSpans spans ++ ']' :: rest) :=
  endsItem_items startsMember_span spans rest

/-- Two members with a hyphen between them are read as a span. -/
theorem unitItem?_pair {lo hi : CodeUnit} {cs rest tail : List Char} (hlo : unitMember? cs = some (lo, '-' :: rest))
    (hrest : StartsMember rest) (hhi : unitMember? rest = some (hi, tail)) (hle : lo ≤ hi) :
    unitItem? cs = some (⟨lo, hi⟩, tail) := by
  obtain ⟨c, rest, rfl, hne⟩ := hrest
  rw [unitItem?, hlo]
  split
  · next he =>
    cases he
    exact absurd (by decide) hne
  · next he =>
    cases he
    simp only [hhi, if_pos hle]
  · next hno he =>
    cases he
    exact (hno _ rfl).elim
  · next he => cases he

/-- A member without a hyphen behind it is read by itself. -/
theorem unitItem?_single {u : CodeUnit} {cs rest : List Char} (hu : unitMember? cs = some (u, rest))
    (hrest : EndsItem rest) : unitItem? cs = some (.single u, rest) := by
  rw [unitItem?, hu]
  split
  · next he =>
    cases he
    exact absurd rfl (hrest '-' rfl)
  · next he =>
    cases he
    exact absurd rfl (hrest '-' rfl)
  · next he =>
    cases he
    rfl
  · next he => cases he

/-- A span in brackets is read as itself. -/
theorem unitItem?_span {r : UnitSpan} (hr : r.min ≤ r.max) {rest : List Char} (hrest : EndsItem rest) :
    unitItem? (unitRange r.min r.max ++ rest) = some (r, rest) := by
  obtain ⟨lo, hi⟩ := r
  rw [unitRange, bracketRange, List.append_assoc]
  by_cases hlt : lo.toNat < hi.toNat
  · rw [if_pos hlt, List.cons_append]
    exact unitItem?_pair (unitMember?_unitMember lo _) (startsMember_unitMember hi.toNat rest)
      (unitMember?_unitMember hi rest) hr
  · have heq : hi = lo := by
      rw [← UInt16.toNat_inj]
      rw [UInt16.le_iff_toNat_le] at hr
      dsimp only at hr
      omega
    subst heq
    rw [if_neg hlt, List.nil_append]
    exact unitItem?_single (unitMember?_unitMember hi rest) hrest

/-- Spans in brackets are read one after another, up to the closing bracket. -/
theorem unitItems?_spans {spans : List UnitSpan} (h : ∀ r ∈ spans, r.min ≤ r.max) {rest : List Char} {fuel : Nat}
    (hf : (unitSpans spans ++ ']' :: rest).length ≤ fuel) :
    unitItems? fuel (unitSpans spans ++ ']' :: rest) = some (spans, rest) := by
  induction spans generalizing fuel with
  | nil =>
    cases fuel with
    | zero => exact absurd hf (Nat.not_succ_le_zero _)
    | succ fuel => rfl
  | cons r spans ih =>
    have hitem := unitItem?_span (h r List.mem_cons_self) (endsItem_spans spans rest)
    have hsplit : unitSpans (r :: spans) ++ ']' :: rest =
        unitRange r.min r.max ++ (unitSpans spans ++ ']' :: rest) := by
      simp [unitSpans]
    rw [hsplit] at hf ⊢
    obtain ⟨fuel, rfl, hfuel⟩ := exists_fuel_behind_item startsMember_span hf
    rw [unitItems?, hitem]
    · show (unitItems? fuel _).bind _ = _
      rw [ih (fun x hx => h x (List.mem_cons_of_mem _ hx)) hfuel]
      rfl
    · exact (startsMember_span r _).ne (by decide)

/-- Spans in brackets, complemented or not, are read as the class of units that they are. -/
theorem readsAtom_spans (hs : s.caseBlind = false) (negated : Bool) (spans : List UnitSpan)
    (h : ∀ r ∈ spans, r.min ≤ r.max) :
    ReadsAtom Lexis.unit s ('[' :: (if negated then ['^'] else []) ++ unitSpans spans ++ [']'])
      (.chars ⟨negated, spans⟩) := by
  refine ⟨⟨'[', _, rfl, by decide, by decide, by decide⟩, fun {n opened rest} _ => ?_⟩
  have hitems := unitItems?_spans h (Nat.le_succ (unitSpans spans ++ ']' :: rest).length)
  have htext : '[' :: (if negated then ['^'] else []) ++ unitSpans spans ++ [']'] ++ rest =
      '[' :: ((if negated then ['^'] else []) ++ (unitSpans spans ++ ']' :: rest)) := by simp
  have hread : unitClass? ((if negated then ['^'] else []) ++ (unitSpans spans ++ ']' :: rest)) =
      some (⟨negated, spans⟩, rest) := by
    unfold unitClass?
    cases negated with
    | true => simp only [if_true, List.cons_append, List.nil_append, hitems, Option.map_some]
    | false =>
      have hno : ∀ t, unitSpans spans ++ ']' :: rest ≠ '^' :: t := by
        intro t ht
        cases spans with
        | nil => cases ht
        | cons r spans =>
          rw [unitSpans, List.flatMap_cons, List.append_assoc] at ht
          exact (startsMember_span r _).ne (by decide) _ ht
      simp only [Bool.false_eq_true, if_false, List.nil_append, hitems, Option.map_some]
  rw [htext]
  show (if s.caseBlind then none else unitClass? _).map _ = _
  rw [hs, hread]
  rfl

/-! ## Alternatives -/

theorem unitRange_of_range {r : Range} (h : r.max < 0x10000) (hr : r.min ≤ r.max) :
    bracketRange unitMember r.min r.max = unitRange (spanOf r).min (spanOf r).max := by
  rw [unitRange, spanOf, UInt16.toNat_ofNat', UInt16.toNat_ofNat', Nat.mod_eq_of_lt (by omega),
    Nat.mod_eq_of_lt (by omega)]

/-- Basic ranges in brackets are read as their units. -/
theorem readsAtom_basic (hs : s.caseBlind = false) {basic : List Range}
    (h : ∀ r ∈ basic, r.min ≤ r.max ∧ r.max < 0x10000) :
    ReadsAtom Lexis.unit s (['['] ++ basic.flatMap (fun r => bracketRange unitMember r.min r.max) ++ [']'])
      (.chars (listed (basic.map spanOf))) := by
  have htext : basic.flatMap (fun r => bracketRange unitMember r.min r.max) = unitSpans (basic.map spanOf) := by
    rw [unitSpans, List.flatMap_map]
    exact List.flatMap_congr fun r hr => unitRange_of_range (h r hr).2 (h r hr).1
  rw [htext]
  refine readsAtom_spans hs false _ fun r hr => ?_
  obtain ⟨q, hq, rfl⟩ := List.mem_map.mp hr
  have := h q hq
  rw [UInt16.le_iff_toNat_le, spanOf, UInt16.toNat_ofNat', UInt16.toNat_ofNat']
  omega

theorem readsAtom_anyLow (hs : s.caseBlind = false) : ReadsAtom Lexis.unit s anyLow (.chars lows) :=
  readsAtom_spans hs false [⟨0xDC00, 0xDFFF⟩] (by decide)

theorem readsAtoms_lowRun (hs : s.caseBlind = false) {run : LowRun} (h : run.min ≤ run.max) :
    ReadsAtoms Lexis.unit s (lowRunText run) [.chars (.single run.high), .chars (listed [⟨run.min, run.max⟩])] := by
  unfold lowRunText
  refine .cons (readsAtom_unitHex hs _) (ReadsAtom.readsAtoms ?_)
  split
  · next he =>
    rw [← he]
    exact readsAtom_unitHex hs _
  · have hread := readsAtom_spans hs false [⟨run.min, run.max⟩] (by simpa using h)
    simpa [unitSpans, listed] using hread

/-- Each alternative of a class is read as its classes of units. -/
theorem reads_alternatives (hs : s.caseBlind = false) {basic supplementary : List Range}
    (hbasic : ∀ r ∈ basic, r.min ≤ r.max ∧ r.max < 0x10000) (hsup : ∀ r ∈ supplementary, r.IsSupplementary) :
    List.Forall₂ (ReadsAtoms Lexis.unit s) (unitAlternatives basic supplementary)
      ((alternatives basic supplementary).map (List.map .chars)) := by
  unfold unitAlternatives alternatives
  rw [List.map_append, List.map_append]
  refine List.rel_append (List.rel_append ?_ ?_) ?_
  · split
    · exact .nil
    · exact .cons (readsAtom_basic hs hbasic).readsAtoms .nil
  · split
    · exact .nil
    · refine .cons (.cons ?_ (readsAtom_anyLow hs).readsAtoms) .nil
      have hread := readsAtom_spans hs false ((highRuns supplementary).map fun run => ⟨run.min, run.max⟩) (by
        intro span hspan
        obtain ⟨run, hrun, rfl⟩ := List.mem_map.mp hspan
        obtain ⟨r, hr, hrun⟩ := mem_highRuns.mp hrun
        exact Range.highRun?_ordered (hsup r hr) hrun)
      simpa [unitSpans, listed, List.flatMap_map] using hread
  · rw [List.map_map, List.forall₂_map_left_iff, List.forall₂_map_right_iff, List.forall₂_same]
    intro run hrun
    obtain ⟨r, hr, hrun⟩ := mem_lowRuns.mp hrun
    exact readsAtoms_lowRun hs (Range.lowRuns_ordered (hsup r hr) hrun)

end Native

/-- What a class is read as. -/
def UnitClass.tree (s : CharSet) : Native.Tree Native.UnitSet :=
  let (basic, supplementary) := splitAtBasic s.ranges
  match UnitClass.alternatives basic supplementary, supplementary with
  | [], _ => .chars ⟨true, [⟨0, 0xFFFF⟩]⟩
  | [[only]], [] => .chars only
  | alternatives, _ => .ofClasses alternatives

namespace Native

open CharSet CodeUnit UnitClass

variable {s : Scope}

/-- A class is read as its alternatives. -/
theorem readsAtom_unitClass (hs : s.caseBlind = false) (set : CharSet) :
    ReadsAtom Lexis.unit s (unitClass set) (UnitClass.tree set) := by
  have hbasic : ∀ r ∈ (splitAtBasic set.ranges).1, r.min ≤ r.max ∧ r.max < 0x10000 := fun r hr => isBasic_of_mem hr
  have hsup : ∀ r ∈ (splitAtBasic set.ranges).2, r.IsSupplementary := fun r hr => isSupplementary_of_mem hr
  have hnothing : ReadsAtom Lexis.unit s unitNothing (.chars ⟨true, [⟨0, 0xFFFF⟩]⟩) :=
    readsAtom_spans hs true [⟨0, 0xFFFF⟩] (by decide)
  have hreads := reads_alternatives hs hbasic hsup
  unfold unitClass UnitClass.tree
  rcases hsplit : splitAtBasic set.ranges with ⟨basic, supplementary⟩
  rw [hsplit] at hbasic hreads
  dsimp only at hbasic hreads ⊢
  cases supplementary with
  | nil =>
    cases basic with
    | nil => exact hnothing
    | cons r basic => exact readsAtom_basic hs hbasic
  | cons r supplementary =>
    rw [List.forall₂_map_right_iff] at hreads
    generalize unitAlternatives basic (r :: supplementary) = texts at hreads ⊢
    generalize alternatives basic (r :: supplementary) = classes at hreads ⊢
    cases hreads with
    | nil => exact hnothing
    | cons ha hall =>
      have hgroup := readsAtom_alternatives (List.forall₂_map_right_iff.mpr (.cons ha hall)) (List.cons_ne_nil _ _)
      split
      · next he => cases he
      · next he => cases he
      · split
        · next he => cases he
        · next he => cases he
        · exact hgroup

/-! ## Languages -/

/-- The texts of units that a pattern over units matches. -/
abbrev Tree.unitLanguage (t : Tree UnitSet) : Language CodeUnit := t.language fun s u => s.contains u = true

variable {us : List CodeUnit}

theorem mem_unitLanguage_chars {classes : UnitSet} :
    us ∈ (Tree.chars classes).unitLanguage ↔ ∃ u, us = [u] ∧ classes.contains u = true :=
  exists_congr fun _ => and_comm

theorem mem_unitLanguage_ofClasses {alternatives : List (List UnitSet)} (h : alternatives ≠ []) :
    us ∈ (Tree.ofClasses alternatives).unitLanguage ↔ Matches alternatives us := by
  show us ∈ (Tree.alternation _).language _ ↔ _
  rw [Tree.mem_language_alternation (by simpa using h)]
  simp only [List.mem_map, exists_exists_and_eq_and, Tree.mem_language_sequence, Matches]

theorem contains_nothing (u : CodeUnit) : (UnitSet.mk true [⟨0, 0xFFFF⟩]).contains u = false := by
  have hlt := u.toNat_lt
  have hu : u ≤ 0xFFFF := by
    simp only [UInt16.le_iff_toNat_le, UInt16.reduceToNat]
    omega
  simp [UnitSet.contains, UnitSpan.contains, hu]

/-- A class is read as an atom that matches what its alternatives do. -/
theorem mem_unitLanguage_tree {set : CharSet} :
    us ∈ (UnitClass.tree set).unitLanguage ↔ ∃ c, c ∈ set ∧ us = ofChar c := by
  rw [← matches_alternatives_iff]
  unfold UnitClass.tree
  rcases splitAtBasic set.ranges with ⟨basic, supplementary⟩
  dsimp only
  split
  · next he =>
    rw [he, mem_unitLanguage_chars]
    simp [contains_nothing, Matches]
  · next he =>
    rw [he, mem_unitLanguage_chars, ← forall₂_one]
    simp [Matches]
  · next hno _ => exact mem_unitLanguage_ofClasses hno

/-- A literal is read as an atom that matches the encoding of its character. -/
theorem mem_unitLanguage_literal {c : Char} : us ∈ (unitLiteral c).unitLanguage ↔ us = ofChar c := by
  unfold unitLiteral ofChar isSupplementary
  simp only [decide_eq_true_eq]
  split
  · next hle =>
    rw [if_neg (Nat.not_lt_of_le hle), mem_unitLanguage_ofClasses (List.cons_ne_nil _ _)]
    simp [Matches, forall₂_two, contains_single]
  · next hlt =>
    rw [if_pos (Nat.lt_of_not_le hlt), mem_unitLanguage_chars]
    simp [contains_single]

end Native

/-! ## Atoms of one character -/

namespace Fragment

/-- What the text of a fragment for one character is read as in the UTF-16 dialect. -/
def unitTree : Fragment → Native.Tree Native.UnitSet
  | literal c => Native.unitLiteral c
  | charClass s _ => UnitClass.tree s
  | verbatim _ | reference .. => .empty

end Fragment

namespace Native

open Grammar CodeUnit

theorem mem_unitLanguage_fragment (o : Options) (x : Leaf) {us : List CodeUnit} :
    us ∈ (x.fragment o).unitTree.unitLanguage ↔ ∃ c, c ∈ (x.fragment o).chars ∧ us = ofChar c := by
  rcases x.fragment_cases o with ⟨c, hc⟩ | ⟨s, hs⟩
  · rw [hc]
    refine mem_unitLanguage_literal.trans ⟨fun h => ⟨c, CharSet.mem_single.mpr rfl, h⟩, ?_⟩
    rintro ⟨d, hd, rfl⟩
    rw [CharSet.mem_single.mp hd]
  · rw [hs]
    exact mem_unitLanguage_tree

/-- An engine of the UTF-16 dialect reads each atom of one character as its encodings. -/
theorem readsLeaves_unit (o : Options) : ReadsLeaves Lexis.unit .utf16 o fun x => (x.fragment o).unitTree := by
  intro x
  rcases x.fragment_cases o with ⟨c, hc⟩ | ⟨s, hs⟩
  · dsimp only
    rw [hc]
    exact readsAtom_unitLiteral rfl c
  · dsimp only
    rw [hs]
    exact readsAtom_unitClass rfl s

end Native

end XmlPattern
