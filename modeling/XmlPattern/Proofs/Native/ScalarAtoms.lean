import XmlPattern.Native.ScalarLexis
import XmlPattern.Proofs.Dialect.ScalarClass
import XmlPattern.Proofs.Grammar.Denotation
import XmlPattern.Proofs.Native.Atoms
import XmlPattern.Proofs.Native.Shape
import XmlPattern.Proofs.Text.Numeral

/-!
# Reading the atoms of the scalar dialect

A literal of the scalar dialect is read as the set of its one character, and a class as what it says.

- `readsAtom_literal`, `readsAtom_class`: literals and classes are read as one atom, whatever follows them.
- `readsLeaves_scalar`: and so is each atom of one character.
-/

namespace XmlPattern

namespace Native

open CharSet Grammar

variable {s : Scope}

/-! ## Numerals in braces -/

theorem span_hex (n : Nat) (rest : List Char) :
    (Numeral.hex n ++ '\x7d' :: rest).span (· != '\x7d') = (Numeral.hex n, '\x7d' :: rest) := by
  have hdigits : ∀ c ∈ Numeral.hex n, (c != '\x7d') = true := by
    intro c hc
    obtain ⟨k, hk, rfl⟩ := Numeral.mem_hex hc
    have hall : ∀ k < 16, (k.digitChar.toUpper != '\x7d') = true := by decide
    exact hall k hk
  rw [List.span_eq_takeWhile_dropWhile, List.takeWhile_append_of_pos hdigits, List.dropWhile_append_of_pos hdigits]
  simp

theorem hexChar?_hex {n : Nat} (h : n.isValidChar) (rest : List Char) :
    hexChar? ('\x7b' :: (Numeral.hex n ++ '\x7d' :: rest)) = some (Char.ofNat n, rest) := by
  have hspan := span_hex n rest
  obtain ⟨c, ds, hhex⟩ := List.exists_cons_of_ne_nil (Numeral.hex_ne_nil n)
  have hvalue := Numeral.ofHex?_hex n
  rw [hhex] at hspan hvalue
  rw [hhex]
  unfold hexChar?
  split
  · next he =>
    cases he
    rw [hspan]
    show (Numeral.ofHex? (c :: ds)).bind _ = _
    rw [hvalue]
    show (scalar? n).bind _ = _
    rw [scalar?, if_pos h]
    rfl
  · next hno he => exact (hno (List.head_eq_of_cons_eq he).symm).elim
  · next hno _ => exact (hno _ rfl).elim

theorem member?_hex {n : Nat} (h : n.isValidChar) (rest : List Char) :
    member? s ('x' :: '\x7b' :: (Numeral.hex n ++ '\x7d' :: rest)) = some (.char (Char.ofNat n), rest) := by
  show (hexChar? _).map _ = _
  rw [hexChar?_hex h rest]
  rfl

/-! ## Literals -/

theorem charsOf_char (hs : s.caseBlind = false) (c : Char) : charsOf s (.char c) = .single c := by
  rw [charsOf, hs]
  rfl

theorem scalarEscape?_meta {c : Char} (h : isScalarMeta c = true) (hs : s.caseBlind = false) (rest : List Char) :
    scalarEscape? s (c :: rest) = some (.chars (.single c), rest) := by
  have hmember : member? s (c :: rest) = some (.char c, rest) ∧ c ≠ 'A' ∧ c ≠ 'z' := by
    have hall : ∀ c : Char, isScalarMeta c = true → isPunctuation c = true ∧ c ∉ ['n', 'r', 't', 'x', 'A', 'z'] := by
      intro c hc
      have hlist : ∀ c ∈
          ['\\', '.', '+', '*', '?', '(', ')', '|', '[', ']', '\x7b', '\x7d', '^', '$', '#', '&', '-', '~'],
          isPunctuation c = true ∧ c ∉ ['n', 'r', 't', 'x', 'A', 'z'] :=
        List.all_iff_forall_prop.mp (by decide)
      exact hlist c (by simpa [isScalarMeta] using hc)
    obtain ⟨hp, hne⟩ := hall c h
    simp only [List.mem_cons, List.not_mem_nil, or_false, not_or] at hne
    simp [member?, hp, hne]
  obtain ⟨hm, hA, hz⟩ := hmember
  rw [← charsOf_char hs]
  unfold scalarEscape?
  split
  · next he => exact absurd (List.head_eq_of_cons_eq he) hA
  · next he => exact absurd (List.head_eq_of_cons_eq he) hz
  · rw [hm]
    rfl

theorem scalarEscape?_hex {n : Nat} (h : n.isValidChar) (hs : s.caseBlind = false) (rest : List Char) :
    scalarEscape? s ('x' :: '\x7b' :: (Numeral.hex n ++ '\x7d' :: rest)) =
      some (.chars (.single (Char.ofNat n)), rest) := by
  show (member? s _).map _ = _
  rw [member?_hex h rest, ← charsOf_char hs]
  rfl

theorem isValidChar_toNat (c : Char) : c.toNat.isValidChar := by
  have := toNat_gap c
  unfold Nat.isValidChar
  omega

/-- The characters that start something other than a literal. -/
theorem not_meta_of_literal {c : Char} (h : ¬ isScalarMeta c = true) :
    c ∉ ['*', '+', '?', '.', '^', '$', '(', '\\', '[', '\x7b', '|', ')'] := by
  simp only [isScalarMeta, decide_eq_true_eq, List.mem_cons, List.not_mem_nil, or_false, not_or] at h ⊢
  simp [h]

/-- A literal is read as the set of its character, whatever classes are. -/
theorem readsAtom_literal_withClasses (class? : Scope → List Char → Option (CharSet × List Char))
    (hs : s.caseBlind = false) (c : Char) :
    ReadsAtom (Lexis.scalar.withClasses class?) s (scalarLiteral c) (.chars (.single c)) := by
  unfold scalarLiteral
  split
  · next hm =>
    refine ⟨⟨'\\', [c], rfl, by decide, by decide, by decide⟩, fun {n opened rest} _ => ?_⟩
    have hdigit : ∀ c ∈
        ['\\', '.', '+', '*', '?', '(', ')', '|', '[', ']', '\x7b', '\x7d', '^', '$', '#', '&', '-', '~'],
        c.isDigit = false := List.all_iff_forall_prop.mp (by decide)
    exact atom?_escape (hdigit c (by simpa [isScalarMeta] using hm)) (scalarEscape?_meta hm hs rest)
  · next hm =>
    have hne := not_meta_of_literal hm
    split
    · refine ⟨⟨'\\', _, rfl, by decide, by decide, by decide⟩, fun {n opened rest} _ => ?_⟩
      have he := scalarEscape?_hex (s := s) (isValidChar_toNat c) hs rest
      rw [Char.ofNat_toNat] at he
      unfold scalarHex
      rw [List.append_assoc, List.append_assoc]
      exact atom?_escape rfl he
    · simp only [List.mem_cons, List.not_mem_nil, or_false, not_or] at hne
      refine ⟨⟨c, [], rfl, ?_, by simp [hne], by simp [hne]⟩, fun {n opened rest} _ => ?_⟩
      · simp [quantifiers, hne]
      · exact atom?_plain (by simp [hne]) (congrArg some (charsOf_char hs c))

/-- A literal is read as the set of its character. -/
theorem readsAtom_literal (hs : s.caseBlind = false) (c : Char) :
    ReadsAtom Lexis.scalar s (scalarLiteral c) (.chars (.single c)) :=
  readsAtom_literal_withClasses Lexis.scalar.class? hs c

/-! ## Classes -/

theorem startsMember_scalarMember (n : Nat) (rest : List Char) : StartsMember (scalarMember n ++ rest) := by
  unfold scalarMember
  split
  · next h => exact startsMember_alphanumeric h rest
  · exact ⟨'\\', _, rfl, by decide⟩

theorem classMember?_scalarMember {n : Nat} (h : n.isValidChar) (rest : List Char) :
    classMember? s (scalarMember n ++ rest) = some (.char (Char.ofNat n), rest) := by
  unfold scalarMember
  split
  · next ha =>
    show classMember? s (Char.ofNat n :: rest) = _
    unfold classMember?
    split
    · next he => exact absurd (List.head_eq_of_cons_eq he) (ofNat_ne_of_alphanumeric ha (by decide))
    · next he =>
      cases he
      rfl
    · next he => cases he
  · unfold scalarHex
    rw [List.append_assoc, List.append_assoc]
    exact member?_hex (s := s) h rest

theorem scalarRanges_cons (r : Range) (ranges : List Range) (rest : List Char) :
    scalarRanges (r :: ranges) ++ rest = bracketRange scalarMember r.min r.max ++ (scalarRanges ranges ++ rest) := by
  rw [scalarRanges, List.flatMap_cons, List.append_assoc]
  rfl

theorem startsMember_range (r : Range) (rest : List Char) :
    StartsMember (bracketRange scalarMember r.min r.max ++ rest) :=
  startsMember_bracketRange startsMember_scalarMember _ _ _

theorem endsItem_ranges (ranges : List Range) (rest : List Char) : EndsItem (scalarRanges ranges ++ ']' :: rest) :=
  endsItem_items startsMember_range ranges rest

/-- Two members with a hyphen between them are read as a range. -/
theorem classItem?_pair {lo hi : Char} {cs rest tail : List Char}
    (hlo : classMember? s cs = some (.char lo, '-' :: rest))
    (hrest : StartsMember rest) (hhi : classMember? s rest = some (.char hi, tail)) (hle : lo ≤ hi) :
    classItem? s cs = some (.span lo.toNat hi.toNat, tail) := by
  obtain ⟨c, rest, rfl, hne⟩ := hrest
  rw [classItem?, hlo]
  split
  · next he =>
    cases he
    exact absurd (by decide) hne
  · next he =>
    cases he
    simp only [hhi, if_pos hle]
  · next hno he =>
    cases he
    exact (hno _ _ rfl rfl).elim
  · next he => cases he

/-- A member without a hyphen behind it is read by itself. -/
theorem classItem?_single {c : Char} {cs rest : List Char} (hc : classMember? s cs = some (.char c, rest))
    (hrest : EndsItem rest) : classItem? s cs = some (.single c, rest) := by
  rw [classItem?, hc]
  split
  · next he =>
    cases he
    exact absurd rfl (hrest '-' rfl)
  · next he =>
    cases he
    exact absurd rfl (hrest '-' rfl)
  · next he =>
    cases he
    rfl
  · next he => cases he

/-- A range in brackets is read as its characters. -/
theorem classItem?_range {r : Range} (hr : IsRange r) {rest : List Char} (hrest : EndsItem rest) :
    classItem? s (bracketRange scalarMember r.min r.max ++ rest) = some (ofRange r, rest) := by
  by_cases hlt : r.min < r.max
  · have hle : Char.ofNat r.min ≤ Char.ofNat r.max := by
      rw [Char.le_def, UInt32.le_iff_toNat_le]
      have h₁ := toNat_ofNat hr.min
      have h₂ := toNat_ofNat hr.max
      simp only [Char.toNat] at h₁ h₂
      omega
    rw [bracketRange, if_pos hlt, List.append_assoc, List.cons_append, ofRange, if_pos hlt]
    rw [classItem?_pair (classMember?_scalarMember hr.min _) (startsMember_scalarMember r.max rest)
      (classMember?_scalarMember hr.max rest) hle, toNat_ofNat hr.min, toNat_ofNat hr.max]
  · rw [bracketRange, if_neg hlt, List.append_nil, ofRange, if_neg hlt]
    exact classItem?_single (classMember?_scalarMember hr.min rest) hrest

/-- Ranges in brackets are read one after another, up to the closing bracket. -/
theorem classItems?_ranges (set : CharSet) {ranges : List Range} (hr : ∀ r ∈ ranges, IsRange r) {rest : List Char}
    {fuel : Nat} (hf : (scalarRanges ranges ++ ']' :: rest).length ≤ fuel) :
    classItems? s fuel set (scalarRanges ranges ++ ']' :: rest) =
      some (ranges.foldl (fun s r => s ∪ ofRange r) set, rest) := by
  induction ranges generalizing set fuel with
  | nil =>
    cases fuel with
    | zero => exact absurd hf (Nat.not_succ_le_zero _)
    | succ fuel => rfl
  | cons r ranges ih =>
    have hitem := classItem?_range (s := s) (hr r List.mem_cons_self) (endsItem_ranges ranges rest)
    rw [scalarRanges_cons] at hf ⊢
    obtain ⟨fuel, rfl, hfuel⟩ := exists_fuel_behind_item startsMember_range hf
    rw [classItems?, hitem]
    · exact ih _ (fun x hx => hr x (List.mem_cons_of_mem _ hx)) hfuel
    · exact (startsMember_range r _).ne (by decide)

theorem resolve_of_not_blind (negated : Bool) (set : CharSet) :
    resolve false negated set = if negated then set.compl else set := rfl

/-- Ranges in brackets, complemented or not, are read as their union or its complement. -/
theorem classChars?_ranges {ranges : List Range} (hr : ∀ r ∈ ranges, IsRange r) (hne : ranges ≠ []) (negated : Bool)
    (hs : s.caseBlind = false) (rest : List Char) :
    classChars? s ((if negated then ['^'] else []) ++ scalarRanges ranges ++ ']' :: rest) =
      some (if negated then (ofRanges ranges).compl else ofRanges ranges, rest) := by
  have hstart : StartsMember (scalarRanges ranges ++ ']' :: rest) := by
    obtain ⟨r, rs, rfl⟩ := List.exists_cons_of_ne_nil hne
    rw [scalarRanges_cons]
    exact startsMember_range r _
  have hitems := classItems?_ranges (s := s) ∅ hr (Nat.le_succ (scalarRanges ranges ++ ']' :: rest).length)
  obtain ⟨c, cs, hc, hno⟩ := hstart
  have hcaret : c ≠ '^' := fun he => hno (by rw [he]; decide)
  have hbracket : c ≠ ']' := fun he => hno (by rw [he]; decide)
  rw [List.append_assoc]
  rw [hc] at hitems ⊢
  unfold classChars?
  cases negated with
  | true =>
    simp only [if_true, List.cons_append, List.nil_append, hs, resolve_of_not_blind]
    split
    · next he => exact absurd (List.head_eq_of_cons_eq he) hbracket
    · rw [hitems]
      rfl
  | false =>
    simp only [Bool.false_eq_true, if_false, List.nil_append, hs, resolve_of_not_blind]
    split
    · next he =>
      split at he
      · next h => exact absurd (List.head_eq_of_cons_eq h) hcaret
      · exact absurd (List.head_eq_of_cons_eq he) hbracket
    · split
      · next h => exact absurd (List.head_eq_of_cons_eq h) hcaret
      · rw [hitems]
        rfl

theorem readsAtom_ranges {ranges : List Range} (hr : ∀ r ∈ ranges, IsRange r) (hne : ranges ≠ []) (negated : Bool)
    (hs : s.caseBlind = false) :
    ReadsAtom Lexis.scalar s ('[' :: (if negated then ['^'] else []) ++ scalarRanges ranges ++ [']'])
      (.chars (if negated then (ofRanges ranges).compl else ofRanges ranges)) := by
  refine ⟨⟨'[', _, rfl, by decide, by decide, by decide⟩, fun {n opened rest} _ => ?_⟩
  have hread := classChars?_ranges hr hne negated hs rest
  have htext : '[' :: (if negated then ['^'] else []) ++ scalarRanges ranges ++ [']'] ++ rest =
      '[' :: ((if negated then ['^'] else []) ++ scalarRanges ranges ++ ']' :: rest) := by simp
  rw [htext]
  show (classChars? s _).map _ = _
  rw [hread]
  rfl

/-- A class is read as what it says. -/
theorem readsAtom_class (hs : s.caseBlind = false) (expand : Bool) (t : CharSet) :
    ReadsAtom Lexis.scalar s (scalarClass expand t) (.chars (ScalarClass.readBack expand t)) := by
  rw [← ScalarClass.text_bracketClass, ScalarClass.readBack_eq]
  exact readsAtom_ranges (fun _ => ScalarClass.isRange_of_bracketClass)
    (ScalarClass.ranges_bracketClass_ne_nil expand t) _ hs

end Native

/-! ## Atoms of one character -/

namespace Fragment

/-- The set that the text of a fragment for one character is read as. -/
def readBack : Fragment → CharSet
  | literal c => .single c
  | charClass s expand => ScalarClass.readBack expand s
  | verbatim _ | reference .. => ∅

end Fragment

namespace Grammar.Leaf

open CharSet

variable {o : Options} {l : Leaf}

/-- An atom is read as what it stands for exactly when it is taken for that. -/
theorem readBack_iff_faithful : (∀ c, c ∈ (l.fragment o).readBack ↔ l.Denotes o c) ↔ l.Faithful o := by
  have hchars : ∀ c, c ∈ (l.fragment o).chars ↔ l.Takes o c := fun c => mem_chars_fragment
  have hord := ordered_fragment o l
  have hcan : l.Faithful o → (l.fragment o).chars.Canonical := canonical_fragment
  rcases fragment_cases o l with ⟨d, hd⟩ | ⟨s, hs⟩
  · rw [hd] at hchars ⊢
    exact forall_congr' fun c => iff_congr (hchars c) Iff.rfl
  · rw [hs] at hchars hord hcan ⊢
    constructor
    · intro hread c
      by_cases hp : ScalarClass.prefersComplement o.expandComplements s = true → s.Canonical
      · exact ((hchars c).symm.trans ((ScalarClass.mem_readBack_iff hord).mpr hp c).symm).trans (hread c)
      · obtain ⟨hp, hn⟩ := Classical.not_imp.mp hp
        obtain ⟨c, hgap, hc, hno⟩ := ScalarClass.exists_lost hord hp hn
        exact absurd ((hread c).mpr ((takes_iff hgap).mp ((hchars c).mp hc))) hno
    · exact fun hf c => (ScalarClass.mem_readBack_of_canonical (hcan hf)).trans ((hchars c).trans (hf c))

end Grammar.Leaf

namespace Native

/-- The engine of the scalar dialect reads each atom of one character as a set. -/
theorem readsLeaves_scalar (o : Options) :
    ReadsLeaves Lexis.scalar .scalar o fun x => .chars (x.fragment o).readBack := by
  intro x
  rcases x.fragment_cases o with ⟨c, hc⟩ | ⟨s, hs⟩
  · dsimp only
    rw [hc]
    exact readsAtom_literal rfl c
  · dsimp only
    rw [hs]
    exact readsAtom_class rfl _ s

end Native

end XmlPattern
