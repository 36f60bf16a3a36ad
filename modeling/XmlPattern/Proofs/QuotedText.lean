import XmlPattern.Proofs.CaseClosure
import XmlPattern.Proofs.Escaping
import XmlPattern.Proofs.Scan.Broken

/-!
# Quoted text

In literal mode an expression is text that stands for itself. What is written for it matches that text as a whole, and
no other case of it, even where case is not to count: only reading by the grammar closes literals under case.

- `caseVariants`: a text in any case.
- `convertText_matches_iff`: quoted text is matched in one case, which is as good as any where no letter has another
  case.
- `not_matches_anyCase`: a letter in the other case is not matched.
- `convert_quote`: literal mode is as good as a backslash in front of each character with a meaning of its own.
-/

namespace XmlPattern

open CodeUnit Grammar Native

/-! ## Languages that a pattern matches -/

/--
A pattern of a dialect has no capturing groups and matches, as a whole, the texts of a language and nothing else.
Engines of the UTF-16 dialect see the units of a text.
-/
def Dialect.MatchesExactly (multiLine : Bool) (pattern : List Char) (l : Language Char) : Dialect → Prop
  | scalar => ∃ t, Lexis.scalar.tree? multiLine pattern = some (t, 0) ∧ ∀ w, w ∈ t.charLanguage ↔ w ∈ l
  | utf16 => ∃ t, Lexis.unit.tree? multiLine pattern = some (t, 0) ∧
    ∀ us, us ∈ t.unitLanguage ↔ ∃ w ∈ l, us = CodeUnit.encode w

namespace Dialect

variable {d : Dialect} {multiLine : Bool} {pattern : List Char} {l m : Language Char}

/-- A pattern matches one language only. -/
theorem MatchesExactly.unique (hl : d.MatchesExactly multiLine pattern l) (hm : d.MatchesExactly multiLine pattern m) :
    l = m := by
  cases d with
  | scalar =>
    obtain ⟨t, ht, hl⟩ := hl
    obtain ⟨t', ht', hm⟩ := hm
    rw [ht] at ht'
    cases ht'
    exact Set.ext fun w => (hl w).symm.trans (hm w)
  | utf16 =>
    obtain ⟨t, ht, hl⟩ := hl
    obtain ⟨t', ht', hm⟩ := hm
    rw [ht] at ht'
    cases ht'
    have hmem : ∀ {k : Language Char} (w : List Char), (∃ v ∈ k, CodeUnit.encode w = CodeUnit.encode v) ↔ w ∈ k := by
      intro k w
      refine ⟨?_, fun hw => ⟨w, hw, rfl⟩⟩
      rintro ⟨v, hv, he⟩
      rw [CodeUnit.encode_injective he]
      exact hv
    ext w
    exact (hmem w).symm.trans ((hl _).symm.trans ((hm _).trans (hmem w)))

/-- Literals one after another match their characters. -/
theorem matchesExactly_literals (d : Dialect) (multiLine : Bool) (text : List Char) :
    d.MatchesExactly multiLine (Fragment.textOf d (text.map .literal)) {text} := by
  cases d with
  | scalar => exact ⟨_, neutral_scalar.reads_textOf text multiLine, neutral_scalar.denotes text⟩
  | utf16 =>
    refine ⟨_, neutral_utf16.reads_textOf text multiLine, fun us => (neutral_utf16.denotes text us).trans ?_⟩
    constructor
    · intro h
      exact ⟨text, rfl, h⟩
    · rintro ⟨w, rfl, h⟩
      exact h

end Dialect

/-! ## Case -/

/-- The texts that are character by character a text in any case, or in the same case. -/
def caseVariants (caseBlind : Bool) (text : List Char) : Language Char := {w | List.Forall₂ (Alike caseBlind) w text}

theorem mem_caseVariants_self (caseBlind : Bool) (text : List Char) : text ∈ caseVariants caseBlind text :=
  List.forall₂_same.mpr fun _ _ => .inl rfl

theorem eq_of_mem_caseVariants {caseBlind : Bool} {text w : List Char}
    (h : ∀ x ∈ text, ∀ y, Alike caseBlind y x → y = x) (hw : w ∈ caseVariants caseBlind text) : w = text := by
  induction hw with
  | nil => rfl
  | cons hyx _ ih =>
    rw [h _ List.mem_cons_self _ hyx, ih fun x hx => h x (List.mem_cons_of_mem _ hx)]

/-- A text is the only one in any case exactly when none of its characters has another case. -/
theorem caseVariants_eq_singleton_iff {caseBlind : Bool} {text : List Char} :
    caseVariants caseBlind text = {text} ↔ ∀ x ∈ text, ∀ y, Alike caseBlind y x → y = x := by
  constructor
  · intro h x hx y hy
    obtain ⟨before, after, rfl⟩ := List.append_of_mem hx
    have hmem : before ++ y :: after ∈ caseVariants caseBlind (before ++ x :: after) :=
      List.rel_append (mem_caseVariants_self _ before) (.cons hy (mem_caseVariants_self _ after))
    rw [h] at hmem
    exact List.head_eq_of_cons_eq (List.append_cancel_left hmem)
  · intro h
    ext w
    constructor
    · intro hw
      exact eq_of_mem_caseVariants h hw
    · rintro rfl
      exact mem_caseVariants_self caseBlind w

/-! ## Literal mode -/

/-- In literal mode a text is converted to a pattern that matches it and nothing else. -/
theorem convertText_literal {o : Options} (hl : o.literal = true) (d : Dialect) (text : String) :
    ∃ c, convertText o (.schema d) text = .ok c ∧ d.MatchesExactly o.multiLine c.pattern {text.toList} := by
  refine ⟨⟨text.toList.map .literal, d, o.variant, o.multiLine, 0, []⟩, ?_,
    d.matchesExactly_literals o.multiLine text.toList⟩
  rw [convertText, convert, if_pos hl, convertLiteral, CodeUnit.decode_encode]
  rfl

/--
Where case is not to count, quoted text is nevertheless matched as it stands and in no other case. That is right exactly
where no character of it has another case.
-/
theorem convertText_matches_iff (o : Options) (d : Dialect) (text : String) :
    ∃ c, convertText { o with literal := true, caseBlind := true } (.schema d) text = .ok c ∧
      d.MatchesExactly o.multiLine c.pattern {text.toList} ∧
      (d.MatchesExactly o.multiLine c.pattern (caseVariants true text.toList) ↔
        ∀ x ∈ text.toList, ∀ y, Alike true y x → y = x) := by
  obtain ⟨c, hc, hself⟩ := convertText_literal (o := { o with literal := true, caseBlind := true }) rfl d text
  refine ⟨c, hc, hself, ?_⟩
  rw [← caseVariants_eq_singleton_iff]
  constructor
  · intro hvariants
    exact hvariants.unique hself
  · intro h
    rw [h]
    exact hself

/-- Quoted, `a` is not matched by `A`. -/
theorem not_matches_anyCase :
    ¬ ∀ (o : Options) (d : Dialect) (text : String) (c : Conversion), o.literal = true → o.caseBlind = true →
      convertText o (.schema d) text = .ok c →
      d.MatchesExactly o.multiLine c.pattern (caseVariants true text.toList) := by
  intro hall
  let o : Options := { variant := .xpath30, literal := true, caseBlind := true }
  obtain ⟨c, hc, hself⟩ := convertText_literal (o := o) rfl .scalar "a"
  have hsame := (hall o .scalar "a" c rfl rfl hc).unique hself
  have hgroup : ['A', 'a'] ∈ Unicode.foldGroups := by decide +kernel
  have hletters : Alike true 'A' 'a' :=
    .inr ⟨rfl, _, hgroup, List.mem_cons_self, List.mem_cons_of_mem _ List.mem_cons_self⟩
  have heq := caseVariants_eq_singleton_iff.mp hsame 'a' (by decide) 'A' hletters
  exact absurd heq (by decide)

/-! ## Quoting -/

/-- The characters that stand for themselves only behind a backslash. -/
def quotedChars (v : Variant) : List Char := metaChars ++ if v.isXPath then anchorChars else []

/-- Units with a backslash in front of each that would have a meaning of its own. -/
def quote (v : Variant) (units : List CodeUnit) : List CodeUnit :=
  units.flatMap fun u => if u ∈ basic (quotedChars v) then [unit '\\', u] else [u]

variable {v : Variant} {c : Char}

theorem quote_append (v : Variant) (us vs : List CodeUnit) : quote v (us ++ vs) = quote v us ++ quote v vs :=
  List.flatMap_append

theorem quotedChars_spec (h : c ∈ quotedChars v) : c.toNat < 0x80 ∧ c ∈ escapable v ∧ escapedChar c = c := by
  have hmeta : ∀ v, ∀ c ∈ metaChars, c.toNat < 0x80 ∧ c ∈ escapable v ∧ escapedChar c = c := by
    intro v
    cases v <;> exact List.all_iff_forall_prop.mp (by decide)
  have hanchor : ∀ c ∈ anchorChars, c.toNat < 0x80 ∧ c ∈ escapable .xpath20 ∧ escapedChar c = c :=
    List.all_iff_forall_prop.mp (by decide)
  rcases List.mem_append.mp h with h | h
  · exact hmeta v c h
  · split at h
    · next hx =>
      obtain ⟨hlt, hmem, hchar⟩ := hanchor c h
      refine ⟨hlt, ?_, hchar⟩
      rw [escapable, hx]
      exact hmem
    · cases h

theorem mem_basic_quotedChars {u : CodeUnit} : u ∈ basic (quotedChars v) ↔ ∃ c ∈ quotedChars v, u = unit c := by
  rw [basic, List.mem_map]
  exact exists_congr fun c => and_congr_right fun _ => eq_comm

/-- No backslash comes in front of a surrogate. -/
theorem quote_surrogate {u : CodeUnit} (hu : u.isSurrogate = true) (rest : List CodeUnit) :
    quote v (u :: rest) = u :: quote v rest := by
  have hno : u ∉ basic (quotedChars v) := by
    intro h
    obtain ⟨c, hc, rfl⟩ := mem_basic_quotedChars.mp h
    exact ne_unit_of_isSurrogate hu (Nat.lt_trans (quotedChars_spec hc).1 (by decide)) rfl
  rw [quote, List.flatMap_cons, if_neg hno]
  rfl

/-- Quoting neither mends a broken pair nor moves the place where it breaks. -/
theorem breaksAfter_quote {k : Nat} {units : List CodeUnit} (h : BreaksAfter k units) :
    BreaksAfter k (quote v units) := by
  obtain ⟨u, rest, rfl, hu⟩ := h.exists_surrogate
  rw [quote_surrogate hu]
  cases h with
  | low hlow => exact .low hlow
  | high hhigh hnext =>
    refine .high hhigh ?_
    cases rest with
    | nil => exact nofun
    | cons w rest =>
      -- What stands behind a first half is as it was or a backslash, neither of which is a second half.
      rw [quote, List.flatMap_cons]
      split
      · rintro _ ⟨⟩
        decide
      · rintro _ ⟨⟩
        exact hnext w rfl

theorem length_le_quote (v : Variant) (units : List CodeUnit) : units.length ≤ (quote v units).length := by
  induction units with
  | nil => exact Nat.le_refl 0
  | cons u rest ih =>
    rw [quote] at ih ⊢
    rw [List.flatMap_cons, List.length_append, List.length_cons]
    split
    · rw [List.length_cons, List.length_singleton]
      omega
    · rw [List.length_singleton]
      omega

/-- What need not be quoted need not be quoted in part. -/
theorem length_quote_take {units : List CodeUnit} {n : Nat} (h : quote v units = units) (hn : n ≤ units.length) :
    (quote v (units.take n)).length = n := by
  have hfront := length_le_quote v (units.take n)
  have hbehind := length_le_quote v (units.drop n)
  have hsum : (quote v (units.take n)).length + (quote v (units.drop n)).length = units.length := by
    rw [← List.length_append, ← quote_append, List.take_append_drop, h]
  rw [List.length_take] at hfront
  rw [List.length_drop] at hbehind
  omega

/-- Units up to where the pair behind a text breaks are quoted as the text is. -/
theorem length_quote_take_broken {text : List Char} {broken : List CodeUnit} {k : Nat} (hk : BreaksAfter k broken) :
    (quote v ((encode text ++ broken).take ((encode text).length + k))).length =
      (quote v (encode text)).length + k := by
  rw [List.take_length_add_append, quote_append, List.length_append]
  congr 1
  cases hk with
  | low _ => rfl
  | high hu _ =>
    rw [List.take_succ_cons, List.take_zero, quote_surrogate (by rw [isSurrogate_eq, hu]; rfl)]
    rfl

/-! ## The syntax of quoted text -/

/-- A character as an atom, behind a backslash where it needs one. -/
def quotedSingle (v : Variant) (c : Char) : Single := if c ∈ quotedChars v then .escaped c else .plain c

theorem char_quotedSingle (v : Variant) (c : Char) : (quotedSingle v c).char = c := by
  unfold quotedSingle
  split
  · next h => exact (quotedChars_spec h).2.2
  · rfl

theorem legal_quotedSingle (v : Variant) (c : Char) : (quotedSingle v c).LegalAtom v := by
  unfold quotedSingle
  split
  · next h => exact (quotedChars_spec h).2.1
  · next h =>
    rw [quotedChars, List.mem_append, not_or] at h
    refine ⟨h.1, ?_⟩
    intro hx hmem
    rw [if_pos hx] at h
    exact h.2 hmem

theorem units_quotedSingle (v : Variant) (c : Char) : (quotedSingle v c).units = quote v (ofChar c) := by
  unfold quotedSingle
  rcases ofChar_cases c with ⟨u, hu, hs, rfl⟩ | ⟨u, w, hu, hhigh, hlow, _⟩
  · have hmem : u ∈ basic (quotedChars v) ↔ u.toBasic ∈ quotedChars v := by
      rw [mem_basic_quotedChars]
      constructor
      · rintro ⟨c, hc, rfl⟩
        rw [toBasic_ofBasic (Nat.lt_trans (quotedChars_spec hc).1 (by decide))]
        exact hc
      · intro h
        exact ⟨_, h, (ofBasic_toBasic hs).symm⟩
    rw [hu, quote, List.flatMap_singleton]
    split
    · next h =>
      rw [if_pos (hmem.mpr h), Single.units, basic_cons, basic_cons, basic_nil, ofBasic_toBasic hs]
    · next h => rw [if_neg (mt hmem.mp h), Single.units, hu]
  · have hno : c ∉ quotedChars v := by
      intro h
      have hlt := (quotedChars_spec h).1
      rw [ofChar, if_pos (Nat.lt_trans hlt (by decide))] at hu
      cases hu
    rw [if_neg hno, Single.units, hu, quote_surrogate (by rw [isSurrogate_eq, hhigh]; rfl),
      quote_surrogate (by rw [isSurrogate_eq, hlow, Bool.or_true])]
    rfl

/-- The branch that a quoted text is. -/
def quotedBranch (v : Variant) (text : List Char) : Branch :=
  text.foldr (fun c b => .cons (.leaf (.single (quotedSingle v c))) none b) .nil

variable {o : Options}

theorem legal_quotedBranch (depth : Nat) (G : Grammar.Groups) (text : List Char) :
    (quotedBranch o.variant text).Legal o depth G := by
  induction text generalizing G with
  | nil => trivial
  | cons c text ih => exact ⟨legal_quotedSingle o.variant c, nofun, trivial, ih _⟩

/-- A scan of quoted text reads the units of each character and writes its literal. -/
theorem course_quotedBranch (hcase : o.caseBlind = false) (G : Grammar.Groups) (text : List Char) :
    (quotedBranch o.variant text).course o G =
      text.flatMap fun c => reads (quote o.variant (ofChar c)) ++ [.write (.literal c)] := by
  induction text generalizing G with
  | nil => rfl
  | cons c text ih =>
    have hfragment : (Leaf.single (quotedSingle o.variant c)).fragment o = .literal c := by
      show (if o.caseBlind then _ else Fragment.literal (quotedSingle o.variant c).char) = _
      rw [hcase, char_quotedSingle]
      rfl
    have hcourse : (Leaf.single (quotedSingle o.variant c)).course o =
        reads (quote o.variant (ofChar c)) ++ [.write (.literal c)] := by
      rw [Leaf.course, hfragment, Leaf.passing, units_quotedSingle]
    show (Leaf.single (quotedSingle o.variant c)).course o ++ [] ++ (quotedBranch o.variant text).course o _ = _
    rw [hcourse, ih, List.append_nil, List.flatMap_cons]

section

variable (hcase : o.caseBlind = false)
include hcase

theorem plain_quotedBranch (text : List Char) : Plain ((quotedBranch o.variant text).course o {}) := by
  rw [course_quotedBranch hcase]
  induction text with
  | nil => exact .nil
  | cons c text ih =>
    rw [List.flatMap_cons]
    exact ((plain_reads _).append (.write .nil)).append ih

theorem taken_quotedBranch (text : List Char) :
    taken ((quotedBranch o.variant text).course o {}) = quote o.variant (encode text) := by
  rw [course_quotedBranch hcase]
  induction text with
  | nil => rfl
  | cons c text ih =>
    rw [List.flatMap_cons, taken_append, taken_append, taken_reads, ih, encode_cons, quote_append]
    exact congrArg (· ++ _) (List.append_nil _)

theorem written_quotedBranch (text : List Char) :
    written ((quotedBranch o.variant text).course o {}) = text.map .literal := by
  rw [course_quotedBranch hcase]
  induction text with
  | nil => rfl
  | cons c text ih =>
    rw [List.flatMap_cons, written_append, written_append, written_reads, ih]
    rfl

variable (hfold : o.foldBlanks = false) (d : Dialect)
include hfold

/-- Quoted text is converted to the literals of its characters. -/
theorem convertPattern_quote (text : List Char) :
    convertPattern o (.schema d) (quote o.variant (encode text)) =
      .ok ⟨text.map .literal, d, o.variant, o.multiLine, 0, []⟩ := by
  have hplain := plain_quotedBranch hcase text
  have hsyntax : (Regexp.branch (quotedBranch o.variant text)).IsSyntaxOf o (quote o.variant (encode text)) := by
    refine ⟨legal_quotedBranch 0 {} text, ?_⟩
    rw [hfold, spells_iff, ← ((Regexp.branch (quotedBranch o.variant text)).passed_course o {}).1, map_passed]
    exact (taken_quotedBranch hcase text).symm
  obtain ⟨s, hscan, hf⟩ := scan_complete (d := d) hsyntax
  have hstate := hplain.follows hf
  rw [written_quotedBranch hcase] at hstate
  rw [convertPattern, hscan, hstate]
  simp [ScanState.advance, ScanState.ofUnits, Atoms.dialect]

/-- Units behind text that are half of a pair break quoted as they do unquoted. -/
theorem convertPattern_quote_broken {text : List Char} {broken : List CodeUnit} {k : Nat} (hk : BreaksAfter k broken) :
    convertPattern o (.schema d) (quote o.variant (encode text ++ broken)) =
      .error (.pattern ⟨.invalidSurrogatePair, (quote o.variant (encode text)).length + k,
        String.ofList (decodeLossy (quote o.variant (encode text ++ broken)))⟩) := by
  have hunits : quote o.variant (encode text ++ broken) =
      taken ((quotedBranch o.variant text).course o {}) ++ quote o.variant broken := by
    rw [taken_quotedBranch hcase, quote_append]
  have herror := convertPattern_of_broken (d := d) hfold (legal_quotedBranch 0 {} text) (plain_quotedBranch hcase text)
    hunits (breaksAfter_quote hk)
  rw [taken_quotedBranch hcase] at herror
  exact herror

end

/--
Where case and blanks count, quoted text is converted in literal mode as it is converted with backslashes in front of
what has a meaning of its own: to the same pattern without groups and warnings, or to none if half of a pair is in it.
The place of the failure is the same but for the backslashes in front of it.
-/
theorem convert_quote (hcase : o.caseBlind = false) (hfold : o.foldBlanks = false) (d : Dialect)
    (units : List CodeUnit) :
    (∃ c, convert { o with literal := true } (.schema d) units = .ok c ∧
        convert { o with literal := false } (.schema d) (quote o.variant units) = .ok c ∧
        c.captureCount = 0 ∧ c.warnings = []) ∨
      ∃ n ≤ units.length,
        convert { o with literal := true } (.schema d) units =
          .error (.pattern ⟨.invalidSurrogatePair, n, String.ofList (decodeLossy units)⟩) ∧
        convert { o with literal := false } (.schema d) (quote o.variant units) =
          .error (.pattern ⟨.invalidSurrogatePair, (quote o.variant (units.take n)).length,
            String.ofList (decodeLossy (quote o.variant units))⟩) ∧
        (quote o.variant units = units → (quote o.variant (units.take n)).length = n) := by
  rw [convert, convert, if_pos rfl, if_neg Bool.false_ne_true, convertLiteral]
  cases hdecode : decode 0 units with
  | ok text =>
    have hunits := encode_of_decode hdecode
    subst hunits
    refine .inl ⟨_, rfl, ?_, rfl, rfl⟩
    exact convertPattern_quote (o := { o with literal := false }) hcase hfold d text
  | error p =>
    have hbreaks := breaksAt_of_decode hdecode
    refine .inr ⟨p, hbreaks.le_length, rfl, ?_, fun hsame => length_quote_take hsame hbreaks.le_length⟩
    obtain ⟨text, broken, k, rfl, hk, rfl⟩ := hbreaks
    rw [length_quote_take_broken hk]
    exact convertPattern_quote_broken (o := { o with literal := false }) hcase hfold d hk

/--
The first half of a pair in front of an operator breaks at the operator, and at the backslash when the operator is
quoted.
-/
theorem convert_quote_halfPair :
    convert { variant := .xpath30, literal := true } (.schema .utf16) [unit '.', 0xD83D, unit '*'] =
        .error (.pattern ⟨.invalidSurrogatePair, 2, ".\uFFFD*"⟩) ∧
      convert { variant := .xpath30 } (.schema .utf16) [unit '\\', unit '.', 0xD83D, unit '\\', unit '*'] =
        .error (.pattern ⟨.invalidSurrogatePair, 3, "\\.\uFFFD\\*"⟩) := by
  have hliteral : convert { variant := .xpath30, literal := true } (.schema .utf16) [unit '.', 0xD83D, unit '*'] =
      .error (.pattern ⟨.invalidSurrogatePair, 2, ".\uFFFD*"⟩) := rfl
  refine ⟨hliteral, ?_⟩
  rcases convert_quote (o := { variant := .xpath30 }) rfl rfl .utf16 [unit '.', 0xD83D, unit '*'] with
    ⟨c, hc, _⟩ | ⟨n, _, hn, hquoted, _⟩
  · rw [hliteral] at hc
    cases hc
  · obtain rfl : 2 = n := by
      rw [hliteral] at hn
      injection hn with hn
      injection hn with hn
      injection hn
    exact hquoted

end XmlPattern
