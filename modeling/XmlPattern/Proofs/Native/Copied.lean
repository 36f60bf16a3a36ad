import XmlPattern.Proofs.Grammar.Verbatim
import XmlPattern.Proofs.Native.ScalarAtoms
import XmlPattern.Proofs.Native.UnitAtoms

/-!
# What is written is copied

Whatever a conversion writes for a part of a pattern is a part of a native pattern: literals and classes of either
dialect, back-references in their groups, and so the text of every legal syntax tree. Back-references and pairs of units
bring a group of their own, so that one more group around a part must be allowed than there are in the syntax tree.

- `copies_literal`, `copies_charClass`, `copies_reference`: the texts of fragments.
- `Regexp.copied`: the text of a syntax tree.
-/

namespace XmlPattern

open Grammar
open Native (StartsMember)
open Verbatim (ClassRest Operand)

variable {o : Options} {depth m n : Nat} {G G₁ G₂ : Groups} {a b : List Char}

/-! ## Texts of native patterns -/

/--
A text is an atom of native patterns inside so many groups, wherever it stands, and leads from groups to others. It has
groups of its own, at least so many within one another, that no limit may be too low for.
-/
def CopiesAtom (o : Options) (depth : Nat) (G : Groups) (text : List Char) (G' : Groups) (k : Nat := 0) : Prop :=
  ∃ a : Verbatim.Atom, a.Legal o depth ∧ (∀ behind, a.EndsBefore behind) ∧ a.clamped = a ∧ a.text = text ∧
    a.after G = G' ∧ ∀ p : Options, depth ≤ p.maxDepth → a.Legal p depth → depth + k ≤ p.maxDepth

/-- A text is a branch of native patterns inside so many groups. -/
def CopiesBranch (o : Options) (depth : Nat) (G : Groups) (text : List Char) (G' : Groups) (k : Nat := 0) : Prop :=
  ∃ b : Verbatim.Branch, b.Legal o depth ∧ b.clamped = b ∧ b.text = text ∧ b.after G = G' ∧
    ∀ p : Options, depth ≤ p.maxDepth → b.Legal p depth → depth + k ≤ p.maxDepth

/-- A text is a native pattern inside so many groups. -/
def CopiesRegexp (o : Options) (depth : Nat) (G : Groups) (text : List Char) (G' : Groups) (k : Nat := 0) : Prop :=
  ∃ r : Verbatim.Regexp, r.Legal o depth ∧ r.clamped = r ∧ r.text = text ∧ r.after G = G' ∧
    ∀ p : Options, depth ≤ p.maxDepth → r.Legal p depth → depth + k ≤ p.maxDepth

/-- A character without a meaning of its own is an atom. -/
theorem CopiesAtom.char {c : Char} (h : c ∉ Verbatim.metaChars) : CopiesAtom o depth G [c] G :=
  ⟨.leaf (.char c), h, fun _ => trivial, rfl, rfl, rfl, fun _ hp _ => hp⟩

/-- An anchor is an atom. -/
theorem CopiesAtom.anchor {c : Char} (h : c ∈ anchorChars) : CopiesAtom o depth G [c] G := by
  have hall : ∀ c ∈ anchorChars, c ∉ Verbatim.metaChars := List.all_iff_forall_prop.mp (by decide)
  exact .char (hall c h)

/-- An escape is an atom with what it has behind its letter. -/
theorem CopiesAtom.escape {letter : Char} {operand : List Char} (h : Operand letter operand) :
    CopiesAtom o depth G ('\\' :: letter :: operand) G :=
  ⟨.leaf (.escape (.lettered letter operand)), h, fun _ => trivial, rfl, rfl, rfl, fun _ hp _ => hp⟩

/-- Of the groups within one another some need not be told of. -/
theorem CopiesAtom.outermost (h : CopiesAtom o depth G a G₁ n) : CopiesAtom o depth G a G₁ := by
  obtain ⟨x, hx, hends, hxc, htext, hafter, _⟩ := h
  exact ⟨x, hx, hends, hxc, htext, hafter, fun _ hp _ => hp⟩

theorem CopiesBranch.nil (o : Options) (depth : Nat) (G : Groups) : CopiesBranch o depth G [] G :=
  ⟨.nil, trivial, rfl, rfl, rfl, fun _ hp _ => hp⟩

theorem CopiesBranch.cons {q : Option Quantifier} (ha : CopiesAtom o depth G a G₁ m) (hq : ∀ x ∈ q, x.Legal o.variant)
    (hb : CopiesBranch o depth G₁ b G₂ n) : CopiesBranch o depth G (a ++ quantifierText q ++ b) G₂ (max m n) := by
  obtain ⟨x, hx, hends, hxc, rfl, rfl, hxn⟩ := ha
  obtain ⟨y, hy, hyc, rfl, rfl, hyn⟩ := hb
  refine ⟨.cons x (q.map Quantifier.clamped) y, ⟨hx, Quantifier.legal_clamped hq, hends _, hy⟩, ?_, ?_, rfl, ?_⟩
  · rw [Verbatim.Branch.clamped, hxc, hyc, Quantifier.clamped_clamped]
  · rw [Verbatim.Branch.text, Quantifier.text_clamped, List.append_assoc]
  · intro p hp h
    have hx := hxn p hp h.1
    have hy := hyn p hp h.2.2.2
    omega

theorem CopiesAtom.append (ha : CopiesAtom o depth G a G₁ m) (hb : CopiesBranch o depth G₁ b G₂ n) :
    CopiesBranch o depth G (a ++ b) G₂ (max m n) := by
  have h := CopiesBranch.cons (q := none) ha nofun hb
  rwa [quantifierText, List.append_nil] at h

theorem CopiesAtom.branch (ha : CopiesAtom o depth G a G₁ n) : CopiesBranch o depth G a G₁ n := by
  have h := ha.append (.nil o depth G₁)
  rwa [List.append_nil, Nat.max_zero] at h

theorem CopiesRegexp.branch (h : CopiesBranch o depth G a G₁ n) : CopiesRegexp o depth G a G₁ n := by
  obtain ⟨y, hy, hyc, rfl, rfl, hyn⟩ := h
  exact ⟨.branch y, hy, congrArg Verbatim.Regexp.branch hyc, rfl, rfl, hyn⟩

theorem CopiesRegexp.bar (hb : CopiesBranch o depth G a G₁ m) (hr : CopiesRegexp o depth G₁ b G₂ n) :
    CopiesRegexp o depth G (a ++ '|' :: b) G₂ (max m n) := by
  obtain ⟨y, hy, hyc, rfl, rfl, hyn⟩ := hb
  obtain ⟨z, hz, hzc, rfl, rfl, hzn⟩ := hr
  refine ⟨.bar y z, ⟨hy, hz⟩, by rw [Verbatim.Regexp.clamped, hyc, hzc], rfl, rfl, ?_⟩
  intro p hp h
  have hy := hyn p hp h.1
  have hz := hzn p hp h.2
  omega

/-- Branches with bars between them are a pattern. -/
theorem copies_alternatives {texts : List (List Char)} (h : ∀ text ∈ texts, CopiesBranch o depth G text G)
    (hne : texts ≠ []) : CopiesRegexp o depth G (['|'].intercalate texts) G := by
  refine Native.intercalate_induction (P := fun text => CopiesRegexp o depth G text G) ?_ ?_ h hne
  · intro _ htext
    exact .branch htext
  · intro _ _ htext hbehind
    exact .bar htext hbehind

/-- A group that captures takes the next number. -/
theorem CopiesAtom.capturing (hd : depth < o.maxDepth) (h : CopiesRegexp o (depth + 1) G.open a G₁ n) :
    CopiesAtom o depth G (['('] ++ (a ++ [')'])) (G₁.close (G.opened + 1)) (n + 1) := by
  obtain ⟨z, hz, hzc, rfl, rfl, hzn⟩ := h
  refine ⟨.capturing z, ⟨hd, hz⟩, fun _ => trivial, congrArg Verbatim.Atom.capturing hzc, rfl, rfl, ?_⟩
  intro p _ h
  have hinside := hzn p h.1 h.2
  omega

/-- A group that does not capture, with or without the flag that makes its inside match in any case. -/
theorem CopiesAtom.group (flags : List Char) (hflags : Verbatim.IsFlags flags) (hd : depth < o.maxDepth)
    (h : CopiesRegexp o (depth + 1) G a G₁ n) :
    CopiesAtom o depth G ('(' :: '?' :: (flags ++ [':']) ++ (a ++ [')'])) G₁ (n + 1) := by
  obtain ⟨z, hz, hzc, rfl, rfl, hzn⟩ := h
  refine ⟨.group flags ':' z, ⟨hflags, by decide, hd, hz⟩, fun _ => trivial,
    congrArg (Verbatim.Atom.group flags ':') hzc, rfl, rfl, ?_⟩
  intro p _ h
  have hinside := hzn p h.2.2.1 h.2.2.2
  omega

/-- A reference is a pattern, and nothing can follow it there. -/
theorem CopiesRegexp.reference {number : Nat} (h : 0 < number) :
    CopiesRegexp o depth G ('\\' :: Numeral.decimal number) G := by
  refine ⟨.branch (.cons (.leaf (.escape (.numbered (Numeral.decimal number)))) none .nil), ?_, rfl, ?_, rfl,
    fun _ hp _ => hp⟩
  · exact ⟨⟨Native.isNumeral_decimal number, Numeral.head?_decimal h⟩, nofun, nofun, trivial⟩
  · exact List.append_nil _

/-! ## Numbers of units and characters -/

theorem not_mem_hex {c : Char} (h : ∀ k < 16, c ≠ k.digitChar.toUpper) (n : Nat) : c ∉ Numeral.hex n := by
  intro hc
  obtain ⟨k, hk, he⟩ := Numeral.mem_hex hc
  exact h k hk he

theorem operand_hex (n : Nat) : Operand 'x' ('\x7b' :: (Numeral.hex n ++ ['\x7d'])) :=
  .braced rfl (not_mem_hex (by decide) n)

theorem operand_hex4 {n : Nat} (h : n < 0x10000) : Operand 'u' (Numeral.hex4 n) := by
  obtain ⟨a, b, c, d, he, hread⟩ := Numeral.hex4_eq h
  rw [he]
  refine .fixed rfl ?_
  rintro ⟨⟩
  cases hread

theorem copies_unitHex {n : Nat} (h : n < 0x10000) : CopiesAtom o depth G (unitHex n) G :=
  .escape (operand_hex4 h)

/-! ## Literals -/

theorem copies_escaped {c : Char} (h : Scan.escapeWidth? c = none ∧ c.isDigit = false) :
    CopiesAtom o depth G ['\\', c] G :=
  .escape (.none h.1 fun hd => absurd (h.2.symm.trans hd) Bool.false_ne_true)

theorem copies_scalarLiteral (c : Char) : CopiesAtom o depth G (scalarLiteral c) G := by
  unfold scalarLiteral
  split
  · next hm =>
    have hall : ∀ c ∈ ['\\', '.', '+', '*', '?', '(', ')', '|', '[', ']', '\x7b', '\x7d', '^', '$', '#', '&', '-', '~'],
        Scan.escapeWidth? c = none ∧ c.isDigit = false := List.all_iff_forall_prop.mp (by decide)
    exact copies_escaped (hall c (by simpa [isScalarMeta] using hm))
  · next hm =>
    split
    · exact .escape (operand_hex c.toNat)
    · refine .char fun hc => hm (decide_eq_true ?_)
      have hsub : Verbatim.metaChars ⊆
          ['\\', '.', '+', '*', '?', '(', ')', '|', '[', ']', '\x7b', '\x7d', '^', '$', '#', '&', '-', '~'] := by decide
      exact hsub hc

theorem copies_utf16Literal (hd : depth < o.maxDepth) (c : Char) : CopiesAtom o depth G (utf16Literal c) G := by
  unfold utf16Literal
  split
  · have hpair : CopiesBranch o (depth + 1) G
        (unitHex (CodeUnit.highOf c.toNat).toNat ++ unitHex (CodeUnit.lowOf c.toNat).toNat) G :=
      (copies_unitHex (CodeUnit.highOf c.toNat).toNat_lt).append
        (copies_unitHex (CodeUnit.lowOf c.toNat).toNat_lt).branch
    rw [List.append_assoc, List.append_assoc, ← List.append_assoc (unitHex _)]
    exact (CopiesAtom.group [] Verbatim.isFlags_nil hd (.branch hpair)).outermost
  · next hb =>
    split
    · next hm =>
      have hall : ∀ c ∈ ['\\', '.', '*', '+', '?', '(', ')', '[', ']', '\x7b', '\x7d', '|', '^', '$', '/'],
          Scan.escapeWidth? c = none ∧ c.isDigit = false := List.all_iff_forall_prop.mp (by decide)
      exact copies_escaped (hall c (by simpa [isUtf16Meta] using hm))
    · next hm =>
      split
      · refine .char fun hc => hm (decide_eq_true ?_)
        have hsub : Verbatim.metaChars ⊆
            ['\\', '.', '*', '+', '?', '(', ')', '[', ']', '\x7b', '\x7d', '|', '^', '$', '/'] := by decide
        exact hsub hc
      · exact copies_unitHex (by simpa [isSupplementary] using hb)

/-- A literal of either dialect is copied. -/
theorem copies_literal {d : Dialect} (hd : d = .utf16 → depth < o.maxDepth) (c : Char) :
    CopiesAtom o depth G (d.literal c) G := by
  cases d with
  | scalar => exact copies_scalarLiteral c
  | utf16 => exact copies_utf16Literal (hd rfl) c

/-! ## Classes -/

/-- A text goes in front of whatever a class has left. -/
def FillsClass (text : List Char) : Prop := ∀ rest, ClassRest 0 rest → ClassRest 0 (text ++ rest)

theorem fillsClass_nil : FillsClass [] := fun _ => id

theorem FillsClass.append (ha : FillsClass a) (hb : FillsClass b) : FillsClass (a ++ b) := by
  intro rest h
  rw [List.append_assoc]
  exact ha _ (hb rest h)

theorem fillsClass_char {c : Char} (hc : c ∉ ['\\', '[', ']']) : FillsClass [c] := fun _ => .char hc

theorem fillsClass_escape {letter : Char} {operand : List Char} (h : Operand letter operand) :
    FillsClass ('\\' :: letter :: operand) :=
  fun _ hrest => .escape (e := .lettered letter operand) h trivial hrest

/-- A text lists members of a class: it may stand in brackets, behind a caret or not. -/
structure ListsMembers (text : List Char) : Prop where
  fills : FillsClass text
  starts : StartsMember text

theorem listsMembers_alphanumeric {n : Nat} (h : isAsciiAlphanumeric n = true) : ListsMembers [Char.ofNat n] := by
  refine ⟨fillsClass_char ?_, Native.startsMember_alphanumeric h []⟩
  have hall : ∀ c ∈ ['\\', '[', ']'], isAsciiAlphanumeric c.toNat = false := List.all_iff_forall_prop.mp (by decide)
  exact fun hc => Native.ofNat_ne_of_alphanumeric h (hall _ hc) rfl

theorem listsMembers_escape {letter : Char} {operand : List Char} (h : Operand letter operand) :
    ListsMembers ('\\' :: letter :: operand) :=
  ⟨fillsClass_escape h, '\\', _, rfl, by decide⟩

theorem listsMembers_scalarMember (n : Nat) : ListsMembers (scalarMember n) := by
  unfold scalarMember
  split
  · next h => exact listsMembers_alphanumeric h
  · exact listsMembers_escape (operand_hex n)

theorem listsMembers_unitMember {n : Nat} (h : n < 0x10000) : ListsMembers (unitMember n) := by
  unfold unitMember
  split
  · next ha => exact listsMembers_alphanumeric ha
  · exact listsMembers_escape (operand_hex4 h)

theorem ListsMembers.append (ha : ListsMembers a) (hb : FillsClass b) : ListsMembers (a ++ b) := by
  obtain ⟨c, rest, rfl, hc⟩ := ha.starts
  exact ⟨ha.fills.append hb, c, rest ++ b, rfl, hc⟩

theorem ListsMembers.range {member : Nat → List Char} {first last : Nat} (hfirst : ListsMembers (member first))
    (hlast : ListsMembers (member last)) : ListsMembers (bracketRange member first last) := by
  refine hfirst.append ?_
  split
  · exact (fillsClass_char (by decide)).append hlast.fills
  · exact fillsClass_nil

theorem ListsMembers.flatMap {β : Type} {f : β → List Char} {xs : List β} (h : ∀ x ∈ xs, ListsMembers (f x))
    (hne : xs ≠ []) : ListsMembers (xs.flatMap f) := by
  have hfills : ∀ ys ⊆ xs, FillsClass (ys.flatMap f) := by
    intro ys hys
    induction ys with
    | nil => exact fillsClass_nil
    | cons y ys ih =>
      obtain ⟨hy, hys⟩ := List.cons_subset.mp hys
      exact (h y hy).fills.append (ih hys)
  obtain ⟨x, xs, rfl⟩ := List.exists_cons_of_ne_nil hne
  exact (h x List.mem_cons_self).append (hfills xs (List.subset_cons_self x xs))

/-- Members in brackets are an atom. -/
theorem ListsMembers.copied {body : List Char} (h : ListsMembers body) (negated : Bool) :
    CopiesAtom o depth G ('[' :: (if negated then ['^'] else []) ++ body ++ [']']) G := by
  have hrest := h.fills [] .nil
  rw [List.append_nil] at hrest
  obtain ⟨c, rest, rfl, hc⟩ := h.starts
  refine ⟨.leaf (.charClass negated (c :: rest)), ⟨.rest (List.cons_ne_nil _ _) hrest, ?_⟩, fun _ => trivial, rfl,
    (List.append_assoc _ _ _).symm, rfl, fun _ hp _ => hp⟩
  rintro _ ⟨⟩
  exact hc (by decide)

theorem copies_ranges {ranges : List Range} (hne : ranges ≠ []) (negated : Bool) :
    CopiesAtom o depth G ('[' :: (if negated then ['^'] else []) ++ scalarRanges ranges ++ [']']) G :=
  (ListsMembers.flatMap (fun _ _ => (listsMembers_scalarMember _).range (listsMembers_scalarMember _)) hne).copied
    negated

theorem copies_scalarClass (expand : Bool) (s : CharSet) : CopiesAtom o depth G (scalarClass expand s) G := by
  rw [← ScalarClass.text_bracketClass]
  exact copies_ranges (ScalarClass.ranges_bracketClass_ne_nil expand s) _

theorem listsMembers_unitRange (first last : CodeUnit) : ListsMembers (unitRange first last) :=
  (listsMembers_unitMember first.toNat_lt).range (listsMembers_unitMember last.toNat_lt)

theorem copies_unitRange (negated : Bool) (first last : CodeUnit) :
    CopiesAtom o depth G ('[' :: (if negated then ['^'] else []) ++ unitRange first last ++ [']']) G :=
  (listsMembers_unitRange first last).copied negated

theorem copies_basic {basic : List Range} (h : ∀ r ∈ basic, r.min ≤ r.max ∧ r.max < 0x10000) (hne : basic ≠ []) :
    CopiesAtom o depth G (['['] ++ basic.flatMap (fun r => bracketRange unitMember r.min r.max) ++ [']']) G :=
  have hrange : ∀ r ∈ basic, ListsMembers (bracketRange unitMember r.min r.max) := fun r hr =>
    (listsMembers_unitMember (Nat.lt_of_le_of_lt (h r hr).1 (h r hr).2)).range (listsMembers_unitMember (h r hr).2)
  (ListsMembers.flatMap hrange hne).copied false

theorem copies_lowRun (run : LowRun) : CopiesBranch o depth G (lowRunText run) G := by
  refine (copies_unitHex run.high.toNat_lt).append (CopiesAtom.branch ?_)
  split
  · exact copies_unitHex run.min.toNat_lt
  · exact copies_unitRange false run.min run.max

theorem copies_unitAlternatives {basic supplementary : List Range}
    (h : ∀ r ∈ basic, r.min ≤ r.max ∧ r.max < 0x10000) :
    ∀ text ∈ unitAlternatives basic supplementary, CopiesBranch o depth G text G := by
  apply forall_unitAlternatives
  · intro hne
    exact (copies_basic h hne).branch
  · intro hne
    have hhighs : ListsMembers ((highRuns supplementary).flatMap fun run => unitRange run.min run.max) :=
      .flatMap (fun run _ => listsMembers_unitRange run.min run.max) hne
    exact (hhighs.copied false).append (copies_unitRange false 0xDC00 0xDFFF).branch
  · intro run _
    exact copies_lowRun run

theorem copies_unitClass (hd : depth < o.maxDepth) (s : CharSet) : CopiesAtom o depth G (unitClass s) G := by
  have hbasic : ∀ r ∈ (splitAtBasic s.ranges).1, r.min ≤ r.max ∧ r.max < 0x10000 :=
    fun r hr => UnitClass.isBasic_of_mem hr
  unfold unitClass
  rcases hsplit : splitAtBasic s.ranges with ⟨basic, supplementary⟩
  rw [hsplit] at hbasic
  dsimp only at hbasic ⊢
  cases supplementary with
  | nil =>
    cases basic with
    | nil => exact copies_unitRange true 0 0xFFFF
    | cons r basic => exact copies_basic hbasic (List.cons_ne_nil _ _)
  | cons r supplementary =>
    have hall : ∀ text ∈ unitAlternatives basic (r :: supplementary), CopiesBranch o (depth + 1) G text G :=
      copies_unitAlternatives hbasic
    split
    · exact copies_unitRange true 0 0xFFFF
    · next he => cases he
    · next hne _ =>
      rw [List.append_assoc]
      exact (CopiesAtom.group [] Verbatim.isFlags_nil hd (copies_alternatives hall hne)).outermost

/-- A class of either dialect is copied. -/
theorem copies_charClass {d : Dialect} (hd : d = .utf16 → depth < o.maxDepth) (expand : Bool) (s : CharSet) :
    CopiesAtom o depth G (d.charClass expand s) G := by
  cases d with
  | scalar => exact copies_scalarClass expand s
  | utf16 => exact copies_unitClass (hd rfl) s

theorem copies_leaf {d : Dialect} (hd : d = .utf16 → depth < o.maxDepth) (p : Options) (l : Leaf) :
    CopiesAtom o depth G ((l.fragment p).text d) G := by
  rcases l.fragment_cases p with ⟨c, hc⟩ | ⟨s, hs⟩
  · rw [hc]
    exact copies_literal hd c
  · rw [hs]
    exact copies_charClass hd _ s

/-! ## Patterns -/

/-- A back-reference is copied in its group. -/
theorem copies_reference (hd : depth < o.maxDepth) (d : Dialect) {number : Nat} (h : 0 < number) (caseBlind : Bool) :
    CopiesAtom o depth G ((Fragment.reference number caseBlind).text d) G 1 := by
  rw [Fragment.text]
  split
  · exact .group ['i'] (List.forall_mem_singleton.mpr (by decide)) hd (.reference h)
  · exact .group [] Verbatim.isFlags_nil hd (.reference h)

/-- The options with one more level of groups. -/
def Options.deeper (o : Options) : Options := { o with maxDepth := o.maxDepth + 1 }

mutual

/--
How many groups are within one another in what is written for an atom: its own, and those around back-references. Over
units there may be one around an atom of one character.
-/
def Grammar.Atom.nesting (d : Dialect) : Atom → Nat
  | .leaf _ => if d = .utf16 then 1 else 0
  | .anchor _ => 0
  | .reference _ => 1
  | .group _ r => r.nesting d + 1

/-- How many groups are within one another in what is written for a branch. -/
def Grammar.Branch.nesting (d : Dialect) : Branch → Nat
  | .nil => 0
  | .cons a _ b => max (a.nesting d) (b.nesting d)

/-- How many groups are within one another in what is written for a pattern. -/
def Grammar.Regexp.nesting (d : Dialect) : Regexp → Nat
  | .branch b => b.nesting d
  | .bar b r => max (b.nesting d) (r.nesting d)

end

mutual

theorem Grammar.Atom.nesting_le (d : Dialect) : (a : Atom) → {depth : Nat} → {G : Groups} → depth ≤ o.maxDepth →
    a.Legal o depth G → depth + a.nesting d ≤ o.maxDepth + 1
  | .leaf _, _, _, hd, _ => by
    rw [Atom.nesting]
    split <;> omega
  | .anchor _, _, _, hd, _ => Nat.le_succ_of_le hd
  | .reference _, _, _, hd, _ => Nat.succ_le_succ hd
  | .group true r, _, _, _, h => by
    have hinside := r.nesting_le d h.1 h.2
    rw [Atom.nesting]
    omega
  | .group false r, _, _, _, h => by
    have hinside := r.nesting_le d h.1 h.2.2
    rw [Atom.nesting]
    omega

theorem Grammar.Branch.nesting_le (d : Dialect) : (b : Branch) → {depth : Nat} → {G : Groups} → depth ≤ o.maxDepth →
    b.Legal o depth G → depth + b.nesting d ≤ o.maxDepth + 1
  | .nil, _, _, hd, _ => Nat.le_succ_of_le hd
  | .cons a _ b, _, _, hd, h => by
    have ha := a.nesting_le d hd h.1
    have hb := b.nesting_le d hd h.2.2.2
    rw [Branch.nesting]
    omega

/-- What is written for a legal pattern nests at most one level deeper than the pattern may. -/
theorem Grammar.Regexp.nesting_le (d : Dialect) : (r : Regexp) → {depth : Nat} → {G : Groups} → depth ≤ o.maxDepth →
    r.Legal o depth G → depth + r.nesting d ≤ o.maxDepth + 1
  | .branch b, _, _, hd, h => b.nesting_le d hd h
  | .bar b r, _, _, hd, h => by
    have hb := b.nesting_le d hd h.1
    have hr := r.nesting_le d hd h.2
    rw [Regexp.nesting]
    omega

end

mutual

theorem Grammar.Atom.copied_of_nesting_le (o : Options) (d : Dialect) (limit : Nat) : (a : Atom) → {depth : Nat} →
    {G : Groups} → a.Legal o depth G → depth + a.nesting d ≤ limit → G.Valid →
    CopiesAtom (o.withMaxDepth limit) depth G (a.text d o G) (a.after G) (a.nesting .scalar)
  | .leaf l, depth, G, _, hroom, _ => by
    have hunits : d = .utf16 → depth < limit := by
      rintro rfl
      exact hroom
    rw [Atom.text_leaf]
    exact copies_leaf hunits o l
  | .anchor c, _, G, h, _, _ => CopiesAtom.anchor h.2
  | .reference digits, _, G, h, hroom, hG => by
    rw [Atom.text_reference]
    exact copies_reference hroom d (hG _ h.2.2.2).1 o.caseBlind
  | .group true r, depth, G, h, hroom, hG => by
    rw [Atom.nesting] at hroom
    have hopen : G.open.Valid := fun n hn => ⟨(hG n hn).1, Nat.le_succ_of_le (hG n hn).2⟩
    rw [Atom.text_capturing]
    have hdepth : depth < limit := by omega
    exact .capturing hdepth (r.copied_of_nesting_le o d limit h.2 (by omega) hopen)
  | .group false r, depth, G, h, hroom, hG => by
    rw [Atom.nesting] at hroom
    rw [Atom.text_plain]
    have hdepth : depth < limit := by omega
    exact .group [] Verbatim.isFlags_nil hdepth (r.copied_of_nesting_le o d limit h.2.2 (by omega) hG)

theorem Grammar.Branch.copied_of_nesting_le (o : Options) (d : Dialect) (limit : Nat) : (b : Branch) → {depth : Nat} →
    {G : Groups} → b.Legal o depth G → depth + b.nesting d ≤ limit → G.Valid →
    CopiesBranch (o.withMaxDepth limit) depth G (b.text d o G) (b.after G) (b.nesting .scalar)
  | .nil, depth, G, _, _, _ => .nil _ depth G
  | .cons a q b, _, G, h, hroom, hG => by
    rw [Branch.nesting] at hroom
    rw [Branch.text_cons]
    exact .cons (a.copied_of_nesting_le o d limit h.1 (by omega) hG) h.2.1
      (b.copied_of_nesting_le o d limit h.2.2.2 (by omega) ((a.grows_after G).2 hG))

/-- What is written for a legal pattern is copied under a limit that leaves room for it. -/
theorem Grammar.Regexp.copied_of_nesting_le (o : Options) (d : Dialect) (limit : Nat) : (r : Regexp) → {depth : Nat} →
    {G : Groups} → r.Legal o depth G → depth + r.nesting d ≤ limit → G.Valid →
    CopiesRegexp (o.withMaxDepth limit) depth G (r.text d o G) (r.after G) (r.nesting .scalar)
  | .branch b, _, G, h, hroom, hG => .branch (b.copied_of_nesting_le o d limit h hroom hG)
  | .bar b r, _, G, h, hroom, hG => by
    rw [Regexp.nesting] at hroom
    rw [Regexp.text_bar]
    exact .bar (b.copied_of_nesting_le o d limit h.1 (by omega) hG)
      (r.copied_of_nesting_le o d limit h.2 (by omega) ((b.grows_after G).2 hG))

end

/-- What is written for a legal pattern is copied with one more level of groups. -/
theorem Grammar.Regexp.copied (o : Options) (d : Dialect) (r : Regexp) {depth : Nat} {G : Groups}
    (hd : depth ≤ o.maxDepth) (h : r.Legal o depth G) (hG : G.Valid) :
    CopiesRegexp o.deeper depth G (r.text d o G) (r.after G) (r.nesting .scalar) :=
  r.copied_of_nesting_le o d (o.maxDepth + 1) h (r.nesting_le d hd h) hG

end XmlPattern
