import XmlPattern.Proofs.Grammar.Captures
import XmlPattern.Proofs.Native.Atoms
import XmlPattern.Proofs.Text.Numeral

/-!
# Where blanks cannot come from

A conversion writes no blanks of its own: what it cannot write as itself it writes by its number. A space is written
only for a space of the expression that is an atom, which there is none where blanks do not count.

- `blankless_literal`, `blankless_charClass`, `blankless_reference`: the texts of fragments have no blanks.
- `Regexp.blankless`: nor has the text of a syntax tree that an expression spells without regard to blanks.
-/

namespace XmlPattern

open Grammar

/-- The blanks. -/
def blanks : List Char := [' ', '\t', '\n', '\r']

/-- A text has no blanks. -/
def Blankless (text : List Char) : Prop := ∀ c ∈ text, c ∉ blanks

instance (text : List Char) : Decidable (Blankless text) := List.decidableBAll (· ∉ blanks) text

theorem CodeUnit.toBasic_of_isBlank {u : CodeUnit} (h : u.isBlank = true) :
    u.toBasic ∈ blanks ∧ u.isSurrogate = false := by
  simp only [CodeUnit.isBlank, Bool.or_eq_true, beq_iff_eq, or_assoc] at h
  rcases h with rfl | rfl | rfl | rfl <;> decide

/-- The units of a text without blanks are no blanks. -/
theorem Blankless.units {text : List Char} (h : Blankless text) : ∀ u ∈ CodeUnit.encode text, u.isBlank = false := by
  intro u hu
  obtain ⟨c, hc, hu⟩ := List.mem_flatMap.mp hu
  rw [← Bool.not_eq_true]
  intro hb
  obtain ⟨hmem, hs⟩ := CodeUnit.toBasic_of_isBlank hb
  rcases CodeUnit.ofChar_cases c with ⟨v, hv, _, he⟩ | ⟨v, w, hv, hhigh, hlow, _⟩
  · rw [hv, List.mem_singleton] at hu
    rw [hu, he] at hmem
    exact h c hc hmem
  · rw [hv, List.mem_cons, List.mem_singleton] at hu
    rw [CodeUnit.isSurrogate_eq] at hs
    rcases hu with rfl | rfl
    · rw [hhigh] at hs
      cases hs
    · rw [hlow, Bool.or_true] at hs
      cases hs

section

variable {a b : List Char}

theorem Blankless.append (ha : Blankless a) (hb : Blankless b) : Blankless (a ++ b) := by
  intro c hc
  rcases List.mem_append.mp hc with hc | hc
  · exact ha c hc
  · exact hb c hc

theorem Blankless.cons {c : Char} (hc : c ∉ blanks) (ha : Blankless a) : Blankless (c :: a) :=
  List.forall_mem_cons.mpr ⟨hc, ha⟩

theorem blankless_flatMap {β : Type} {f : β → List Char} {xs : List β} (h : ∀ x ∈ xs, Blankless (f x)) :
    Blankless (xs.flatMap f) := by
  intro c hc
  obtain ⟨x, hx, hc⟩ := List.mem_flatMap.mp hc
  exact h x hx c hc

theorem blankless_alternatives {texts : List (List Char)} (h : ∀ text ∈ texts, Blankless text) :
    Blankless (['|'].intercalate texts) := by
  by_cases hne : texts = []
  · rw [hne]
    exact nofun
  · exact Native.intercalate_induction (fun _ ha => ha) (fun _ _ ha hb => ha.append (.cons (by decide) hb)) h hne

end

/-! ## Fragments -/

theorem blankless_numeral {digits : List Char} (h : IsNumeral digits) : Blankless digits := by
  have hall : ∀ c ∈ blanks, c.isDigit = false := List.all_iff_forall_prop.mp (by decide)
  intro c hc hb
  exact absurd (h.2 c hc) (Bool.eq_false_iff.mp (hall c hb))

theorem blankless_hex (n : Nat) : Blankless (Numeral.hex n) := by
  have hall : ∀ k < 16, k.digitChar.toUpper ∉ blanks := by decide
  intro c hc
  obtain ⟨k, hk, rfl⟩ := Numeral.mem_hex hc
  exact hall k hk

theorem blankless_scalarHex (n : Nat) : Blankless (scalarHex n) := by
  have hfront : Blankless ['\\', 'x', '\x7b'] := by decide
  exact (hfront.append (blankless_hex n)).append (by decide)

theorem blankless_unitHex (n : Nat) : Blankless (unitHex n) := by
  have hfront : Blankless ['\\', 'u'] := by decide
  have hzeros : Blankless (List.replicate (4 - (Numeral.hex n).length) '0') := by
    intro c hc
    rw [List.eq_of_mem_replicate hc]
    decide
  exact hfront.append (hzeros.append (blankless_hex n))

theorem blankless_scalarLiteral {c : Char} (h : c ≠ ' ') : Blankless (scalarLiteral c) := by
  have hmeta : ∀ c ∈ blanks, isScalarMeta c = false := List.all_iff_forall_prop.mp (by decide)
  have hcontrol : ∀ c ∈ blanks, c = ' ' ∨ isControl c = true := List.all_iff_forall_prop.mp (by decide)
  unfold scalarLiteral
  split
  · next hm => exact .cons (by decide) (.cons (fun hb => Bool.eq_false_iff.mp (hmeta c hb) hm) nofun)
  · split
    · exact blankless_scalarHex _
    · next hn => exact .cons (fun hb => hn ((hcontrol c hb).resolve_left h)) nofun

theorem blankless_utf16Literal {c : Char} (h : c ≠ ' ') : Blankless (utf16Literal c) := by
  have hmeta : ∀ c ∈ blanks, isUtf16Meta c = false := List.all_iff_forall_prop.mp (by decide)
  have hplain : ∀ c ∈ blanks, c = ' ' ∨ isPlainAscii c = false := List.all_iff_forall_prop.mp (by decide)
  have hopen : Blankless ['(', '?', ':'] := by decide
  unfold utf16Literal
  split
  · exact ((hopen.append (blankless_unitHex _)).append (blankless_unitHex _)).append (by decide)
  · split
    · next hm => exact .cons (by decide) (.cons (fun hb => Bool.eq_false_iff.mp (hmeta c hb) hm) nofun)
    · split
      · next hp => exact .cons (fun hb => Bool.eq_false_iff.mp ((hplain c hb).resolve_left h) hp) nofun
      · exact blankless_unitHex _

/-- A literal has no blanks, unless it is that of the space. -/
theorem blankless_literal (d : Dialect) {c : Char} (h : c ≠ ' ') : Blankless (d.literal c) := by
  cases d with
  | scalar => exact blankless_scalarLiteral h
  | utf16 => exact blankless_utf16Literal h

theorem blankless_alphanumeric {n : Nat} (h : isAsciiAlphanumeric n = true) : Blankless [Char.ofNat n] := by
  have hall : ∀ c ∈ blanks, isAsciiAlphanumeric c.toNat = false := List.all_iff_forall_prop.mp (by decide)
  exact .cons (fun hb => Native.ofNat_ne_of_alphanumeric h (hall _ hb) rfl) nofun

theorem blankless_scalarMember (n : Nat) : Blankless (scalarMember n) := by
  unfold scalarMember
  split
  · next h => exact blankless_alphanumeric h
  · exact blankless_scalarHex n

theorem blankless_unitMember (n : Nat) : Blankless (unitMember n) := by
  unfold unitMember
  split
  · next h => exact blankless_alphanumeric h
  · exact blankless_unitHex n

theorem blankless_bracketRange {member : Nat → List Char} (h : ∀ n, Blankless (member n)) (first last : Nat) :
    Blankless (bracketRange member first last) := by
  refine (h first).append ?_
  split
  · exact .cons (by decide) (h last)
  · exact nofun

theorem Blankless.brackets {body : List Char} (h : Blankless body) : Blankless (['['] ++ body ++ [']']) :=
  .cons (by decide) (h.append (by decide))

theorem blankless_scalarRanges (ranges : List Range) : Blankless (scalarRanges ranges) :=
  blankless_flatMap fun _ _ => blankless_bracketRange blankless_scalarMember _ _

theorem blankless_scalarClass (expand : Bool) (s : CharSet) : Blankless (scalarClass expand s) := by
  unfold scalarClass
  split
  · decide
  · dsimp only
    split
    · exact .cons (by decide) (.cons (by decide) ((blankless_scalarRanges _).append (by decide)))
    · exact (blankless_scalarRanges _).brackets

theorem blankless_unitRange (first last : CodeUnit) : Blankless (unitRange first last) :=
  blankless_bracketRange blankless_unitMember _ _

theorem blankless_lowRun (run : LowRun) : Blankless (lowRunText run) := by
  refine (blankless_unitHex _).append ?_
  split
  · exact blankless_unitHex _
  · exact (blankless_unitRange _ _).brackets

theorem blankless_unitAlternatives (basic supplementary : List Range) :
    ∀ text ∈ unitAlternatives basic supplementary, Blankless text := by
  apply forall_unitAlternatives
  · intro _
    exact (blankless_flatMap fun _ _ => blankless_bracketRange blankless_unitMember _ _).brackets
  · intro _
    exact (blankless_flatMap fun _ _ => blankless_unitRange _ _).brackets.append (by decide)
  · intro run _
    exact blankless_lowRun run

theorem blankless_unitClass (s : CharSet) : Blankless (unitClass s) := by
  have hopen : Blankless ['(', '?', ':'] := by decide
  have hclose : Blankless [')'] := by decide
  unfold unitClass
  rcases splitAtBasic s.ranges with ⟨basic, supplementary⟩
  dsimp only
  split
  · decide
  · next he => exact blankless_unitAlternatives basic [] _ (by rw [he]; exact List.mem_singleton_self _)
  · exact (hopen.append (blankless_alternatives (blankless_unitAlternatives _ _))).append hclose

/-- A class has no blanks: it lists them by their numbers. -/
theorem blankless_charClass (d : Dialect) (expand : Bool) (s : CharSet) : Blankless (d.charClass expand s) := by
  cases d with
  | scalar => exact blankless_scalarClass expand s
  | utf16 => exact blankless_unitClass s

theorem blankless_reference (d : Dialect) (number : Nat) (caseBlind : Bool) :
    Blankless ((Fragment.reference number caseBlind).text d) := by
  have hdigits : Blankless (Numeral.decimal number) := blankless_numeral (Native.isNumeral_decimal number)
  have hcaseless : Blankless ['(', '?', 'i', ':', '\\'] := by decide
  have hplain : Blankless ['(', '?', ':', '\\'] := by decide
  rw [Fragment.text]
  split
  · exact (hcaseless.append hdigits).append (by decide)
  · exact (hplain.append hdigits).append (by decide)

/-! ## What an expression spells -/

namespace Grammar

section

variable {b : Bool} {u : CodeUnit} {ms ns : List Mark} {p q : Place} {us : List CodeUnit}

/-- What an expression spells without regard to blanks does not begin with a blank. -/
theorem isBlank_of_spells (h : Spells true false ((u, b) :: ms) us) : u.isBlank = false := by
  induction us with
  | nil => cases h
  | cons v us ih =>
    cases h with
    | blank _ _ h => exact ih h
    | unit hu _ => exact hu rfl rfl

/-- An expression that spells marks in a row spells each part, in the mode that the marks in front of it lead to. -/
theorem spells_of_append (hp : Leads p ms q) (h : Spells true (decide (0 < p.depth)) (ms ++ ns) us) :
    (∃ vs, Spells true (decide (0 < p.depth)) ms vs) ∧ ∃ vs, Spells true (decide (0 < q.depth)) ns vs := by
  generalize hmode : decide (0 < p.depth) = mode at h ⊢
  generalize hall : ms ++ ns = ls at h
  induction h generalizing p ms with
  | nil =>
    obtain ⟨rfl, rfl⟩ := List.append_eq_nil_iff.mp hall
    exact ⟨⟨[], .nil⟩, [], .nil⟩
  | blank _ _ _ ih => exact ih hp hmode hall
  | @unit mode mode' u ls us hu h ih =>
    cases ms with
    | nil =>
      obtain rfl := hp
      obtain rfl : ns = _ := hall
      rw [hmode]
      exact ⟨⟨[], .nil⟩, u :: us, .unit hu h⟩
    | cons m ms =>
      cases hall
      obtain ⟨⟨vs, hvs⟩, hns⟩ := ih hp.2 hp.1.symm rfl
      exact ⟨⟨u :: vs, .unit hu hvs⟩, hns⟩

end

theorem Single.char_ne_space {v : Variant} {x : Single} (h : x.LegalAtom v) {us : List CodeUnit}
    (hs : Spells true false (outside x.units) us) : x.char ≠ ' ' := by
  cases x with
  | plain c =>
    rintro rfl
    cases isBlank_of_spells hs
  | escaped letter =>
    have hall : ∀ c ∈ escapable v, escapedChar c ≠ ' ' := by cases v <;> exact List.all_iff_forall_prop.mp (by decide)
    exact hall letter h

theorem Leaf.blankless {o : Options} (d : Dialect) {l : Leaf} (h : l.Legal o.variant) {us : List CodeUnit}
    (hs : Spells true false l.marks us) : Blankless ((l.fragment o).text d) := by
  cases l with
  | dot | set _ | charClass _ => exact blankless_charClass d _ _
  | single x =>
    have hx := Single.char_ne_space h hs
    unfold fragment member Scan.memberFragment Scan.foldedFragment
    dsimp only
    split
    · split
      · exact blankless_literal d hx
      · exact blankless_charClass d _ _
    · exact blankless_literal d hx

theorem Quantity.blankless {q : Quantity} (h : q.Legal) : Blankless q.written := by
  have hbound : ∀ {digits : List Char}, IsNumeral digits → Blankless (boundText digits) :=
    fun h => blankless_numeral (Native.isNumeral_boundText h)
  have hopen : ∀ {digits : List Char}, IsNumeral digits → Blankless ('\x7b' :: boundText digits) :=
    fun h => .cons (by decide) (hbound h)
  have hclose : Blankless ['\x7d'] := by decide
  have hlast : Blankless [',', '\x7d'] := by decide
  cases q with
  | star | plus | option => decide
  | exactly digits => exact (hopen h).append hclose
  | atLeast digits => exact (hopen h).append hlast
  | between lower upper => exact ((hopen h.1).append (.cons (by decide) (hbound h.2.1))).append hclose

theorem blankless_quantifier {v : Variant} {q : Option Quantifier} (h : ∀ x ∈ q, x.Legal v) :
    Blankless (quantifierText q) := by
  cases q with
  | none => exact nofun
  | some q =>
    refine (Quantity.blankless (h q rfl).1).append ?_
    split <;> decide

mutual

theorem Atom.blankless (o : Options) (d : Dialect) : (a : Atom) → {depth : Nat} → {G : Groups} → a.Legal o depth G →
    {us : List CodeUnit} → Spells true false a.marks us → Blankless (a.text d o G)
  | .leaf l, _, G, h, _, hs => by
    rw [Atom.text_leaf]
    exact l.blankless d h hs
  | .anchor c, _, G, h, _, _ => by
    have hall : ∀ c ∈ anchorChars, Blankless [c] := List.all_iff_forall_prop.mp (by decide)
    exact hall c h.2
  | .reference digits, _, G, h, _, _ => by
    rw [Atom.text_reference]
    exact blankless_reference d _ _
  | .group true r, _, G, h, _, hs => by
    obtain ⟨⟨_, hfront⟩, _⟩ := spells_of_append ((leads_text ['('] (by decide)).append (r.leads h.2)) hs
    obtain ⟨_, _, hr⟩ := spells_of_append (leads_text ['('] (by decide)) hfront
    rw [Atom.text_capturing]
    exact .cons (by decide) ((r.blankless o d h.2 hr).append (by decide))
  | .group false r, _, G, h, _, hs => by
    have hopen : Blankless ['(', '?', ':'] := by decide
    obtain ⟨⟨_, hfront⟩, _⟩ := spells_of_append ((leads_text ['(', '?', ':'] (by decide)).append (r.leads h.2.2)) hs
    obtain ⟨_, _, hr⟩ := spells_of_append (leads_text ['(', '?', ':'] (by decide)) hfront
    rw [Atom.text_plain]
    exact (hopen.append (r.blankless o d h.2.2 hr)).append (by decide)

theorem Branch.blankless (o : Options) (d : Dialect) : (b : Branch) → {depth : Nat} → {G : Groups} → b.Legal o depth G →
    {us : List CodeUnit} → Spells true false b.marks us → Blankless (b.text d o G)
  | .nil, _, _, _, _, _ => nofun
  | .cons a q b, _, G, h, _, hs => by
    obtain ⟨ha, hq, _, hb⟩ := h
    obtain ⟨⟨_, hfront⟩, _, hrest⟩ := spells_of_append ((Atom.leads ha).append (passes_quantifier hq).leads) hs
    obtain ⟨⟨_, hatom⟩, _⟩ := spells_of_append (Atom.leads ha) hfront
    rw [Branch.text_cons]
    exact ((a.blankless o d ha hatom).append (blankless_quantifier hq)).append (b.blankless o d hb hrest)

/-- What is written for a pattern that an expression spells without regard to blanks has no blanks. -/
theorem Regexp.blankless (o : Options) (d : Dialect) : (r : Regexp) → {depth : Nat} → {G : Groups} → r.Legal o depth G →
    {us : List CodeUnit} → Spells true false r.marks us → Blankless (r.text d o G)
  | .branch b, _, _, h, _, hs => b.blankless o d h hs
  | .bar b r, _, G, h, _, hs => by
    obtain ⟨⟨_, hfront⟩, _, hrest⟩ := spells_of_append ((b.leads h.1).append (leads_text ['|'] (by decide))) hs
    obtain ⟨⟨_, hbranch⟩, _⟩ := spells_of_append (b.leads h.1) hfront
    rw [Regexp.text_bar]
    exact (b.blankless o d h.1 hbranch).append (.cons (by decide) (r.blankless o d h.2 hrest))

end

end Grammar

end XmlPattern
