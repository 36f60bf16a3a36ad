import XmlPattern.Proofs.Grammar.Openings
import XmlPattern.Proofs.Scan.Verbatim
import XmlPattern.Proofs.Structure

/-!
# How many groups capture

The count that comes with a conversion is the number of groups that have been opened. Of a native pattern a conversion
opens only the groups without a question mark: a group with a name captures too, but is copied like one that does not,
and is missing from the count. A pattern without names is counted as it should be.

- `Regexp.opens`: a pattern opens its groups without a name.
- `convert_native_captureCount`: the groups with a name are those that a conversion does not count.
-/

namespace XmlPattern

open CodeUnit Grammar Verbatim

namespace Verbatim

/-! ## Groups without a name -/

/--
Between a text and its rest, groups without a name are opened as they are between two states of the groups, if all of
the text is read in one way.
-/
def Opens (G G' : Groups) (text rest : List Char) : Prop :=
  .extended ∉ openings {} text →
    .extended ∉ openings {} rest ∧
      (openings {} text).count .numbered + G.opened = (openings {} rest).count .numbered + G'.opened

section

variable {G G' G'' : Groups} {text text' rest : List Char}

theorem Opens.of_eq (h : openings {} text = openings {} rest) : Opens G G text rest := by
  intro hext
  rw [h] at hext ⊢
  exact ⟨hext, rfl⟩

theorem Opens.trans (h : Opens G G' text text') (h' : Opens G' G'' text' rest) : Opens G G'' text rest := by
  intro hext
  obtain ⟨hext', hcount⟩ := h hext
  obtain ⟨hrest, hcount'⟩ := h' hext'
  exact ⟨hrest, by omega⟩

/-- A parenthesis without a question mark opens a group. -/
theorem opens_numbered (htext : text.head? ≠ some '?') : Opens G G.open ('(' :: text) text := by
  intro hext
  have hopen := openings_numbered htext hext
  rw [hopen] at hext ⊢
  refine ⟨fun h => hext (List.mem_cons_of_mem _ h), ?_⟩
  rw [List.count_cons_self]
  show _ + 1 + G.opened = _ + (G.opened + 1)
  omega

/-- A parenthesis with a question mark opens none, and up to its sign none is opened. -/
theorem opens_head {flags : List Char} {sign : Char} (hflags : IsFlags flags) (hsign : sign ∈ ')' :: insideSigns) :
    Opens G G ('(' :: '?' :: (flags ++ sign :: rest)) rest := by
  intro hext
  obtain ⟨o, hne, hhead⟩ := openings_head hflags hsign hext
  rw [hhead] at hext ⊢
  refine ⟨fun h => hext (List.mem_cons_of_mem _ h), ?_⟩
  rw [List.count_cons_of_ne hne]

end

/-! ## Trees -/

/-- No quantifier opens a group. -/
theorem openings_quantifier {v : Variant} {q : Option Quantifier} (h : ∀ x ∈ q, x.Legal v) (rest : List Char) :
    openings {} (q.elim [] Quantifier.text ++ rest) = openings {} rest := by
  have hmark : ∀ c ∈ quantifierChars, c ∉ ['(', '[', '\\'] := List.all_iff_forall_prop.mp (by decide)
  apply openings_chars
  intro c hc
  rcases mem_quantifierText h hc with hc | hd
  · exact hmark c hc
  · have hsigns := Grammar.Place.not_mem_signs_of_isDigit hd
    simp only [Grammar.Place.signs, List.mem_cons, List.not_mem_nil, or_false, not_or] at hsigns
    simp [hsigns]

theorem Leaf.opens {l : Leaf} (h : l.Legal) (G : Groups) (rest : List Char) : Opens G G (l.text ++ rest) rest := by
  cases l with
  | char c =>
    apply Opens.of_eq
    apply openings_char
    exact fun hc => h (List.mem_of_mem_take (i := 3) hc)
  | escape e => exact .of_eq (openings_escape h)
  | charClass negated body => exact .of_eq (openings_charClass h)
  | flags fs =>
    have hhead : Opens G G ('(' :: '?' :: (fs ++ ')' :: rest)) rest := opens_head h List.mem_cons_self
    simpa [Leaf.text] using hhead

mutual

theorem Atom.opens {o : Options} : (a : Atom) → {depth : Nat} → a.Legal o depth → (G : Groups) → (rest : List Char) →
    Opens G (a.after G) (a.text ++ rest) rest
  | .leaf _, _, h, G, rest => Leaf.opens h G rest
  | .capturing r, _, h, G, rest => by
    have hinside : (r.text ++ ')' :: rest).head? ≠ some '?' := by
      intro hhead
      cases htext : r.text with
      | nil =>
        rw [htext] at hhead
        cases hhead
      | cons c text =>
        rw [htext] at hhead
        refine Regexp.endsPiece h.2 c (by rw [htext]; rfl) ?_
        rw [Option.some.inj hhead]
        decide
    have hclose : Opens (r.after G.open) ((r.after G.open).close (G.opened + 1)) (')' :: rest) rest :=
      fun hext => ⟨hext, rfl⟩
    have hall := ((opens_numbered hinside).trans (r.opens h.2 G.open (')' :: rest))).trans hclose
    simpa [Atom.text, Atom.after] using hall
  | .group flags sign r, _, h, G, rest => by
    have hclose : Opens (r.after G) (r.after G) (')' :: rest) rest := .of_eq rfl
    have hall := ((opens_head h.1 (List.mem_cons_of_mem _ h.2.1)).trans (r.opens h.2.2.2 G (')' :: rest))).trans hclose
    simpa [Atom.text, Atom.after] using hall

theorem Branch.opens {o : Options} : (b : Branch) → {depth : Nat} → b.Legal o depth → (G : Groups) →
    (rest : List Char) → Opens G (b.after G) (b.text ++ rest) rest
  | .nil, _, _, _, _ => .of_eq rfl
  | .cons a q b, _, h, G, rest => by
    have hatom := a.opens h.1 G (q.elim [] Quantifier.text ++ (b.text ++ rest))
    have hpiece := hatom.trans (.of_eq (openings_quantifier h.2.1 (b.text ++ rest)))
    have hall := hpiece.trans (b.opens h.2.2.2 (a.after G) rest)
    simpa [Branch.text, Branch.after] using hall

/-- A pattern opens its groups without a name. -/
theorem Regexp.opens {o : Options} : (r : Regexp) → {depth : Nat} → r.Legal o depth → (G : Groups) →
    (rest : List Char) → Opens G (r.after G) (r.text ++ rest) rest
  | .branch b, _, h, G, rest => b.opens h G rest
  | .bar b r, _, h, G, rest => by
    have hbar : Opens (b.after G) (b.after G) ('|' :: (r.text ++ rest)) (r.text ++ rest) := .of_eq rfl
    have hall := ((b.opens h.1 G _).trans hbar).trans (r.opens h.2 (b.after G) rest)
    simpa [Regexp.text, Regexp.after] using hall

end

end Verbatim

/-! ## Conversions -/

variable {o : Options} {text : List Char} {c : Conversion}

/--
The groups of a native pattern that capture are those that its conversion counts, and those with a name. Blanks count in
the expression, and there are no comments in it, nor flags under which a native engine leaves blanks out.
-/
theorem convert_native_captureCount (hl : o.literal = false) (hfold : o.foldBlanks = false)
    (h : convert o .native (encode text) = .ok c) (hext : .extended ∉ openings {} text) :
    capturingGroups text = c.captureCount + namedGroups text := by
  rw [convert_of_not_literal hl] at h
  obtain ⟨r, hr⟩ := convertNative_sound h
  obtain ⟨hlegal, hencode⟩ := (Verbatim.Regexp.isSyntaxOf_iff hfold).mp hr
  obtain rfl : r.text = text := encode_injective hencode
  obtain rfl : c = r.conversion o := Except.ok.inj (h.symm.trans (convertNative_complete hr))
  have hopens := r.opens hlegal {} []
  rw [List.append_nil] at hopens
  obtain ⟨_, hcount⟩ := hopens hext
  have hnumbered : (openings {} r.text).count .numbered = (r.conversion o).captureCount :=
    hcount.trans (Nat.zero_add _)
  rw [capturingGroups, countP_captures, hnumbered, namedGroups]

/-- A group with a name beside one without, one that does not capture, and parentheses that open nothing. -/
theorem convert_native_captureCount_named :
    ∃ c, convert {} .native (encode "(a)(?P<n>b)(?:c)[(]\\(".toList) = .ok c ∧ c.captureCount = 1 ∧
      capturingGroups "(a)(?P<n>b)(?:c)[(]\\(".toList = 2 := by
  let single (c : Char) : Fragment := .verbatim [c]
  have hconvert : convert {} .native (encode "(a)(?P<n>b)(?:c)[(]\\(".toList) =
      .ok ⟨"(a)(?P<n>b)(?:c)[(]\\(".toList.map single, .scalar, .xsd10, false, 1, []⟩ := by decide +kernel
  exact ⟨_, hconvert, rfl, convert_native_captureCount rfl rfl hconvert (by decide)⟩

/-- The count of a pattern need not be the number of its groups that capture. -/
theorem captureCount_ne_named :
    ¬ ∀ (o : Options) (text : List Char) (c : Conversion), o.literal = false → o.foldBlanks = false →
      convert o .native (encode text) = .ok c → .extended ∉ openings {} text →
        c.captureCount = capturingGroups text := by
  let single (c : Char) : Fragment := .verbatim [c]
  have hconvert : convert {} .native (encode "(?P<n>a)".toList) =
      .ok ⟨"(?P<n>a)".toList.map single, .scalar, .xsd10, false, 0, []⟩ := by decide +kernel
  intro hall
  have hcount : 0 = capturingGroups "(?P<n>a)".toList := hall {} _ _ rfl rfl hconvert (by decide)
  exact absurd hcount (by decide)

end XmlPattern
