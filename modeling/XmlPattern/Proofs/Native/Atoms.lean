import XmlPattern.Dialect.CharClass
import XmlPattern.Proofs.CharSet.Ranges
import XmlPattern.Proofs.Native.Reading

/-!
# Atoms one after another

What a text of several atoms is read as, whatever the lexis, given that each is read as one: a sequence, and in a group
with bars between the sequences, alternatives.

- `branch?_pieces`, `tree?_pieces`: atoms one after another, with quantifiers behind them or none, are read as a
  sequence.
- `readsAtom_alternatives`: a group of alternatives is read as one atom.
-/

namespace XmlPattern.Native

variable {α : Type} {l : Lexis α} {inner : Inner α} {s : Scope} {n m opened : Nat}

/-! ## Characters -/

theorem number?_cons {c : Char} (h : c.isDigit = false) (rest : List Char) : number? (c :: rest) = none :=
  number?_of_not_digit (by rintro _ ⟨⟩; exact h)

/-- An escape that is no back-reference is read by the lexis. -/
theorem atom?_escape {c : Char} (h : c.isDigit = false) {cs rest : List Char}
    {a : Tree α} (he : l.escape? s (c :: cs) = some (a, rest)) :
    l.atom? inner s ⟨'\\' :: c :: cs, opened⟩ = some (a, ⟨rest, opened⟩) := by
  show l.escaped? s _ (c :: cs) = _
  rw [Lexis.escaped?, number?_cons h, he]
  rfl

theorem atom?_plain {c : Char} {rest : List Char} {a : α}
    (h : c ∉ ['*', '+', '?', '.', '^', '$', '(', '\\', '[']) (hp : l.plain? s c = some a) :
    l.atom? inner s ⟨c :: rest, opened⟩ = some (.chars a, ⟨rest, opened⟩) := by
  simp only [List.mem_cons, List.not_mem_nil, or_false, not_or] at h
  simp [Lexis.atom?, h, hp]

/-! ## Members of classes -/

/-- A text does not go on with the operator of a range. -/
def EndsItem (text : List Char) : Prop := ∀ c ∈ text.head?, c ≠ '-'

/-- The first character of a member: a letter, a digit or a backslash. -/
def StartsMember (text : List Char) : Prop := ∃ c rest, text = c :: rest ∧ c ∉ ['^', ']', '-', '[']

theorem StartsMember.endsItem {text : List Char} (h : StartsMember text) : EndsItem text := by
  obtain ⟨c, rest, rfl, hc⟩ := h
  rintro _ ⟨⟩ rfl
  exact hc (by decide)

theorem StartsMember.ne {text : List Char} (h : StartsMember text) {c : Char} (hc : c ∈ ['^', ']', '-', '['])
    (rest : List Char) : text ≠ c :: rest := by
  obtain ⟨d, ds, rfl, hd⟩ := h
  intro he
  rw [List.head_eq_of_cons_eq he] at hd
  exact hd hc

theorem startsMember_bracketRange {member : Nat → List Char} (h : ∀ n rest, StartsMember (member n ++ rest))
    (first last : Nat) (rest : List Char) : StartsMember (bracketRange member first last ++ rest) := by
  rw [bracketRange, List.append_assoc]
  exact h _ _

section

variable {ι : Type} {text : ι → List Char}

theorem endsItem_items (h : ∀ i rest, StartsMember (text i ++ rest)) (items : List ι) (rest : List Char) :
    EndsItem (items.flatMap text ++ ']' :: rest) := by
  cases items with
  | nil =>
    rintro _ ⟨⟩
    decide
  | cons i items =>
    rw [List.flatMap_cons, List.append_assoc]
    exact (h i _).endsItem

/-- Fuel for an item and what is behind it is one more than enough for what is behind it. -/
theorem exists_fuel_behind_item (h : ∀ i rest, StartsMember (text i ++ rest)) {i : ι} {rest : List Char} {fuel : Nat}
    (hf : (text i ++ rest).length ≤ fuel) : ∃ k, fuel = k + 1 ∧ rest.length ≤ k := by
  obtain ⟨c, cs, hc, _⟩ := h i []
  have hpos : 0 < (text i).length := by
    rw [List.append_nil] at hc
    rw [hc]
    exact Nat.succ_pos _
  rw [List.length_append] at hf
  exact ⟨fuel - 1, by omega, by omega⟩

end

theorem toNat_alphanumeric {n : Nat} (h : isAsciiAlphanumeric n = true) : (Char.ofNat n).toNat = n ∧ n < 0x80 := by
  simp only [isAsciiAlphanumeric, Bool.or_eq_true, Bool.and_eq_true, decide_eq_true_eq] at h
  exact ⟨toNat_ofNat (by unfold Nat.isValidChar; omega), by omega⟩

theorem ofNat_ne_of_alphanumeric {n : Nat} (h : isAsciiAlphanumeric n = true) {c : Char}
    (hc : isAsciiAlphanumeric c.toNat = false) : Char.ofNat n ≠ c := by
  rintro rfl
  rw [(toNat_alphanumeric h).1, h] at hc
  cases hc

theorem startsMember_alphanumeric {n : Nat} (h : isAsciiAlphanumeric n = true) (rest : List Char) :
    StartsMember (Char.ofNat n :: rest) := by
  refine ⟨Char.ofNat n, rest, rfl, fun hc => ?_⟩
  have hall : ∀ c ∈ ['^', ']', '-', '['], isAsciiAlphanumeric c.toNat = false :=
    List.all_iff_forall_prop.mp (by decide)
  exact ofNat_ne_of_alphanumeric h (hall _ hc) rfl

/-! ## Sequences and alternatives -/

namespace Tree

/-- Patterns one after another. -/
def sequence (as : List (Tree α)) : Tree α := as.foldr .seq .empty

/-- Patterns as alternatives. -/
def alternation : List (Tree α) → Tree α
  | [] => .empty
  | [a] => a
  | a :: rest => .alt a (alternation rest)

theorem alternation_cons (a b : Tree α) (rest : List (Tree α)) :
    alternation (a :: b :: rest) = .alt a (alternation (b :: rest)) := rfl

end Tree

/-- A text is that of atoms, each of which is read as one. -/
inductive ReadsAtoms (l : Lexis α) (s : Scope) : List Char → List (Tree α) → Prop where
  | nil : ReadsAtoms l s [] []
  | cons {text : List Char} {a : Tree α} {rest : List Char} {as : List (Tree α)} :
    ReadsAtom l s text a → ReadsAtoms l s rest as → ReadsAtoms l s (text ++ rest) (a :: as)

theorem ReadsAtom.readsAtoms {text : List Char} {a : Tree α} (h : ReadsAtom l s text a) : ReadsAtoms l s text [a] := by
  rw [← List.append_nil text]
  exact .cons h .nil

/-- A text is that of pieces: atoms, each of which is read as one, with a quantifier behind it or none. -/
inductive ReadsPieces (l : Lexis α) (s : Scope) : List Char → List (Tree α) → Prop where
  | nil : ReadsPieces l s [] []
  | cons {text : List Char} {a : Tree α} {q : Option Grammar.Quantifier} {rest : List Char} {as : List (Tree α)} :
    ReadsAtom l s text a → (∀ x ∈ q, x.quantity.Legal) → ReadsPieces l s rest as →
    ReadsPieces l s (text ++ (Grammar.quantifierText q ++ rest)) (a.quantify q :: as)

theorem ReadsAtoms.readsPieces {text : List Char} {as : List (Tree α)} (h : ReadsAtoms l s text as) :
    ReadsPieces l s text as := by
  induction h with
  | nil => exact .nil
  | cons ha _ ih => exact .cons (q := none) ha nofun ih

theorem ReadsPieces.endsPiece {text : List Char} {as : List (Tree α)} (h : ReadsPieces l s text as) {rest : List Char}
    (hrest : EndsPiece rest) : EndsPiece (text ++ rest) := by
  cases h with
  | nil => exact hrest
  | cons ha _ _ =>
    rw [List.append_assoc]
    exact (ha.starts.append _).endsPiece

/-- Pieces one after another are read as a sequence. -/
theorem branch?_pieces (opened : Nat) {text : List Char} {as : List (Tree α)} (h : ReadsPieces l s text as)
    {rest : List Char}
    (hrest : EndsBranch rest) {n m : Nat} (hn : (text ++ rest).length ≤ n) (hm : (text ++ rest).length ≤ m) :
    l.branch? (l.pattern? n) s m ⟨text ++ rest, opened⟩ = some (.sequence as, ⟨rest, opened⟩) := by
  induction h generalizing m with
  | nil => exact branch?_end hrest
  | @cons text a q texts as ha hq has ih =>
    have hpos := ha.starts.length_pos
    rw [List.append_assoc, List.append_assoc] at hn hm ⊢
    have hlen : (texts ++ rest).length ≤ n ∧ (texts ++ rest).length + 1 ≤ m := by
      simp only [List.length_append] at hn hm ⊢
      omega
    obtain ⟨m, rfl⟩ := Nat.exists_eq_add_one.mpr (show 0 < m by omega)
    exact branch?_cons (ha.starts.append _) (ha.reads hn)
      (quantified_text hq (has.endsPiece hrest.endsPiece) _ _)
      (ih hlen.1 (Nat.le_of_succ_le_succ hlen.2))

/-- Atoms one after another are read as a sequence. -/
theorem branch?_atoms (opened : Nat) {text : List Char} {as : List (Tree α)} (h : ReadsAtoms l s text as)
    {rest : List Char}
    (hrest : EndsBranch rest) {n m : Nat} (hn : (text ++ rest).length ≤ n) (hm : (text ++ rest).length ≤ m) :
    l.branch? (l.pattern? n) s m ⟨text ++ rest, opened⟩ = some (.sequence as, ⟨rest, opened⟩) :=
  branch?_pieces opened h.readsPieces hrest hn hm

/-- A whole text of pieces is read as their sequence. -/
theorem tree?_pieces {multiLine : Bool} {text : List Char} {as : List (Tree α)}
    (h : ReadsPieces l { multiLine } text as) :
    l.tree? multiLine text = some (.sequence as, 0) := by
  have hlen : (text ++ []).length ≤ text.length := Nat.le_of_eq (congrArg List.length (List.append_nil text))
  have hread := branches?_one (branch?_pieces 0 h endsPattern_nil.endsBranch hlen hlen) endsPattern_nil
  rw [List.append_nil] at hread
  rw [Lexis.tree?, pattern?_succ, hread]

/-- A whole text of one atom and a quantifier is read as the atom so often. -/
theorem tree?_quantified {multiLine : Bool} {text : List Char} {a : Tree α} (h : ReadsAtom l { multiLine } text a)
    {q : Option Grammar.Quantifier} (hq : ∀ x ∈ q, x.quantity.Legal) :
    l.tree? multiLine (text ++ Grammar.quantifierText q) = some (.seq (a.quantify q) .empty, 0) := by
  have hread := tree?_pieces (.cons h hq .nil)
  rw [List.append_nil] at hread
  exact hread

theorem intercalate_cons_cons {β : Type} (sep x y : List β) (rest : List (List β)) :
    sep.intercalate (x :: y :: rest) = x ++ (sep ++ sep.intercalate (y :: rest)) := rfl

theorem intercalate_singleton {β : Type} (sep x : List β) : sep.intercalate [x] = x := List.append_nil x

/-- What texts and bars make is built up from the last text, with a text and a bar in front of it each time. -/
theorem intercalate_induction {P Q : List Char → Prop} (one : ∀ a, Q a → P a)
    (bar : ∀ a b, Q a → P b → P (a ++ '|' :: b)) {texts : List (List Char)} (h : ∀ text ∈ texts, Q text)
    (hne : texts ≠ []) : P (['|'].intercalate texts) := by
  induction texts with
  | nil => exact absurd rfl hne
  | cons text texts ih =>
    obtain ⟨htext, htexts⟩ := List.forall_mem_cons.mp h
    cases texts with
    | nil =>
      rw [intercalate_singleton]
      exact one text htext
    | cons next texts =>
      rw [intercalate_cons_cons]
      exact bar text _ htext (ih htexts (List.cons_ne_nil _ _))

/-- Sequences with bars between them are read as alternatives. -/
theorem branches?_alternatives (opened : Nat) {texts : List (List Char)} {alternatives : List (List (Tree α))}
    (h : List.Forall₂ (ReadsAtoms l s) texts alternatives) (hne : texts ≠ []) {rest : List Char}
    (hrest : EndsPattern rest)
    {n m : Nat} (hn : (['|'].intercalate texts ++ rest).length ≤ n)
    (hm : (['|'].intercalate texts ++ rest).length ≤ m) :
    l.branches? (l.pattern? n) s (m + 1) ⟨['|'].intercalate texts ++ rest, opened⟩ =
      some (.alternation (alternatives.map .sequence), ⟨rest, opened⟩) := by
  induction h generalizing m with
  | nil => exact absurd rfl hne
  | @cons text as texts alternatives ha hall ih =>
    cases hall with
    | nil =>
      rw [intercalate_singleton] at hn hm ⊢
      exact branches?_one (branch?_atoms opened ha hrest.endsBranch hn hm) hrest
    | @cons next _ texts _ hb hall =>
      rw [intercalate_cons_cons, List.append_assoc, List.append_assoc] at hn hm ⊢
      have hlen : (['|'].intercalate (next :: texts) ++ rest).length ≤ n ∧
          (['|'].intercalate (next :: texts) ++ rest).length + 1 ≤ m := by
        simp only [List.length_append, List.length_singleton] at hn hm ⊢
        omega
      obtain ⟨m, rfl⟩ := Nat.exists_eq_add_one.mpr (show 0 < m by omega)
      rw [List.map_cons, List.map_cons, Tree.alternation_cons]
      exact branches?_bar (branch?_atoms opened ha (endsBranch_bar _) hn hm)
        (ih (List.cons_ne_nil _ _) hlen.1 (Nat.le_of_succ_le_succ hlen.2))

/-- A group of alternatives is read as one atom. -/
theorem readsAtom_alternatives {texts : List (List Char)} {alternatives : List (List (Tree α))}
    (h : List.Forall₂ (ReadsAtoms l s) texts alternatives) (hne : texts ≠ []) :
    ReadsAtom l s (['(', '?', ':'] ++ ['|'].intercalate texts ++ [')'])
      (.group .plain (.alternation (alternatives.map .sequence))) := by
  refine ⟨⟨'(', _, rfl, by decide, by decide, by decide⟩, fun {n opened rest} hn => ?_⟩
  rw [List.append_assoc, List.append_assoc] at hn ⊢
  obtain ⟨n, rfl⟩ : ∃ k, n = k + 1 := ⟨n - 1, by simp only [List.length_append, List.length_cons] at hn; omega⟩
  have hinner := branches?_alternatives opened h hne (endsPattern_paren rest) (n := n) (m := _)
    (by simp only [List.length_append, List.length_cons, List.length_nil] at hn ⊢; omega) (Nat.le_refl _)
  exact enclosed?_some hinner

end XmlPattern.Native
