import XmlPattern.Proofs.Native.Matching
import XmlPattern.Proofs.Native.ScalarAtoms
import XmlPattern.Proofs.Native.UnitAtoms

/-!
# Texts that stand for themselves

An escaped text is read as literals one after another, one for each character, and matches the text alone. Nothing in it
chooses, repeats, looks around, refers back or is a class, whatever characters come together. Only where a character
takes two units is there a group, which has no number and holds the two units, so that a quantifier behind it counts for
both.

- `Neutral`: what a dialect writes for texts is read as literals.
- `escape_neutral`: both dialects write texts so, and differently for different texts.
- `not_flat_pair`: a pair of units is not without a group.
-/

namespace XmlPattern

open Native

/-- Characters one after another, each as itself with a quantifier behind it or none. -/
def Dialect.spell (d : Dialect) (pieces : List (Char × Option Grammar.Quantifier)) : List Char :=
  pieces.flatMap fun p => d.literal p.1 ++ Grammar.quantifierText p.2

theorem Dialect.spell_bare (d : Dialect) (text : List Char) : d.spell (text.map (·, none)) = d.escape text := by
  rw [spell, escape, List.flatMap_map]
  exact List.flatMap_congr fun c _ => List.append_nil _

namespace Native

variable {α σ : Type}

/-! ## Reading literals -/

/-- Nothing but characters, or units, one after another. -/
def Tree.IsFlat : Tree α → Prop
  | .empty | .chars _ => True
  | .seq a b => a.IsFlat ∧ b.IsFlat
  | .alt .. | .repeated .. | .group .. | .boundary _ | .reference .. => False

theorem Tree.isFlat_sequence {as : List (Tree α)} : (sequence as).IsFlat ↔ ∀ a ∈ as, a.IsFlat := by
  induction as with
  | nil => exact iff_of_true trivial nofun
  | cons a as ih =>
    rw [List.forall_mem_cons]
    exact and_congr_right fun _ => ih

/--
What a dialect writes for texts stands for them: it is read as the literals of their characters, matches the texts as
the engine sees them and nothing else, and each literal takes a quantifier. Since classes may be read in any way, none
is read; and no group is counted.
-/
structure Neutral (l : Lexis α) (d : Dialect) (members : α → σ → Prop) (literal : Char → Tree α)
    (encode : List Char → List σ) : Prop where
  reads : ∀ (text : List Char) (multiLine : Bool) (class? : Scope → List Char → Option (α × List Char)),
    (l.withClasses class?).tree? multiLine (d.escape text) = some (.sequence (text.map literal), 0)
  quantifies : ∀ (pieces : List (Char × Option Grammar.Quantifier)), (∀ p ∈ pieces, ∀ q ∈ p.2, q.quantity.Legal) →
    ∀ (multiLine : Bool) (class? : Scope → List Char → Option (α × List Char)),
    (l.withClasses class?).tree? multiLine (d.spell pieces) =
      some (.sequence (pieces.map fun p => (literal p.1).quantify p.2), 0)
  denotes : ∀ (text : List Char) (w : List σ), w ∈ (Tree.sequence (text.map literal)).language members ↔ w = encode text

/-- Literals with quantifiers behind them are read piece by piece. -/
theorem readsPieces_spell {l : Lexis α} {s : Scope} {d : Dialect} {literal : Char → Tree α}
    (h : ∀ c, ReadsAtom l s (d.literal c) (literal c)) {pieces : List (Char × Option Grammar.Quantifier)}
    (hq : ∀ p ∈ pieces, ∀ q ∈ p.2, q.quantity.Legal) :
    ReadsPieces l s (d.spell pieces) (pieces.map fun p => (literal p.1).quantify p.2) := by
  induction pieces with
  | nil => exact .nil
  | cons p pieces ih =>
    rw [Dialect.spell, List.flatMap_cons, List.append_assoc]
    exact .cons (h p.1) (hq p List.mem_cons_self) (ih fun x hx => hq x (List.mem_cons_of_mem _ hx))

/-- A dialect is neutral when each literal is read as one atom that matches the units of its character. -/
theorem Neutral.of_literal {l : Lexis α} {d : Dialect} {members : α → σ → Prop} {literal : Char → Tree α}
    {units : Char → List σ}
    (hreads : ∀ class? s, s.caseBlind = false → ∀ c, ReadsAtom (l.withClasses class?) s (d.literal c) (literal c))
    (hdenotes : ∀ c w, w ∈ (literal c).language members ↔ w = units c) :
    Neutral l d members literal (List.flatMap units) := by
  have hpieces : ∀ (pieces : List (Char × Option Grammar.Quantifier)), (∀ p ∈ pieces, ∀ q ∈ p.2, q.quantity.Legal) →
      ∀ (multiLine : Bool) (class? : Scope → List Char → Option (α × List Char)),
      (l.withClasses class?).tree? multiLine (d.spell pieces) =
        some (.sequence (pieces.map fun p => (literal p.1).quantify p.2), 0) := by
    intro pieces hq multiLine class?
    exact tree?_pieces (readsPieces_spell (hreads class? _ rfl) hq)
  refine ⟨fun text multiLine class? => ?_, hpieces, fun text w => Tree.mem_language_sequence_single hdenotes⟩
  have hbare := hpieces (text.map (·, none)) (by simp) multiLine class?
  rw [Dialect.spell_bare, List.map_map] at hbare
  exact hbare

/-- Fragments that are literals are read as such. -/
theorem Neutral.reads_textOf {l : Lexis α} {d : Dialect} {members : α → σ → Prop} {literal : Char → Tree α}
    {encode : List Char → List σ} (h : Neutral l d members literal encode) (text : List Char) (multiLine : Bool) :
    l.tree? multiLine (Fragment.textOf d (text.map .literal)) = some (.sequence (text.map literal), 0) := by
  rw [Fragment.textOf_literal]
  exact h.reads text multiLine l.class?

/-- A neutral dialect writes different texts for texts that its engine can tell apart. -/
theorem Neutral.escape_injective {l : Lexis α} {d : Dialect} {members : α → σ → Prop} {literal : Char → Tree α}
    {encode : List Char → List σ} (h : Neutral l d members literal encode) (hencode : Function.Injective encode) :
    Function.Injective d.escape := by
  intro text text' he
  -- The same pattern has one tree, which matches the one text and the other.
  have hread := h.reads text false fun _ _ => none
  rw [he, h.reads text' false fun _ _ => none, Option.some_inj, Prod.mk.injEq] at hread
  have hmem := (h.denotes text' (encode text')).mpr rfl
  rw [hread.1] at hmem
  exact hencode ((h.denotes text _).mp hmem).symm

/-! ## Engines that take a quantifier -/

theorem quantity_min_le_max {q : Grammar.Quantity} (h : q.Legal) : ∀ n ∈ q.max, q.min ≤ n := by
  rintro n hn
  cases q with
  | star | plus | atLeast digits => cases hn
  | option =>
    cases hn
    exact Nat.zero_le 1
  | exactly digits =>
    cases hn
    exact Nat.le_refl _
  | between lower upper =>
    cases hn
    exact min_le_min_right maxBound h.2.2

/-- The engine of the scalar dialect takes one character with any quantifier. -/
theorem ofTree?_quantify (set : CharSet) {q : Option Grammar.Quantifier} (h : ∀ x ∈ q, x.quantity.Legal) :
    ∃ r, Regex.ofTree? ((Tree.chars set).quantify q) = some r := by
  cases q with
  | none => exact ⟨_, rfl⟩
  | some q =>
    have hbounds := quantity_min_le_max (h q rfl)
    exact ⟨_, Regex.ofTree?_repeated_eq_some.mpr ⟨.chars set, rfl, rfl, hbounds, rfl⟩⟩

theorem ofTree?_sequence {as : List (Tree CharSet)} (h : ∀ a ∈ as, ∃ r, Regex.ofTree? a = some r) :
    ∃ r, Regex.ofTree? (.sequence as) = some r := by
  induction as with
  | nil => exact ⟨.empty, rfl⟩
  | cons a as ih =>
    obtain ⟨ra, hra⟩ := h a List.mem_cons_self
    obtain ⟨rb, hrb⟩ := ih fun x hx => h x (List.mem_cons_of_mem _ hx)
    exact ⟨_, Regex.ofTree?_seq_eq_some.mpr ⟨ra, hra, rb, hrb, rfl⟩⟩

end Native

/-! ## The dialects -/

theorem neutral_scalar : Neutral Lexis.scalar .scalar (fun s c => c ∈ s) (fun c => .chars (.single c)) id := by
  have hid : (List.flatMap fun c : Char => [c]) = id := funext fun text => List.flatMap_singleton' text
  rw [← hid]
  refine .of_literal (fun class? s hs c => readsAtom_literal_withClasses class? hs c) fun c w => ?_
  constructor
  · rintro ⟨d, hd, rfl⟩
    rw [CharSet.mem_single.mp hd]
  · rintro rfl
    exact ⟨c, CharSet.mem_single.mpr rfl, rfl⟩

theorem neutral_utf16 :
    Neutral Lexis.unit .utf16 (fun s u => s.contains u = true) unitLiteral CodeUnit.encode :=
  .of_literal (fun class? _ hs c => readsAtom_unitLiteral_withClasses class? hs c) fun _ _ => mem_unitLanguage_literal

theorem isFlat_unitLiteral {c : Char} : (unitLiteral c).IsFlat ↔ isSupplementary c = false := by
  unfold unitLiteral
  split
  · next h => simp [Tree.ofClasses, Tree.IsFlat, h]
  · next h => simp [Tree.IsFlat, h]

/--
Both dialects write texts so that they are read as literals and match themselves: as characters in the one, as the units
of UTF-16 in the other. Over characters there is nothing but sets of one character. Over units the only groups are plain
ones, each around the two units of one character. Different texts are written differently, and a text is found to be
unchanged exactly when it is written as itself.
-/
theorem escape_neutral :
    Neutral Lexis.scalar .scalar (fun s c => c ∈ s) (fun c => .chars (.single c)) id ∧
      (∀ pieces : List (Char × Option Grammar.Quantifier), (∀ p ∈ pieces, ∀ q ∈ p.2, q.quantity.Legal) →
        ∃ r, Regex.ofTree? (.sequence (pieces.map fun p => (Tree.chars (.single p.1)).quantify p.2)) = some r) ∧
      (∀ text : List Char, (Tree.sequence (text.map fun c => .chars (CharSet.single c))).IsFlat) ∧
      Neutral Lexis.unit .utf16 (fun s u => s.contains u = true) unitLiteral CodeUnit.encode ∧
      (∀ text : List Char, (Tree.sequence (text.map unitLiteral)).IsFlat ↔ ∀ c ∈ text, isSupplementary c = false) ∧
      (∀ c, isSupplementary c = true → unitLiteral c = .group .plain
        (.sequence [.chars (.single (CodeUnit.highOf c.toNat)), .chars (.single (CodeUnit.lowOf c.toNat))])) ∧
      ∀ d : Dialect, Function.Injective d.escape ∧ ∀ text, d.isUnchanged text = true ↔ d.escape text = text := by
  refine ⟨neutral_scalar, ?_, ?_, neutral_utf16, ?_, ?_, fun d => ⟨?_, fun text => Dialect.escape_eq_self_iff.symm⟩⟩
  · intro pieces hq
    refine ofTree?_sequence fun a ha => ?_
    obtain ⟨p, hp, rfl⟩ := List.mem_map.mp ha
    exact ofTree?_quantify _ (hq p hp)
  · intro text
    rw [Tree.isFlat_sequence, List.forall_mem_map]
    exact fun _ _ => trivial
  · intro text
    rw [Tree.isFlat_sequence, List.forall_mem_map]
    exact forall₂_congr fun _ _ => isFlat_unitLiteral
  · intro c hc
    exact if_pos hc
  · cases d with
    | scalar => exact neutral_scalar.escape_injective Function.injective_id
    | utf16 => exact neutral_utf16.escape_injective CodeUnit.encode_injective

/-- A character of two units is written with a group around them. -/
theorem not_flat_pair :
    ¬ ∀ (text : List Char) (t : Native.Tree UnitSet) (n : Nat),
      Lexis.unit.tree? false (Dialect.utf16.escape text) = some (t, n) → t.IsFlat := by
  intro hall
  have hread := neutral_utf16.reads [Char.ofNat 0x1F600] false Lexis.unit.class?
  have hflat := hall _ _ _ hread
  exact absurd (isFlat_unitLiteral.mp hflat.1) (by decide)

end XmlPattern
