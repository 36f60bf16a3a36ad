import XmlPattern.Proofs.Native.Reading
import XmlPattern.Proofs.Scan.Patterns

/-!
# The tree of a pattern

What is written for a legal syntax tree is read as a native tree of the same shape, in either dialect: alternatives
become alternatives, sequences become sequences, and each atom becomes one atom. All that the dialects differ in is what
stands for an atom of one character, and how back-references treat case.

- `Regexp.tree`: the native tree of a syntax tree, given what its atoms become.
- `Regexp.read`: the text of a syntax tree is read as its native tree, in front of anything that ends a pattern.
- `tree?_text`: and so is the text of a whole pattern.
-/

namespace XmlPattern

namespace Grammar

open Native

/-- What an anchor asks of a place. -/
def anchorBoundary (multiLine : Bool) (c : Char) : Boundary :=
  if c = '^' then if multiLine then .lineStart else .textStart
  else if multiLine then .lineEnd else .textEnd

section

variable {α : Type} (leaf : Leaf → Native.Tree α) (blind multiLine : Bool)

mutual

/-- The native tree of an atom behind some groups. -/
def Atom.tree : Groups → Atom → Native.Tree α
  | _, .leaf l => leaf l
  | _, .anchor c => .boundary (anchorBoundary multiLine c)
  | _, .reference digits => .back (Numeral.ofDecimal digits) blind
  | G, .group true r => .group (.capturing (G.opened + 1)) (r.tree G.open)
  | G, .group false r => .group .plain (r.tree G)

/-- The native tree of a branch behind some groups. -/
def Branch.tree : Groups → Branch → Native.Tree α
  | _, .nil => .empty
  | G, .cons a q b => .seq ((a.tree G).quantify q) (b.tree (a.after G))

/-- The native tree of a pattern behind some groups. -/
def Regexp.tree : Groups → Regexp → Native.Tree α
  | G, .branch b => b.tree G
  | G, .bar b r => .alt (b.tree G) (r.tree (b.after G))

end

end

end Grammar

namespace Native

open Grammar

variable {α : Type} {l : Lexis α} {d : Dialect} {o : Options} {leaf : Leaf → Tree α}

/-- How an engine reads the atoms of one character that a dialect writes. -/
def ReadsLeaves (l : Lexis α) (d : Dialect) (o : Options) (leaf : Leaf → Tree α) : Prop :=
  ∀ x : Leaf, ReadsAtom l { multiLine := o.multiLine } ((x.fragment o).text d) (leaf x)

section

variable (hleaf : ReadsLeaves l d o leaf)
include hleaf

theorem startsAtom_text {depth : Nat} {G : Grammar.Groups} {a : Atom} (h : a.Legal o depth G) :
    StartsAtom (a.text d o G) := by
  cases a with
  | leaf x =>
    rw [Atom.text_leaf]
    exact (hleaf x).starts
  | anchor c =>
    have hall : ∀ c ∈ anchorChars, c ∉ quantifiers ∧ c ≠ '|' ∧ c ≠ ')' := List.all_iff_forall_prop.mp (by decide)
    exact ⟨c, [], Atom.text_anchor d o G c, hall c h.2⟩
  | reference digits =>
    rw [Atom.text_reference, Fragment.text]
    split
    · exact ⟨'(', _, rfl, by decide⟩
    · exact ⟨'(', _, rfl, by decide⟩
  | group capturing r =>
    cases capturing with
    | true =>
      rw [Atom.text_capturing]
      exact ⟨'(', _, rfl, by decide⟩
    | false =>
      rw [Atom.text_plain]
      exact ⟨'(', _, rfl, by decide⟩

theorem endsPiece_branch {depth : Nat} {G : Grammar.Groups} {b : Branch} (h : b.Legal o depth G) {rest : List Char}
    (hrest : EndsPiece rest) : EndsPiece (b.text d o G ++ rest) := by
  cases b with
  | nil => exact hrest
  | cons a q b =>
    rw [Branch.text_cons, List.append_assoc, List.append_assoc]
    exact ((startsAtom_text hleaf h.1).append _).endsPiece

theorem endsPiece_regexp {depth : Nat} {G : Grammar.Groups} {r : Regexp} (h : r.Legal o depth G) {rest : List Char}
    (hrest : EndsPiece rest) : EndsPiece (r.text d o G ++ rest) := by
  cases r with
  | branch b => exact endsPiece_branch hleaf h hrest
  | bar b r =>
    rw [Regexp.text_bar, List.append_assoc]
    exact endsPiece_branch hleaf h.1 (endsBranch_bar _).endsPiece

end

/-- The scope of a whole pattern. -/
abbrev wholeScope (o : Options) : Scope := { multiLine := o.multiLine }

mutual

theorem Atom.read (hleaf : ReadsLeaves l d o leaf) : (a : Atom) → {depth : Nat} → {G : Grammar.Groups} →
    a.Legal o depth G → G.Valid → {n : Nat} → {rest : List Char} → (a.text d o G ++ rest).length ≤ n →
    l.atom? (l.pattern? n) (wholeScope o) ⟨a.text d o G ++ rest, G.opened⟩ =
      some (a.tree leaf (o.caseBlind && d == .scalar) o.multiLine G, ⟨rest, (a.after G).opened⟩)
  | .leaf x, _, G, _, _, n, rest, hn => by
    rw [Atom.text_leaf] at hn ⊢
    exact (hleaf x).reads hn
  | .anchor c, _, G, h, _, n, rest, _ => by
    rw [Atom.text_anchor]
    rcases mem_anchorChars.mp h.2 with rfl | rfl <;> rfl
  | .reference digits, _, G, h, hG, n, rest, hn => by
    rw [Atom.text_reference] at hn ⊢
    exact atom?_back (hG _ h.2.2.2) rfl hn
  | .group true r, depth, G, h, hG, n, rest, hn => by
    rw [Atom.text_capturing, List.cons_append, List.cons_append, List.append_assoc] at hn ⊢
    obtain ⟨n, rfl⟩ : ∃ k, n = k + 1 := ⟨n - 1, by simp only [List.length_cons] at hn; omega⟩
    have hopen : G.open.Valid := fun k hk => ⟨(hG k hk).1, Nat.le_succ_of_le (hG k hk).2⟩
    have hinner := Regexp.read hleaf r h.2 hopen (endsPattern_paren rest) (n := n) (m := _)
      (Nat.le_of_succ_le_succ hn) (Nat.le_refl _)
    have hhead : ∀ c ∈ (r.text d o G.open ++ ([')'] ++ rest)).head?, c ≠ '?' := by
      rintro c hc rfl
      exact endsPiece_regexp hleaf h.2 (endsPattern_paren rest).endsBranch.endsPiece '?' hc (by decide)
    show group? (l.pattern? (n + 1)) _ _ _ = _
    rw [group?_capturing hhead]
    exact enclosed?_some hinner
  | .group false r, depth, G, h, hG, n, rest, hn => by
    rw [Atom.text_plain, List.append_assoc, List.append_assoc] at hn ⊢
    obtain ⟨n, rfl⟩ : ∃ k, n = k + 1 :=
      ⟨n - 1, by simp only [List.cons_append, List.length_cons] at hn; omega⟩
    have hinner := Regexp.read hleaf r h.2.2 hG (endsPattern_paren rest) (n := n) (m := _)
      (by simp only [List.cons_append, List.nil_append, List.length_cons] at hn ⊢; omega) (Nat.le_refl _)
    exact enclosed?_some hinner

theorem Branch.read (hleaf : ReadsLeaves l d o leaf) : (b : Branch) → {depth : Nat} → {G : Grammar.Groups} →
    b.Legal o depth G →
    G.Valid → {n m : Nat} → {rest : List Char} → EndsBranch rest → (b.text d o G ++ rest).length ≤ n →
    (b.text d o G ++ rest).length ≤ m →
    l.branch? (l.pattern? n) (wholeScope o) m ⟨b.text d o G ++ rest, G.opened⟩ =
      some (b.tree leaf (o.caseBlind && d == .scalar) o.multiLine G, ⟨rest, (b.after G).opened⟩)
  | .nil, _, G, _, _, n, m, rest, hrest, _, _ => branch?_end hrest
  | .cons a q b, depth, G, h, hG, n, m, rest, hrest, hn, hm => by
    obtain ⟨ha, hq, _, hb⟩ := h
    have hstarts := startsAtom_text hleaf ha
    have hpos := hstarts.length_pos
    rw [Branch.text_cons, List.append_assoc, List.append_assoc] at hn hm ⊢
    have hlen : (b.text d o (a.after G) ++ rest).length ≤ n ∧ (b.text d o (a.after G) ++ rest).length + 1 ≤ m := by
      simp only [List.length_append] at hn hm ⊢
      omega
    obtain ⟨m, rfl⟩ := Nat.exists_eq_add_one.mpr (show 0 < m by omega)
    exact branch?_cons (hstarts.append _) (Atom.read hleaf a ha hG hn)
      (quantified_text (fun x hx => (hq x hx).1) (endsPiece_branch hleaf hb hrest.endsPiece) _ _)
      (Branch.read hleaf b hb ((a.grows_after G).2 hG) hrest hlen.1 (Nat.le_of_succ_le_succ hlen.2))

/-- The text of a pattern is read as its native tree, in front of anything that ends a pattern. -/
theorem Regexp.read (hleaf : ReadsLeaves l d o leaf) : (r : Regexp) → {depth : Nat} → {G : Grammar.Groups} →
    r.Legal o depth G →
    G.Valid → {rest : List Char} → EndsPattern rest → {n m : Nat} → (r.text d o G ++ rest).length ≤ n →
    (r.text d o G ++ rest).length ≤ m →
    l.branches? (l.pattern? n) (wholeScope o) (m + 1) ⟨r.text d o G ++ rest, G.opened⟩ =
      some (r.tree leaf (o.caseBlind && d == .scalar) o.multiLine G, ⟨rest, (r.after G).opened⟩)
  | .branch b, _, G, h, hG, rest, hrest, n, m, hn, hm =>
    branches?_one (Branch.read hleaf b h hG hrest.endsBranch hn hm) hrest
  | .bar b r, depth, G, h, hG, rest, hrest, n, m, hn, hm => by
    rw [Regexp.text_bar, List.append_assoc] at hn hm ⊢
    have hlen : (r.text d o (b.after G) ++ rest).length ≤ n ∧ (r.text d o (b.after G) ++ rest).length + 1 ≤ m := by
      simp only [List.length_append, List.length_cons, List.cons_append] at hn hm ⊢
      omega
    obtain ⟨m, rfl⟩ := Nat.exists_eq_add_one.mpr (show 0 < m by omega)
    exact branches?_bar (Branch.read hleaf b h.1 hG (endsBranch_bar _) hn hm)
      (Regexp.read hleaf r h.2 ((b.grows_after G).2 hG) hrest hlen.1 (Nat.le_of_succ_le_succ hlen.2))

end

/-- The text of a whole pattern is read as its native tree. -/
theorem tree?_text (hleaf : ReadsLeaves l d o leaf) {r : Regexp} (h : r.Legal o 0 {}) :
    l.tree? o.multiLine (r.text d o {}) =
      some (r.tree leaf (o.caseBlind && d == .scalar) o.multiLine {}, (r.after {}).opened) := by
  have hread := Regexp.read hleaf r h (G := {}) nofun endsPattern_nil (n := _) (m := _) (Nat.le_refl _) (Nat.le_refl _)
  rw [List.append_nil] at hread
  rw [Lexis.tree?, pattern?_succ, show Reading.mk _ _ = Reading.mk (r.text d o {}) (Groups.opened {}) from rfl, hread]

end Native

end XmlPattern
