import XmlPattern.Native.Engine
import XmlPattern.Proofs.Native.Matching
import XmlPattern.Proofs.Native.ScalarAtoms

/-!
# What a search finds

A search tries one place after another, so that it succeeds exactly when a part of the text matches. A pattern that is
anchored at both ends matches the whole text or nothing.

- `isMatch_iff_infix`: a pattern is found in the texts that have a part in its language.
- `isMatch_anchored_iff`: an anchored pattern is found in the texts of its language.
- `tree?_anchor`: the text of an anchored pattern is read as the anchored pattern.
-/

namespace XmlPattern

namespace Native

variable {a : Regex} {l : Language Char}

/-! ## Searches -/

theorem isSome_search? {passed rest : List Char} :
    (search? a passed rest).isSome = true ↔
      ∃ u v, rest = u ++ v ∧ (matchAt? a ⟨u.reverse ++ passed, v⟩).isSome = true := by
  induction rest generalizing passed with
  | nil =>
    constructor
    · exact fun h => ⟨[], [], rfl, h⟩
    · rintro ⟨u, v, he, h⟩
      obtain ⟨rfl, rfl⟩ := List.append_eq_nil_iff.mp he.symm
      exact h
  | cons c rest ih =>
    refine isSome_orElse.trans ?_
    rw [ih]
    constructor
    · rintro (h | ⟨u, v, rfl, h⟩)
      · exact ⟨[], c :: rest, rfl, h⟩
      · exact ⟨c :: u, v, rfl, by simpa using h⟩
    · rintro ⟨u, v, he, h⟩
      cases u with
      | nil =>
        rw [List.nil_append] at he
        subst he
        exact .inl h
      | cons d u =>
        cases he
        exact .inr ⟨u, v, rfl, by simpa using h⟩

theorem isSome_matchAt? {p : Place} :
    (matchAt? a p).isSome = true ↔ (matcher a p [] fun q g => some (q, g)).isSome = true := by
  rw [matchAt?, Option.isSome_map]

/-- A pattern matches at a place if a text of its language is next. -/
theorem matchAt?_iff (h : Recognizes (matcher a) l) {p : Place} :
    (matchAt? a p).isSome = true ↔ ∃ w rest, p.rest = w ++ rest ∧ w ∈ l := by
  rw [isSome_matchAt?, h p [] _ fun _ _ _ => Iff.rfl]
  simp [Reaches]

/-! ## Anchored patterns -/

/-- A pattern between assertions that a text starts and ends here. -/
def Tree.anchored {α : Type} (t : Tree α) : Tree α :=
  .seq (.boundary .textStart) (.seq (.group .plain t) (.seq (.boundary .textEnd) .empty))

/-- What closes an anchored pattern. -/
def anchorEnd : List Char := [')', '\\', 'z']

/-- A pattern that is read in front of what closes it is read between its anchors. -/
theorem tree?_anchor_of_read {multiLine : Bool} {pattern : List Char} {t : Tree CharSet} {n : Nat}
    (h : ∀ k m, (pattern ++ anchorEnd).length ≤ k → (pattern ++ anchorEnd).length ≤ m →
      Lexis.scalar.branches? (Lexis.scalar.pattern? k) { multiLine } (m + 1) ⟨pattern ++ anchorEnd, 0⟩ =
        some (t, ⟨anchorEnd, n⟩)) :
    Lexis.scalar.tree? multiLine (CompiledPattern.anchor pattern) = some (t.anchored, n) := by
  have hlen : (CompiledPattern.anchor pattern).length = (pattern ++ anchorEnd).length + 4 + 1 := by
    simp [CompiledPattern.anchor, anchorEnd]
  have hsource : CompiledPattern.anchor pattern = '\\' :: 'A' :: '(' :: '?' :: ':' :: (pattern ++ anchorEnd) := by
    simp [CompiledPattern.anchor, anchorEnd]
  have hend : EndsPiece ['\\', 'z'] := by
    rintro _ ⟨⟩
    decide
  have hopen : EndsPiece ('(' :: '?' :: ':' :: (pattern ++ anchorEnd)) := by
    rintro _ ⟨⟩
    decide
  generalize hk : (pattern ++ anchorEnd).length = k at h hlen
  have hgroup : Lexis.scalar.atom? (Lexis.scalar.pattern? (k + 4 + 1)) { multiLine }
      ⟨'(' :: '?' :: ':' :: (pattern ++ anchorEnd), 0⟩ = some (.group .plain t, ⟨['\\', 'z'], n⟩) := by
    refine enclosed?_some ?_
    rw [pattern?_succ, hk]
    exact h (k + 4) k (by omega) (Nat.le_refl _)
  have hbranch : Lexis.scalar.branch? (Lexis.scalar.pattern? (k + 4 + 1)) { multiLine } (k + 4 + 1)
      ⟨CompiledPattern.anchor pattern, 0⟩ = some (t.anchored, ⟨[], n⟩) := by
    rw [hsource]
    refine branch?_cons ⟨'\\', _, rfl, by decide, by decide, by decide⟩ (atom?_escape rfl rfl)
      (quantified_none hopen _ _) ?_
    refine branch?_cons ⟨'(', _, rfl, by decide, by decide, by decide⟩ hgroup (quantified_none hend _ _) ?_
    refine branch?_cons ⟨'\\', _, rfl, by decide, by decide, by decide⟩ (atom?_escape rfl rfl)
      (quantified_none endsPattern_nil.endsBranch.endsPiece _ _) ?_
    exact branch?_end nofun
  rw [Lexis.tree?, hlen, pattern?_succ, hlen, branches?_one hbranch nofun]

/-- The text of an anchored pattern is read as the anchored pattern. -/
theorem tree?_anchor {o : Options} {r : Grammar.Regexp} (h : r.Legal o 0 {}) :
    Lexis.scalar.tree? o.multiLine (CompiledPattern.anchor (r.text .scalar o {})) =
      some
        ((r.tree (fun x => .chars (x.fragment o).readBack)
          (o.caseBlind && Dialect.scalar == .scalar) o.multiLine {}).anchored, (r.after {}).opened) :=
  tree?_anchor_of_read fun _ _ hk hm =>
    Regexp.read (readsLeaves_scalar o) r h (G := {}) nofun (endsPattern_paren ['\\', 'z']) hk hm

/-- What an anchored pattern stands for. -/
theorem ofTree?_anchored {t : Tree CharSet} {r : Regex} (hr : Regex.ofTree? t = some r) : Regex.ofTree? t.anchored =
    some ((Regex.boundary .textStart).andThen (r.andThen ((Regex.boundary .textEnd).andThen .empty))) := by
  simp only [Tree.anchored, Regex.ofTree?, hr]
  rfl

theorem ofTree?_of_anchored {t : Tree CharSet} (h : Regex.ofTree? t.anchored = some a) :
    ∃ b, Regex.ofTree? t = some b := by
  obtain ⟨_, _, _, hrest, _⟩ := Regex.ofTree?_seq_eq_some.mp h
  obtain ⟨b, hb, _⟩ := Regex.ofTree?_seq_eq_some.mp hrest
  exact ⟨b, hb⟩

theorem matcher_anchored {t : Tree CharSet} (ht : Regex.ofTree? t.anchored = some a) {r : Regex}
    (hr : Regex.ofTree? t = some r) : matcher a = fun p g k =>
      if p.satisfies .textStart then
        matcher r p g fun p g => if p.satisfies .textEnd then k p g else none
      else none := by
  rw [ofTree?_anchored hr] at ht
  rw [← Option.some.inj ht, matcher_andThen, matcher_andThen]
  rfl

theorem matchAt?_anchored_iff {t : Tree CharSet} (ht : Regex.ofTree? t.anchored = some a) {r : Regex}
    (hr : Regex.ofTree? t = some r) (h : Recognizes (matcher r) l) {p : Place} :
    (matchAt? a p).isSome = true ↔ p.passed = [] ∧ p.rest ∈ l := by
  have hnext : ∀ (q : Place) (g : Groups),
      ((if q.satisfies .textEnd then some (q, g) else none : Outcome).isSome = true ↔ q.rest = []) := by
    intro q g
    rw [Place.satisfies]
    cases q.rest <;> simp
  have hreaches : Reaches l p (fun q => q.rest = []) ↔ p.rest ∈ l := by
    constructor
    · rintro ⟨w, _, hp, hw, rfl⟩
      rw [hp, List.append_nil]
      exact hw
    · exact fun hw => ⟨p.rest, [], (List.append_nil _).symm, hw, rfl⟩
  have hblind : Blind fun q g => if q.satisfies .textEnd then some (q, g) else none :=
    fun q g g' => (hnext q g).trans (hnext q g').symm
  rw [isSome_matchAt?, matcher_anchored ht hr, ← hreaches]
  dsimp only
  rw [Place.satisfies]
  split
  · next hpassed =>
    rw [and_iff_right (List.isEmpty_iff.mp hpassed), h p [] _ hblind]
    exact Reaches.congr fun q => hnext q []
  · next hpassed => exact iff_of_false Bool.false_ne_true fun hno => hpassed (List.isEmpty_iff.mpr hno.1)

end Native

namespace CompiledPattern

open Native

variable {r : CompiledPattern} {l : Language Char} {text : List Char}

/-- A pattern is found in the texts that have a part in its language. -/
theorem isMatch_iff_infix (h : Recognizes (matcher r.tree) l) : r.isMatch text = true ↔ ∃ w ∈ l, w <:+: text := by
  show (search? r.tree [] text).isSome = true ↔ _
  rw [isSome_search?]
  simp only [matchAt?_iff h]
  constructor
  · rintro ⟨u, _, rfl, w, v, rfl, hw⟩
    exact ⟨w, hw, u, v, List.append_assoc _ _ _⟩
  · rintro ⟨w, hw, u, v, rfl⟩
    exact ⟨u, w ++ v, List.append_assoc _ _ _, w, v, rfl, hw⟩

/-- An anchored pattern is found in the texts of its language. -/
theorem isMatch_anchored_iff {t : Native.Tree CharSet} (ht : Regex.ofTree? t.anchored = some r.tree) {a : Regex}
    (ha : Regex.ofTree? t = some a) (h : Recognizes (matcher a) l) : r.isMatch text = true ↔ text ∈ l := by
  show (search? r.tree [] text).isSome = true ↔ _
  rw [isSome_search?]
  simp only [matchAt?_anchored_iff ht ha h, List.append_nil, List.reverse_eq_nil_iff]
  constructor
  · rintro ⟨_, v, rfl, rfl, hv⟩
    exact hv
  · exact fun h => ⟨[], text, rfl, rfl, h⟩

end CompiledPattern

end XmlPattern
