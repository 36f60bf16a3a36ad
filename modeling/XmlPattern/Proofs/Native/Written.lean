import XmlPattern.Proofs.Scan.Course

/-!
# What is written for a syntax tree

The text that a dialect makes of the fragments of a tree, part by part. What stands between the atoms reads alike in
both dialects: bars, parentheses, anchors and quantifiers stand as they are. `boundText` is the text of a bound.

- `Atom.text`, `Branch.text`, `Regexp.text`: the text of each part, with its equations.
- `Regexp.written_iff`: what holds of all fragments of atoms of one character.
-/

namespace XmlPattern

/-- A property says nothing of fragments that are for no atom of one character. -/
structure Fragment.AboutAtoms (P : Fragment → Prop) : Prop where
  verbatim : ∀ text, P (.verbatim text)
  reference : ∀ number caseBlind, P (.reference number caseBlind)

namespace Grammar

/-! ## What passes without being written -/

theorem written_warnings (v : Variant) (name : List Char) : written (nameWarnings v name) = [] := by
  unfold nameWarnings
  split
  · split <;> rfl
  · rfl

theorem SetEscape.written_course (v : Variant) (e : SetEscape) : written (e.course v) = [] := by
  cases e with
  | letter c => rfl
  | property negated name => simp only [course, body, written_append, written_reads, written_warnings, List.append_nil]

theorem ClassItem.written_course (v : Variant) (i : ClassItem) : written (i.course v) = [] := by
  cases i with
  | single x => exact written_reads _
  | range lo hi => exact written_reads _
  | set e => exact e.written_course v

theorem written_items (v : Variant) (items : List ClassItem) : written (items.flatMap (ClassItem.course v)) = [] := by
  induction items with
  | nil => rfl
  | cons i items ih => rw [List.flatMap_cons, written_append, i.written_course, ih, List.append_nil]

theorem ClassGroup.written_course (v : Variant) (g : ClassGroup) : written (g.course v) = [] := by
  simp [course, members, hyphenCourse, written_items]

theorem ClassTree.written_course (v : Variant) (outer : Bool) (t : ClassTree) : written (t.course v outer) = [] := by
  induction t generalizing outer with
  | list g =>
    have h := g.written_course v
    simp only [course, written_append, h, List.append_nil]
    rfl
  | minus g t ih =>
    have h := g.written_course v
    simp only [course, written_append, h, ih, List.append_nil]
    rfl

theorem Leaf.written_course (o : Options) (l : Leaf) : written (l.course o) = [l.fragment o] := by
  have h : written (l.passing o.variant) = [] := by
    cases l with
    | dot => rfl
    | single x => exact written_reads _
    | set e => exact e.written_course _
    | charClass t => exact t.written_course _ _
  rw [course, written_append, h]
  rfl

/-! ## Quantifiers -/

/-- The text of a quantity. -/
def Quantity.written : Quantity → List Char
  | star => ['*']
  | plus => ['+']
  | option => ['?']
  | exactly digits => '\x7b' :: boundText digits ++ ['\x7d']
  | atLeast digits => '\x7b' :: boundText digits ++ [',', '\x7d']
  | between lower upper => '\x7b' :: boundText lower ++ ',' :: boundText upper ++ ['\x7d']

/-- The text of a quantifier, if there is one. -/
def quantifierText : Option Quantifier → List Char
  | none => []
  | some q => q.quantity.written ++ if q.isLazy then ['?'] else []

theorem written_quantifier (d : Dialect) (q : Option Quantifier) :
    Fragment.textOf d (written (quantifierCourse q)) = quantifierText q := by
  cases q with
  | none => rfl
  | some q =>
    obtain ⟨quantity, isLazy⟩ := q
    have hquantity : Fragment.textOf d (written quantity.course) = quantity.written := by
      cases quantity <;>
        simp [Quantity.course, Quantity.written, Fragment.textOf, Fragment.text]
    have hlazy : Fragment.textOf d (written (if isLazy then copies '?' else [])) = if isLazy then ['?'] else [] := by
      cases isLazy <;> rfl
    show Fragment.textOf d (written (quantity.course ++ _)) = _
    rw [written_append, Fragment.textOf_append, hquantity, hlazy]
    rfl

/-! ## Patterns -/

section

variable (d : Dialect) (o : Options) (G : Groups)

/-- The text of an atom behind some groups. -/
def Atom.text (a : Atom) : List Char := Fragment.textOf d (written (a.course o G))

/-- The text of a branch behind some groups. -/
def Branch.text (b : Branch) : List Char := Fragment.textOf d (written (b.course o G))

/-- The text of a pattern behind some groups. -/
def Regexp.text (r : Regexp) : List Char := Fragment.textOf d (written (r.course o G))

theorem Atom.text_leaf (l : Leaf) : (Atom.leaf l).text d o G = (l.fragment o).text d := by
  unfold text
  rw [Atom.course, l.written_course]
  exact List.append_nil _

theorem Atom.text_anchor (c : Char) : (Atom.anchor c).text d o G = [c] := rfl

theorem Atom.text_reference (digits : List Char) :
    (Atom.reference digits).text d o G =
      (Fragment.reference (Numeral.ofDecimal digits) o.caseBlind).text d := by
  unfold text
  rw [Atom.course, written_append, written_reads]
  exact List.append_nil _

theorem Atom.text_capturing (r : Regexp) :
    (Atom.group true r).text d o G = '(' :: r.text d o G.open ++ [')'] := by
  unfold text Regexp.text
  rw [Atom.course, List.append_assoc, written_append, written_append, Fragment.textOf_append, Fragment.textOf_append]
  rfl

theorem Atom.text_plain (r : Regexp) :
    (Atom.group false r).text d o G = ['(', '?', ':'] ++ r.text d o G ++ [')'] := by
  unfold text Regexp.text
  rw [Atom.course, written_append, written_append, written_append, Fragment.textOf_append, Fragment.textOf_append,
    written_reads]
  rfl

theorem Branch.text_nil : Branch.nil.text d o G = [] := rfl

theorem Branch.text_cons (a : Atom) (q : Option Quantifier) (b : Branch) :
    (Branch.cons a q b).text d o G = a.text d o G ++ quantifierText q ++ b.text d o (a.after G) := by
  unfold text Atom.text
  rw [Branch.course, written_append, written_append, Fragment.textOf_append, Fragment.textOf_append, written_quantifier]

theorem Regexp.text_branch (b : Branch) : (Regexp.branch b).text d o G = b.text d o G := rfl

theorem Regexp.text_bar (b : Branch) (r : Regexp) :
    (Regexp.bar b r).text d o G = b.text d o G ++ '|' :: r.text d o (b.after G) := by
  unfold text Branch.text
  rw [Regexp.course, written_append, written_append, Fragment.textOf_append, Fragment.textOf_append, List.append_assoc]
  rfl

end

/-! ## Fragments of atoms -/

/-- Events write nothing but what stands as it is. -/
def WritesVerbatim (es : List Event) : Prop := ∀ f ∈ written es, ∃ text, f = .verbatim text

theorem WritesVerbatim.append {es fs : List Event} (h : WritesVerbatim es) (h' : WritesVerbatim fs) :
    WritesVerbatim (es ++ fs) := by
  rw [WritesVerbatim, written_append, List.forall_mem_append]
  exact ⟨h, h'⟩

theorem WritesVerbatim.forall {P : Fragment → Prop} (hP : Fragment.AboutAtoms P) {es : List Event}
    (h : WritesVerbatim es) :
    ∀ f ∈ written es, P f := by
  intro f hf
  obtain ⟨text, rfl⟩ := h f hf
  exact hP.verbatim text

theorem writesVerbatim_copies (c : Char) : WritesVerbatim (copies c) :=
  fun _ hf => ⟨_, List.mem_singleton.mp hf⟩

theorem writesVerbatim_bound (digits : List Char) : WritesVerbatim (boundCourse digits) := by
  intro f hf
  rw [written_boundCourse] at hf
  exact ⟨_, List.mem_singleton.mp hf⟩

theorem writesVerbatim_quantity : (q : Quantity) → WritesVerbatim q.course
  | .star | .plus | .option => writesVerbatim_copies _
  | .exactly digits =>
    ((writesVerbatim_copies _).append (writesVerbatim_bound digits)).append (writesVerbatim_copies _)
  | .atLeast digits =>
    (((writesVerbatim_copies _).append (writesVerbatim_bound digits)).append (writesVerbatim_copies _)).append
      (writesVerbatim_copies _)
  | .between lower upper =>
    ((((writesVerbatim_copies _).append (writesVerbatim_bound lower)).append (writesVerbatim_copies _)).append
      (writesVerbatim_bound upper)).append (writesVerbatim_copies _)

theorem writesVerbatim_quantifier : (q : Option Quantifier) → WritesVerbatim (quantifierCourse q)
  | none => fun _ hf => nomatch hf
  | some ⟨quantity, true⟩ => (writesVerbatim_quantity quantity).append (writesVerbatim_copies _)
  | some ⟨quantity, false⟩ => (writesVerbatim_quantity quantity).append fun _ hf => nomatch hf

mutual

/-- Fragments of an atom have a property of such fragments exactly when those of its atoms of one character do. -/
theorem Atom.written_iff {P : Fragment → Prop} (hP : Fragment.AboutAtoms P) (o : Options) : (G : Groups) → (a : Atom) →
    ((∀ f ∈ written (a.course o G), P f) ↔ a.Every fun x => P (x.fragment o))
  | G, .leaf x => by
    rw [Atom.course, x.written_course, List.forall_mem_singleton]
    rfl
  | G, .anchor c => iff_of_true ((writesVerbatim_copies c).forall hP) trivial
  | G, .reference digits => by
    refine iff_of_true (fun f hf => ?_) trivial
    rw [Atom.course, written_append, written_reads] at hf
    obtain rfl := List.mem_singleton.mp hf
    exact hP.reference _ _
  | G, .group true r => by
    have hopen : WritesVerbatim [.pass (unit '('), .opens, .write (.verbatim ['('])] :=
      fun _ hf => ⟨_, List.mem_singleton.mp hf⟩
    have hclose : WritesVerbatim (.closes (G.opened + 1) :: copies ')') := fun _ hf => ⟨_, List.mem_singleton.mp hf⟩
    rw [Atom.course, written_append, written_append, List.forall_mem_append, List.forall_mem_append,
      and_iff_right (hopen.forall hP), and_iff_left (hclose.forall hP), r.written_iff hP o G.open]
    rfl
  | G, .group false r => by
    have hopen : WritesVerbatim (reads (basic ['(', '?', ':']) ++ [.write (.verbatim ['(', '?', ':'])]) :=
      fun _ hf => ⟨_, List.mem_singleton.mp hf⟩
    rw [Atom.course, written_append, written_append, List.forall_mem_append, List.forall_mem_append,
      and_iff_right (hopen.forall hP), and_iff_left ((writesVerbatim_copies _).forall hP), r.written_iff hP o G]
    rfl

theorem Branch.written_iff {P : Fragment → Prop} (hP : Fragment.AboutAtoms P) (o : Options) :
    (G : Groups) → (b : Branch) → ((∀ f ∈ written (b.course o G), P f) ↔ b.Every fun x => P (x.fragment o))
  | G, .nil => iff_of_true (fun _ hf => nomatch hf) trivial
  | G, .cons a q b => by
    rw [Branch.course, written_append, written_append, List.forall_mem_append, List.forall_mem_append,
      a.written_iff hP o G, b.written_iff hP o (a.after G), and_iff_left ((writesVerbatim_quantifier q).forall hP)]
    rfl

/-- Fragments of a pattern have a property of such fragments exactly when those of its atoms of one character do. -/
theorem Regexp.written_iff {P : Fragment → Prop} (hP : Fragment.AboutAtoms P) (o : Options) :
    (G : Groups) → (r : Regexp) → ((∀ f ∈ written (r.course o G), P f) ↔ r.Every fun x => P (x.fragment o))
  | G, .branch b => b.written_iff hP o G
  | G, .bar b r => by
    rw [Regexp.course, written_append, written_append, List.forall_mem_append, List.forall_mem_append,
      b.written_iff hP o G, r.written_iff hP o (b.after G), and_iff_left ((writesVerbatim_copies _).forall hP)]
    rfl

end

end Grammar

end XmlPattern
