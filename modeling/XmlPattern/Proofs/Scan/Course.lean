import XmlPattern.Proofs.Scan.Spelling
import XmlPattern.Scan.Grammar

/-!
# The course of a scan

What the scanners do with a syntax tree, as a list of events: the units of the tree are passed in order, and the
fragments of its atoms are written in between. The sets of characters are those that the scanners compute.

- `Regexp.passed_course`: the events of a tree pass what it is written as.
- `Regexp.groupsAfter_course`: they open and close the groups of the tree.
-/

namespace XmlPattern.Grammar

open Unicode

/-! ## Quantifiers -/

/-- Reads a bound, and writes it once it is read. -/
def boundCourse (digits : List Char) : List Event :=
  reads (basic digits) ++ [.write (.verbatim (boundText digits))]

@[simp]
theorem taken_boundCourse (digits : List Char) : taken (boundCourse digits) = basic digits := by
  rw [boundCourse, taken_append, taken_reads]
  exact List.append_nil _

@[simp]
theorem written_boundCourse (digits : List Char) : written (boundCourse digits) = [.verbatim (boundText digits)] := by
  rw [boundCourse, written_append, written_reads]
  rfl

/-- Reads a quantity and writes it. -/
def Quantity.course : Quantity → List Event
  | star => copies '*'
  | plus => copies '+'
  | option => copies '?'
  | exactly digits => copies '\x7b' ++ boundCourse digits ++ copies '\x7d'
  | atLeast digits => copies '\x7b' ++ boundCourse digits ++ copies ',' ++ copies '\x7d'
  | between lower upper => copies '\x7b' ++ boundCourse lower ++ copies ',' ++ boundCourse upper ++ copies '\x7d'

/-- Reads a quantifier and writes it. -/
def Quantifier.course (q : Quantifier) : List Event := q.quantity.course ++ if q.isLazy then copies '?' else []

/-- Reads a quantifier and writes it, if there is one. -/
def quantifierCourse (q : Option Quantifier) : List Event := q.elim [] Quantifier.course

/-! ## Escapes -/

/-- The characters that a name in braces stands for. -/
def namedChars (v : Variant) : List Char → CharSet
  | 'I' :: 's' :: block => (Block.charsNamed? v.isLenient block).getD .full
  | code => (Category.charsOfCode? code).getD ∅

/-- The warning that the name of a block causes if no block has it. -/
def nameWarnings (v : Variant) : List Char → List Event
  | 'I' :: 's' :: block => if (Block.charsNamed? v.isLenient block).isNone then [.warns (.toleratedBlock block)] else []
  | _ => []

/-- The characters that a set escape stands for. -/
def SetEscape.chars (o : Options) : SetEscape → CharSet
  | letter c => resolve o.caseBlind c.isUpper ((Escape.ofLetter? c.toLower).getD ∅)
  | property negated name => resolve o.caseBlind negated (namedChars o.variant (CodeUnit.decodeLossy name))

/-- Reads what is behind the backslash of a set escape. -/
def SetEscape.body (v : Variant) : SetEscape → List Event
  | letter c => reads [unit c]
  | property negated name =>
    reads (basic [if negated then 'P' else 'p', '\x7b'] ++ name) ++
      nameWarnings v (CodeUnit.decodeLossy name) ++ reads [unit '\x7d']

/-- Reads a set escape. -/
def SetEscape.course (v : Variant) (e : SetEscape) : List Event := reads [unit '\\'] ++ e.body v

/-! ## Class expressions -/

/-- The characters that an item of a list adds. -/
def ClassItem.chars (o : Options) : ClassItem → CharSet
  | single x => .single x.char
  | range lo hi => .span lo.char.toNat hi.char.toNat
  | set e => e.chars o

/-- Reads an item of a list. -/
def ClassItem.course (v : Variant) : ClassItem → List Event
  | single x => reads x.units
  | range lo hi => reads (lo.units ++ unit '-' :: hi.units)
  | set e => e.course v

/-- A set with a hyphen added, if there is one. -/
def withHyphen (hyphen : Bool) (s : CharSet) : CharSet := if hyphen then s ∪ .single '-' else s

/-- A set with all that items add, one after another. -/
def withItems (o : Options) (s : CharSet) (items : List ClassItem) : CharSet :=
  items.foldl (fun s i => s ∪ i.chars o) s

/-- The characters that a list names, before case and the caret are taken into account. -/
def ClassGroup.listed (o : Options) (g : ClassGroup) : CharSet :=
  withHyphen g.hyphenLast (withItems o (withHyphen g.hyphenFirst ∅) g.items)

/-- The characters that a list stands for. -/
def ClassGroup.chars (o : Options) (g : ClassGroup) : CharSet := resolve o.caseBlind g.negated (g.listed o)

/-- Reads a hyphen, if there is one. -/
def hyphenCourse (hyphen : Bool) : List Event := reads (if hyphen then [unit '-'] else [])

/-- Reads what a list names, from behind the caret on. -/
def ClassGroup.members (v : Variant) (g : ClassGroup) : List Event :=
  hyphenCourse g.hyphenFirst ++ g.items.flatMap (ClassItem.course v) ++ hyphenCourse g.hyphenLast

/-- Reads a list. -/
def ClassGroup.course (v : Variant) (g : ClassGroup) : List Event :=
  reads (if g.negated then [unit '^'] else []) ++ g.members v

/-- The characters that a class expression stands for. -/
def ClassTree.chars (o : Options) : ClassTree → CharSet
  | list g => g.chars o
  | minus g c => g.chars o \ c.chars o

/-- Reads a class expression, its brackets included, from a place that is inside another or not. -/
def ClassTree.course (v : Variant) (outer : Bool) : ClassTree → List Event
  | list g => [.mode true, .pass (unit '[')] ++ g.course v ++ [.mode outer, .pass (unit ']')]
  | minus g c =>
    [.mode true, .pass (unit '[')] ++ g.course v ++ [.pass (unit '-')] ++ c.course v true ++
      [.mode outer, .pass (unit ']')]

/-! ## Atoms for one character -/

/-- What an atom for one character stands for. -/
def Leaf.member (o : Options) : Leaf → Member
  | dot => .set (Scan.dotChars o.dotAll)
  | single x => .char x.char
  | set e => .set (e.chars o)
  | charClass c => .set (c.chars o)

/-- The fragment of an atom for one character. -/
def Leaf.fragment (o : Options) (l : Leaf) : Fragment := Scan.memberFragment o (l.member o)

/-- Reads an atom for one character. -/
def Leaf.passing (v : Variant) : Leaf → List Event
  | dot => reads [unit '.']
  | single x => reads x.units
  | set e => e.course v
  | charClass c => c.course v false

/-- Reads an atom for one character and writes its fragment. -/
def Leaf.course (o : Options) (l : Leaf) : List Event := l.passing o.variant ++ [.write (l.fragment o)]

/-! ## Patterns -/

mutual

/-- Reads an atom behind some groups and writes it. -/
def Atom.course (o : Options) : Groups → Atom → List Event
  | _, .leaf l => l.course o
  | _, .anchor c => copies c
  | _, .reference digits =>
    reads (basic ('\\' :: digits)) ++ [.write (.reference (Numeral.ofDecimal digits) o.caseBlind)]
  | G, .group true r =>
    [.pass (unit '('), .opens, .write (.verbatim ['('])] ++ r.course o G.open ++
      .closes (G.opened + 1) :: copies ')'
  | G, .group false r =>
    reads (basic ['(', '?', ':']) ++ [.write (.verbatim ['(', '?', ':'])] ++ r.course o G ++ copies ')'

/-- Reads a branch behind some groups and writes it. -/
def Branch.course (o : Options) : Groups → Branch → List Event
  | _, .nil => []
  | G, .cons a q b => a.course o G ++ quantifierCourse q ++ b.course o (a.after G)

/-- Reads a pattern behind some groups and writes it. -/
def Regexp.course (o : Options) : Groups → Regexp → List Event
  | G, .branch b => b.course o G
  | G, .bar b r => b.course o G ++ copies '|' ++ r.course o (b.after G)

end

/-! ## What the events of a tree pass, and what they leave behind -/

/-- Events that pass units in one mode, and neither open nor close a group. -/
structure Reads (es : List Event) (us : List CodeUnit) : Prop where
  passed : ∀ b, passed b es = us.map (·, b)
  mode : ∀ b, modeAfter b es = b
  groups : ∀ G, groupsAfter G es = G

theorem Reads.append {es fs : List Event} {us vs : List CodeUnit} (he : Reads es us) (hf : Reads fs vs) :
    Reads (es ++ fs) (us ++ vs) where
  passed b := by simp [he.passed, he.mode, hf.passed]
  mode b := by simp [he.mode, hf.mode]
  groups G := by simp [he.groups, hf.groups]

theorem Reads.taken {es : List Event} {us : List CodeUnit} (h : Reads es us) : taken es = us := by
  rw [← map_passed false, h.passed, List.map_map]
  exact List.map_id us

theorem reads_of_reads (us : List CodeUnit) : Reads (reads us) us :=
  ⟨fun b => passed_reads b us, fun b => modeAfter_reads b us, fun G => groupsAfter_reads G us⟩

theorem reads_of_copies (c : Char) : Reads (copies c) [unit c] := ⟨fun _ => rfl, fun _ => rfl, fun _ => rfl⟩

theorem reads_of_bound (digits : List Char) : Reads (boundCourse digits) (basic digits) := by
  have h := (reads_of_reads (basic digits)).append
    (⟨fun _ => rfl, fun _ => rfl, fun _ => rfl⟩ : Reads [.write (.verbatim (boundText digits))] [])
  rwa [List.append_nil] at h

theorem Quantity.reads_of_course (q : Quantity) : Reads q.course (basic q.text) := by
  cases q with
  | star => exact reads_of_copies _
  | plus => exact reads_of_copies _
  | option => exact reads_of_copies _
  | exactly digits =>
    simpa [text, course] using ((reads_of_copies '\x7b').append (reads_of_bound digits)).append (reads_of_copies '\x7d')
  | atLeast digits =>
    simpa [text, course] using
      (((reads_of_copies '\x7b').append (reads_of_bound digits)).append (reads_of_copies ',')).append
        (reads_of_copies '\x7d')
  | between lower upper =>
    simpa [text, course] using
      ((((reads_of_copies '\x7b').append (reads_of_bound lower)).append (reads_of_copies ',')).append
        (reads_of_bound upper)).append (reads_of_copies '\x7d')

theorem reads_of_quantifier (q : Option Quantifier) :
    Reads (quantifierCourse q) (basic (q.elim [] Quantifier.text)) := by
  cases q with
  | none => exact reads_of_reads []
  | some q =>
    show Reads q.course (basic q.text)
    unfold Quantifier.course Quantifier.text
    rw [basic_append]
    refine (Quantity.reads_of_course _).append ?_
    cases q.isLazy with
    | false => exact reads_of_reads []
    | true => exact reads_of_copies '?'

theorem reads_of_warnings (v : Variant) (name : List Char) : Reads (nameWarnings v name) [] := by
  unfold nameWarnings
  split
  · split
    · exact ⟨fun _ => rfl, fun _ => rfl, fun _ => rfl⟩
    · exact reads_of_reads []
  · exact reads_of_reads []

theorem SetEscape.reads_of_course (v : Variant) (e : SetEscape) : Reads (e.course v) e.units := by
  cases e with
  | letter c => exact (reads_of_reads [unit '\\']).append (reads_of_reads [unit c])
  | property negated name =>
    have h := ((reads_of_reads (basic [if negated then 'P' else 'p', '\x7b'] ++ name)).append
      (reads_of_warnings v (CodeUnit.decodeLossy name))).append (reads_of_reads [unit '\x7d'])
    rw [List.append_nil] at h
    exact (reads_of_reads [unit '\\']).append h

theorem ClassItem.reads_of_course (v : Variant) (i : ClassItem) : Reads (i.course v) i.units := by
  cases i with
  | single x => exact reads_of_reads _
  | range lo hi => exact reads_of_reads _
  | set e => exact e.reads_of_course v

theorem reads_of_items (v : Variant) (items : List ClassItem) :
    Reads (items.flatMap (ClassItem.course v)) (items.flatMap ClassItem.units) := by
  induction items with
  | nil => exact reads_of_reads []
  | cons i items ih => exact (i.reads_of_course v).append ih

theorem ClassGroup.reads_of_course (v : Variant) (g : ClassGroup) : Reads (g.course v) g.units := by
  have h := (reads_of_reads (if g.negated then [unit '^'] else [])).append
    (((reads_of_reads (if g.hyphenFirst then [unit '-'] else [])).append (reads_of_items v g.items)).append
      (reads_of_reads (if g.hyphenLast then [unit '-'] else [])))
  unfold ClassGroup.units
  simpa only [course, members, hyphenCourse, List.append_assoc] using h

theorem ClassTree.passed_course (v : Variant) (b outer : Bool) (c : ClassTree) :
    passed b (c.course v outer) = inside (unit '[' :: c.units) ++ [(unit ']', outer)] ∧
      modeAfter b (c.course v outer) = outer ∧ ∀ G, groupsAfter G (c.course v outer) = G := by
  induction c generalizing b outer with
  | list g =>
    have h := g.reads_of_course v
    simp [course, passed, modeAfter, groupsAfter, h.passed, h.groups, inside, units]
  | minus g c ih =>
    have h := g.reads_of_course v
    have hc := ih true true
    simp [course, passed, modeAfter, groupsAfter, h.passed, h.mode, h.groups, inside, units, hc]

theorem Leaf.passed_course (o : Options) (l : Leaf) :
    passed false (l.course o) = l.marks ∧ modeAfter false (l.course o) = false ∧
      ∀ G, groupsAfter G (l.course o) = G := by
  cases l with
  | dot => exact ⟨rfl, rfl, fun _ => rfl⟩
  | single x => simp [course, passing, passed, modeAfter, groupsAfter, marks, outside]
  | set e =>
    have h := e.reads_of_course o.variant
    simp [course, passing, passed, modeAfter, groupsAfter, h.passed, h.mode, h.groups, marks, outside]
  | charClass c =>
    have h := c.passed_course o.variant false false
    simp [course, passing, passed, modeAfter, groupsAfter, h, marks, outside]

theorem quantifierCourse_passed (q : Option Quantifier) : passed false (quantifierCourse q) = quantifierMarks q :=
  (reads_of_quantifier q).passed false

mutual

theorem Atom.passed_course (o : Options) : (G : Groups) → (a : Atom) →
    passed false (a.course o G) = a.marks ∧ modeAfter false (a.course o G) = false ∧
      groupsAfter G (a.course o G) = a.after G
  | G, .leaf l => ⟨(l.passed_course o).1, (l.passed_course o).2.1, (l.passed_course o).2.2 G⟩
  | G, .anchor c => ⟨rfl, rfl, rfl⟩
  | G, .reference digits => by
    simp [Atom.course, passed, modeAfter, groupsAfter, Atom.marks, Atom.after, outside]
  | G, .group true r => by
    have h := r.passed_course o G.open
    simp [Atom.course, passed, modeAfter, groupsAfter, Atom.marks, Atom.after, outside, h]
  | G, .group false r => by
    have h := r.passed_course o G
    simp [Atom.course, passed, modeAfter, groupsAfter, Atom.marks, Atom.after, outside, h]

theorem Branch.passed_course (o : Options) : (G : Groups) → (b : Branch) →
    passed false (b.course o G) = b.marks ∧ modeAfter false (b.course o G) = false ∧
      groupsAfter G (b.course o G) = b.after G
  | G, .nil => ⟨rfl, rfl, rfl⟩
  | G, .cons a q b => by
    have ha := a.passed_course o G
    have hq := reads_of_quantifier q
    have hb := b.passed_course o (a.after G)
    simp [Branch.course, Branch.marks, Branch.after, ha, hb, hq.mode, hq.groups, quantifierCourse_passed]

/-- The events of a pattern pass what it is written as, end outside classes, and open and close its groups. -/
theorem Regexp.passed_course (o : Options) : (G : Groups) → (r : Regexp) →
    passed false (r.course o G) = r.marks ∧ modeAfter false (r.course o G) = false ∧
      groupsAfter G (r.course o G) = r.after G
  | G, .branch b => b.passed_course o G
  | G, .bar b r => by
    have hb := b.passed_course o G
    have hr := r.passed_course o (b.after G)
    simp [Regexp.course, Regexp.marks, Regexp.after, outside, hb, hr]

end

end XmlPattern.Grammar
