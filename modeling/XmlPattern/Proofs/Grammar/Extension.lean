import Mathlib.Data.List.Basic
import XmlPattern.Proofs.Scan.Course
import XmlPattern.Proofs.Xml.BlockNames

/-!
# Grammars that extend others

A grammar extends another if it has all that the other has: anchors and back-references, groups that do not capture,
names of blocks that nobody knows. What one grammar takes for a set of characters, a grammar that extends it takes for
the same set. The one thing that a tree of the smaller grammar can lose is the meaning of a bare `^` or `$`, which XPath
takes for anchors.

- `Regexp.legal_of_extends`: a tree without bare anchors stays legal, also at another depth and behind other groups.
- `Regexp.course_of_extends`: a scan of it does the same.
-/

namespace XmlPattern

open Grammar

/-- A grammar has what another one has. -/
structure Variant.Extends (w v : Variant) : Prop where
  xpath : v.isXPath = true → w.isXPath = true
  xpath30 : v.isXPath30 = true → w.isXPath30 = true
  lenient : v.isLenient = true → w.isLenient = true

/-- Options choose a grammar that extends the one of others, and all that matters to single characters alike. -/
structure Options.Extends (o' o : Options) : Prop where
  variant : o'.variant.Extends o.variant
  caseBlind : o'.caseBlind = o.caseBlind
  expandComplements : o'.expandComplements = o.expandComplements
  dotAll : o'.dotAll = o.dotAll

theorem Variant.Extends.refl {v : Variant} : v.Extends v := ⟨id, id, id⟩

theorem Options.Extends.refl {o : Options} : o.Extends o := ⟨.refl, rfl, rfl, rfl⟩

namespace Grammar

variable {v w : Variant} {o o' : Options}

/-! ## Escapes -/

/-- A block that one grammar knows has the same characters in a grammar that extends it. -/
theorem charsNamed?_of_extends (h : w.Extends v) {block : List Char}
    (hn : v.isLenient = true ∨ ∃ b ∈ Block.all, b.name.toList = block) :
    Block.charsNamed? w.isLenient block = Block.charsNamed? v.isLenient block := by
  rcases hn with hv | ⟨b, hb, hname⟩
  · rw [hv, h.lenient hv]
  · have hexact : ∀ loose, Block.charsNamed? loose block = Block.charsNamed? false block := by
      intro loose
      cases loose with
      | false => rfl
      | true => exact Block.charsNamed?_loose_of_mem hb hname
    rw [hexact w.isLenient, hexact v.isLenient]

theorem isKnownName_of_extends (h : w.Extends v) {name : List Char} (hn : IsKnownName v name) : IsKnownName w name := by
  unfold IsKnownName at hn ⊢
  split at hn
  · exact hn.imp_left h.lenient
  · exact hn

theorem namedChars_of_extends (h : w.Extends v) {name : List Char} (hn : IsKnownName v name) :
    namedChars w name = namedChars v name := by
  unfold namedChars
  split
  · rw [charsNamed?_of_extends h hn]
  · rfl

theorem nameWarnings_of_extends (h : w.Extends v) {name : List Char} (hn : IsKnownName v name) :
    nameWarnings w name = nameWarnings v name := by
  unfold nameWarnings
  split
  · rw [charsNamed?_of_extends h hn]
  · rfl

theorem escapable_of_extends (h : w.Extends v) {c : Char} (hc : c ∈ escapable v) : c ∈ escapable w := by
  unfold escapable at hc ⊢
  refine (List.mem_append.mp hc).elim (List.mem_append_left _) fun hc => List.mem_append_right _ ?_
  split at hc
  · next hv => rwa [if_pos (h.xpath hv)]
  · cases hc

theorem Single.legalMember_of_extends (h : w.Extends v) {x : Single} (hx : x.LegalMember v) : x.LegalMember w := by
  cases x with
  | plain c => exact hx
  | escaped letter => exact escapable_of_extends h hx

theorem SetEscape.legal_of_extends (h : w.Extends v) {e : SetEscape} (he : e.Legal v) : e.Legal w := by
  cases e with
  | letter c => exact he
  | property negated name => exact ⟨he.1, isKnownName_of_extends h he.2⟩

theorem SetEscape.chars_of_extends (h : o'.Extends o) {e : SetEscape} (he : e.Legal o.variant) :
    e.chars o' = e.chars o := by
  cases e with
  | letter c => rw [chars, chars, h.caseBlind]
  | property negated name => rw [chars, chars, h.caseBlind, namedChars_of_extends h.variant he.2]

theorem SetEscape.course_of_extends (h : w.Extends v) {e : SetEscape} (he : e.Legal v) : e.course w = e.course v := by
  cases e with
  | letter c => rfl
  | property negated name => rw [course, course, body, body, nameWarnings_of_extends h he.2]

/-! ## Class expressions -/

theorem ClassItem.legal_of_extends (h : w.Extends v) {i : ClassItem} (hi : i.Legal v) : i.Legal w := by
  cases i with
  | single x => exact x.legalMember_of_extends h hi
  | range lo hi' => exact ⟨lo.legalMember_of_extends h hi.1, hi'.legalMember_of_extends h hi.2.1, hi.2.2⟩
  | set e => exact e.legal_of_extends h hi

theorem ClassItem.chars_of_extends (h : o'.Extends o) {i : ClassItem} (hi : i.Legal o.variant) :
    i.chars o' = i.chars o := by
  cases i with
  | single x => rfl
  | range lo hi => rfl
  | set e => exact e.chars_of_extends h hi

theorem ClassItem.course_of_extends (h : w.Extends v) {i : ClassItem} (hi : i.Legal v) : i.course w = i.course v := by
  cases i with
  | single x => rfl
  | range lo hi => rfl
  | set e => exact e.course_of_extends h hi

theorem ClassGroup.legal_of_extends (h : w.Extends v) {g : ClassGroup} (hg : g.Legal v) : g.Legal w where
  nonempty := hg.nonempty
  items i hi := i.legal_of_extends h (hg.items i hi)
  caret := hg.caret

theorem withItems_of_extends (h : o'.Extends o) {items : List ClassItem}
    (hi : ∀ i ∈ items, i.Legal o.variant) (s : CharSet) :
    withItems o' s items = withItems o s items := by
  unfold withItems
  induction items generalizing s with
  | nil => rfl
  | cons i items ih =>
    obtain ⟨hfirst, hrest⟩ := List.forall_mem_cons.mp hi
    rw [List.foldl_cons, List.foldl_cons, i.chars_of_extends h hfirst, ih hrest]

theorem ClassGroup.chars_of_extends (h : o'.Extends o) {g : ClassGroup} (hg : g.Legal o.variant) :
    g.chars o' = g.chars o := by
  rw [chars, chars, listed, listed, h.caseBlind, withItems_of_extends h hg.items]

theorem ClassGroup.course_of_extends (h : w.Extends v) {g : ClassGroup} (hg : g.Legal v) : g.course w = g.course v := by
  have hitems : g.items.flatMap (ClassItem.course w) = g.items.flatMap (ClassItem.course v) :=
    List.flatMap_congr fun i hi => i.course_of_extends h (hg.items i hi)
  rw [course, course, members, members, hitems]

theorem ClassTree.legal_of_extends (h : w.Extends v) {t : ClassTree} (ht : t.Legal v) : t.Legal w := by
  induction t with
  | list g => exact g.legal_of_extends h ht
  | minus g t ih => exact ⟨g.legal_of_extends h ht.1, ht.2.1, ih ht.2.2⟩

theorem ClassTree.chars_of_extends (h : o'.Extends o) {t : ClassTree} (ht : t.Legal o.variant) :
    t.chars o' = t.chars o := by
  induction t with
  | list g => exact g.chars_of_extends h ht
  | minus g t ih => rw [chars, chars, g.chars_of_extends h ht.1, ih ht.2.2]

theorem ClassTree.course_of_extends (h : w.Extends v) {t : ClassTree} (ht : t.Legal v) (outer : Bool) :
    t.course w outer = t.course v outer := by
  induction t generalizing outer with
  | list g => rw [course, course, g.course_of_extends h ht]
  | minus g t ih => rw [course, course, g.course_of_extends h ht.1, ih ht.2.2]

/-! ## Atoms of one character -/

/-- An atom is a bare character that XPath takes for an anchor. -/
def Leaf.IsBareAnchor (l : Leaf) : Prop := ∃ c ∈ anchorChars, l = .single (.plain c)

/-- An atom is not one that only the second grammar takes for an anchor. -/
def Leaf.Keeps (v w : Variant) (l : Leaf) : Prop := w.isXPath = true → v.isXPath = true ∨ ¬ l.IsBareAnchor

theorem Leaf.legal_of_extends (h : w.Extends v) {l : Leaf} (hl : l.Legal v) (hkeeps : l.Keeps v w) : l.Legal w := by
  cases l with
  | dot => trivial
  | single x =>
    cases x with
    | plain c =>
      refine ⟨hl.1, fun hw hc => ?_⟩
      rcases hkeeps hw with hv | hbare
      · exact hl.2 hv hc
      · exact hbare ⟨c, hc, rfl⟩
    | escaped letter => exact escapable_of_extends h hl
  | set e => exact e.legal_of_extends h hl
  | charClass t => exact t.legal_of_extends h hl

theorem Leaf.course_of_extends (h : o'.Extends o) {l : Leaf} (hl : l.Legal o.variant) : l.course o' = l.course o := by
  have hfragment : ∀ m, Scan.memberFragment o' m = Scan.memberFragment o m := by
    intro m
    cases m with
    | char c => rw [Scan.memberFragment, Scan.memberFragment, h.caseBlind, h.expandComplements]
    | set s => rw [Scan.memberFragment, Scan.memberFragment, h.expandComplements]
  rw [course, course, fragment, fragment, hfragment]
  cases l with
  | dot => rw [member, member, h.dotAll]; rfl
  | single x => rfl
  | set e =>
    rw [member, member, e.chars_of_extends h hl, passing, passing, e.course_of_extends h.variant hl]
  | charClass t =>
    rw [member, member, t.chars_of_extends h hl, passing, passing, t.course_of_extends h.variant hl]

/-! ## Patterns -/

theorem Quantifier.legal_of_extends (h : w.Extends v) {q : Option Quantifier} (hq : ∀ x ∈ q, x.Legal v) :
    ∀ x ∈ q, x.Legal w :=
  fun x hx => ⟨(hq x hx).1, fun hlazy => h.xpath ((hq x hx).2 hlazy)⟩

variable {depth depth' : Nat} {G G' : Groups}

theorem Atom.endsBefore_of_legal {a : Atom} {ms : List Mark} (ha : a.Legal o depth G)
    (hG : o.variant.isXPath = true → G' = G) (he : a.EndsBefore G ms) : a.EndsBefore G' ms := by
  cases a with
  | reference digits => rwa [hG ha.1]
  | leaf l => trivial
  | anchor c => trivial
  | group capturing r => trivial

mutual

theorem Atom.legal_of_extends (h : o'.variant.Extends o.variant) : {depth depth' : Nat} → {G G' : Groups} → (a : Atom) →
    depth' + o.maxDepth ≤ depth + o'.maxDepth → (o.variant.isXPath = true → G' = G) → a.Legal o depth G →
    a.Every (Leaf.Keeps o.variant o'.variant) → a.Legal o' depth' G'
  | _, _, _, _, .leaf l, _, _, ha, hkeeps => l.legal_of_extends h ha hkeeps
  | _, _, _, _, .anchor c, _, _, ha, _ => ⟨h.xpath ha.1, ha.2⟩
  | _, _, _, _, .reference digits, _, hG, ha, _ => by
    rw [hG ha.1]
    exact ⟨h.xpath ha.1, ha.2⟩
  | _, _, _, _, .group true r, hd, hG, ha, hkeeps =>
    ⟨by have := ha.1; omega, r.legal_of_extends h (by omega) (fun hx => congrArg Groups.open (hG hx)) ha.2 hkeeps⟩
  | _, _, _, _, .group false r, hd, hG, ha, hkeeps =>
    ⟨by have := ha.1; omega, h.xpath30 ha.2.1, r.legal_of_extends h (by omega) hG ha.2.2 hkeeps⟩

theorem Branch.legal_of_extends (h : o'.variant.Extends o.variant) :
    {depth depth' : Nat} → {G G' : Groups} → (b : Branch) →
    depth' + o.maxDepth ≤ depth + o'.maxDepth → (o.variant.isXPath = true → G' = G) → b.Legal o depth G →
    b.Every (Leaf.Keeps o.variant o'.variant) → b.Legal o' depth' G'
  | _, _, _, _, .nil, _, _, _, _ => trivial
  | _, _, _, _, .cons a _ b, hd, hG, hb, hkeeps =>
    ⟨a.legal_of_extends h hd hG hb.1 hkeeps.1, Quantifier.legal_of_extends h hb.2.1,
      a.endsBefore_of_legal hb.1 hG hb.2.2.1,
      b.legal_of_extends h hd (fun hx => congrArg (Atom.after · a) (hG hx)) hb.2.2.2 hkeeps.2⟩

/--
A pattern stays legal in a grammar that extends its own, at a depth that leaves as much room, and behind any groups if
it has no references.
-/
theorem Regexp.legal_of_extends (h : o'.variant.Extends o.variant) :
    {depth depth' : Nat} → {G G' : Groups} → (r : Regexp) →
    depth' + o.maxDepth ≤ depth + o'.maxDepth → (o.variant.isXPath = true → G' = G) → r.Legal o depth G →
    r.Every (Leaf.Keeps o.variant o'.variant) → r.Legal o' depth' G'
  | _, _, _, _, .branch b, hd, hG, hr, hkeeps => b.legal_of_extends h hd hG hr hkeeps
  | _, _, _, _, .bar b r, hd, hG, hr, hkeeps =>
    ⟨b.legal_of_extends h hd hG hr.1 hkeeps.1,
      r.legal_of_extends h hd (fun hx => congrArg (Branch.after · b) (hG hx)) hr.2 hkeeps.2⟩

end

end Grammar

/-! ## Scans -/

/-- What an event does, whatever the number of the group that it closes. -/
def Event.unnumbered : Event → Event
  | .closes _ => .closes 0
  | e => e

theorem written_unnumbered (es : List Event) : written (es.map Event.unnumbered) = written es := by
  induction es with
  | nil => rfl
  | cons e es ih =>
    cases e with
    | write f => exact congrArg (f :: ·) ih
    | pass u | mode b | opens | closes n | warns r => exact ih

theorem warned_unnumbered (es : List Event) : warned (es.map Event.unnumbered) = warned es := by
  induction es with
  | nil => rfl
  | cons e es ih =>
    cases e with
    | warns r => exact congrArg (r :: ·) ih
    | pass u | mode b | opens | closes n | write f => exact ih

namespace Grammar

variable {o o' : Options}

mutual

theorem Atom.course_of_extends (h : o'.Extends o) : {depth : Nat} → {G G' : Groups} → (a : Atom) → a.Legal o depth G →
    (o.variant.isXPath = true → G' = G) → (a.course o' G').map Event.unnumbered = (a.course o G).map Event.unnumbered
  | _, _, _, .leaf l, ha, _ => by rw [Atom.course, Atom.course, l.course_of_extends h ha]
  | _, _, _, .anchor c, _, _ => rfl
  | _, _, _, .reference digits, _, _ => by rw [Atom.course, Atom.course, h.caseBlind]
  | _, _, _, .group true r, ha, hG => by
    have hr := r.course_of_extends h ha.2 fun hx => congrArg Groups.open (hG hx)
    simp only [Atom.course, List.map_append, List.map_cons, hr, Event.unnumbered]
  | _, _, _, .group false r, ha, hG => by
    have hr := r.course_of_extends h ha.2.2 hG
    simp only [Atom.course, List.map_append, hr]

theorem Branch.course_of_extends (h : o'.Extends o) :
    {depth : Nat} → {G G' : Groups} → (b : Branch) → b.Legal o depth G →
    (o.variant.isXPath = true → G' = G) → (b.course o' G').map Event.unnumbered = (b.course o G).map Event.unnumbered
  | _, _, _, .nil, _, _ => rfl
  | _, _, _, .cons a _ b, hb, hG => by
    have ha := a.course_of_extends h hb.1 hG
    have hb := b.course_of_extends h hb.2.2.2 fun hx => congrArg (Atom.after · a) (hG hx)
    simp only [Branch.course, List.map_append, ha, hb]

/--
A scan does the same for a pattern in a grammar that extends its own, and behind any groups if there are no references.
-/
theorem Regexp.course_of_extends (h : o'.Extends o) :
    {depth : Nat} → {G G' : Groups} → (r : Regexp) → r.Legal o depth G →
    (o.variant.isXPath = true → G' = G) → (r.course o' G').map Event.unnumbered = (r.course o G).map Event.unnumbered
  | _, _, _, .branch b, hr, hG => b.course_of_extends h hr hG
  | _, _, _, .bar b r, hr, hG => by
    have hb := b.course_of_extends h hr.1 hG
    have hr := r.course_of_extends h hr.2 fun hx => congrArg (Branch.after · b) (hG hx)
    simp only [Regexp.course, List.map_append, hb, hr]

end

end Grammar

end XmlPattern
