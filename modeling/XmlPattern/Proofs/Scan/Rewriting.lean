import XmlPattern.Proofs.Scan.Brackets

/-!
# Rewriting

Events that pass one text and write another in its place, warning of nothing. The events of a syntax tree of a native
pattern do so: they pass what the tree is written as, and write it with clamped bounds.

- `Rewrites`, `Turns`: events and the two texts.
- `turns_quantifier`: a quantifier turns into the one with clamped bounds.
- `Regexp.turns`: a pattern turns into the one with clamped bounds.
-/

namespace XmlPattern

open CodeUnit Grammar

/-! ## Events that turn one text into another -/

/-- Events pass one text and write another, without a warning. -/
structure Rewrites (es : List Event) (text out : List Char) : Prop where
  taken : taken es = encode text
  written : Fragment.textOf .scalar (written es) = out
  warned : warned es = []

/-- Events outside classes pass one text and write another, and lead from groups to others. -/
structure Turns (G : Groups) (es : List Event) (text out : List Char) (G' : Groups) : Prop extends
    Rewrites es text out where
  mode : modeAfter false es = false
  groups : groupsAfter G es = G'

section

variable {G G₁ G₂ : Groups} {es fs : List Event} {a b a' b' : List Char}

theorem Rewrites.append (h : Rewrites es a a') (h' : Rewrites fs b b') : Rewrites (es ++ fs) (a ++ b) (a' ++ b') where
  taken := by rw [taken_append, h.taken, h'.taken, encode, encode, encode, List.flatMap_append]
  written := by rw [written_append, Fragment.textOf_append, h.written, h'.written]
  warned := by rw [warned_append, h.warned, h'.warned, List.append_nil]

theorem Turns.append (h : Turns G es a a' G₁) (h' : Turns G₁ fs b b' G₂) :
    Turns G (es ++ fs) (a ++ b) (a' ++ b') G₂ where
  toRewrites := h.toRewrites.append h'.toRewrites
  mode := by rw [modeAfter_append, h.mode, h'.mode]
  groups := by rw [groupsAfter_append, h.groups, h'.groups]

/-- Copying a text warns of nothing, and changes neither the mode nor the groups. -/
theorem keeps_echo (text : List Char) :
    warned (echo text) = [] ∧ (∀ m, modeAfter m (echo text) = m) ∧ ∀ G, groupsAfter G (echo text) = G := by
  induction text with
  | nil => exact ⟨rfl, fun _ => rfl, fun _ => rfl⟩
  | cons c text ih =>
    have hfirst : warned (echoed c) = [] ∧ (∀ m, modeAfter m (echoed c) = m) ∧ ∀ G, groupsAfter G (echoed c) = G := by
      rcases CodeUnit.ofChar_cases c with ⟨u, h, _⟩ | ⟨u, v, h, _⟩
      · rw [echoed_of_single h]
        exact ⟨rfl, fun _ => rfl, fun _ => rfl⟩
      · rw [echoed_of_pair h]
        exact ⟨rfl, fun _ => rfl, fun _ => rfl⟩
    simp [echo_cons, warned_append, hfirst, ih]

theorem rewrites_echo (text : List Char) : Rewrites (echo text) text text :=
  ⟨taken_echo text, written_echo text, (keeps_echo text).1⟩

theorem rewrites_mode (m : Bool) : Rewrites [.mode m] [] [] := ⟨rfl, rfl, rfl⟩

theorem turns_echo (G : Groups) (text : List Char) : Turns G (echo text) text text G :=
  ⟨rewrites_echo text, (keeps_echo text).2.1 false, (keeps_echo text).2.2 G⟩

theorem turns_opens (G : Groups) : Turns G (echo ['('] ++ [.opens]) ['('] ['('] G.open :=
  (turns_echo G ['(']).append ⟨⟨rfl, rfl, rfl⟩, rfl, rfl⟩

theorem turns_class (G : Groups) (negated : Bool) (body : List Char) :
    Turns G (Scan.classEvents false negated body) (('[' :: if negated then ['^'] else []) ++ (body ++ [']']))
      (('[' :: if negated then ['^'] else []) ++ (body ++ [']'])) G where
  toRewrites := (rewrites_mode true).append ((rewrites_echo ('[' :: if negated then ['^'] else [])).append
    ((rewrites_echo body).append ((rewrites_mode false).append (rewrites_echo [']']))))
  mode := by simp [Scan.classEvents, Scan.classTail, modeAfter, keeps_echo]
  groups := by simp [Scan.classEvents, Scan.classTail, groupsAfter, keeps_echo]

theorem warned_quantifier (q : Option Quantifier) : warned (quantifierCourse q) = [] := by
  have hbound : ∀ digits, warned (boundCourse digits) = [] := by
    intro digits
    rw [boundCourse, warned_append, warned_reads]
    rfl
  have hcopies : ∀ c, warned (copies c) = [] := fun _ => rfl
  cases q with
  | none => rfl
  | some q =>
    obtain ⟨quantity, isLazy⟩ := q
    show warned (quantity.course ++ if isLazy then copies '?' else []) = []
    cases quantity <;> cases isLazy <;> simp [Quantity.course, warned_append, hbound, hcopies]

theorem encode_basic {cs : List Char} (h : ∀ c ∈ cs, c.toNat < 0x10000) : encode cs = basic cs := by
  induction cs with
  | nil => rfl
  | cons c cs ih =>
    obtain ⟨hc, hcs⟩ := List.forall_mem_cons.mp h
    rw [show encode (c :: cs) = ofChar c ++ encode cs from rfl, ih hcs, ofChar, if_pos hc]
    rfl

/-- A quantifier is read, and written with clamped bounds. -/
theorem turns_quantifier (G : Groups) {v : Variant} {q : Option Quantifier} (h : ∀ x ∈ q, x.Legal v) :
    Turns G (quantifierCourse q) (q.elim [] Quantifier.text)
      ((q.map Quantifier.clamped).elim [] Quantifier.text) G where
  taken := by
    rw [(reads_of_quantifier q).taken, encode_basic]
    intro c hc
    rcases mem_quantifierText h hc with hc | hc
    · have hall : ∀ c ∈ quantifierChars, c.toNat < 0x10000 := List.all_iff_forall_prop.mp (by decide)
      exact hall c hc
    · have := Scan.isDigit_lt hc
      omega
  written := (written_quantifier _ q).trans (Quantifier.text_clamped q).symm
  warned := warned_quantifier q
  mode := (reads_of_quantifier q).mode false
  groups := (reads_of_quantifier q).groups G

end

/-! ## The course of a tree -/

namespace Verbatim

/-- Copies an atom without a pattern inside. -/
def Leaf.course : Leaf → List Event
  | charClass negated body => Scan.classEvents false negated body
  | l => echo l.text

mutual

/-- Copies an atom behind some groups. -/
def Atom.course : Groups → Atom → List Event
  | _, .leaf l => l.course
  | G, .capturing r => echo ['('] ++ .opens :: (r.course G.open ++ .closes (G.opened + 1) :: echo [')'])
  | G, .group flags sign r => echo ('(' :: '?' :: (flags ++ [sign])) ++ (r.course G ++ echo [')'])

/-- Copies a branch behind some groups. -/
def Branch.course : Groups → Branch → List Event
  | _, .nil => []
  | G, .cons a q b => a.course G ++ (quantifierCourse q ++ b.course (a.after G))

/-- Copies a pattern behind some groups, with clamped bounds. -/
def Regexp.course : Groups → Regexp → List Event
  | G, .branch b => b.course G
  | G, .bar b r => b.course G ++ (echo ['|'] ++ r.course (b.after G))

end

theorem Leaf.turns (G : Groups) (l : Leaf) : Turns G l.course l.text l.text G := by
  cases l with
  | charClass negated body => exact turns_class G negated body
  | char c => exact turns_echo G [c]
  | escape e => exact turns_echo G e.text
  | flags fs => exact turns_echo G _

mutual

theorem Atom.turns {o : Options} : (G : Groups) → (a : Atom) → {depth : Nat} → a.Legal o depth →
    Turns G (a.course G) a.text a.clamped.text (a.after G)
  | G, .leaf l, _, _ => l.turns G
  | G, .capturing r, _, h =>
    have hclose : Turns (r.after G.open) (.closes (G.opened + 1) :: echo [')']) [')'] [')']
        ((r.after G.open).close (G.opened + 1)) := ⟨⟨rfl, rfl, rfl⟩, rfl, rfl⟩
    (turns_opens G).append ((r.turns G.open h.2).append hclose)
  | G, .group _ _ r, _, h =>
    (turns_echo G _).append ((r.turns G h.2.2.2).append (turns_echo _ [')']))

theorem Branch.turns {o : Options} : (G : Groups) → (b : Branch) → {depth : Nat} → b.Legal o depth →
    Turns G (b.course G) b.text b.clamped.text (b.after G)
  | G, .nil, _, _ => turns_echo G []
  | G, .cons a _ b, _, h =>
    (a.turns G h.1).append ((turns_quantifier (a.after G) h.2.1).append (b.turns (a.after G) h.2.2.2))

/-- The events of a pattern pass what it is written as, and write it with clamped bounds. -/
theorem Regexp.turns {o : Options} : (G : Groups) → (r : Regexp) → {depth : Nat} → r.Legal o depth →
    Turns G (r.course G) r.text r.clamped.text (r.after G)
  | G, .branch b, _, h => b.turns G h
  | G, .bar b r, _, h => (b.turns G h.1).append ((turns_echo (b.after G) ['|']).append (r.turns (b.after G) h.2))

end

end Verbatim

end XmlPattern
