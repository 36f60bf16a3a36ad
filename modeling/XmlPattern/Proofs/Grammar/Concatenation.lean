import XmlPattern.Proofs.Grammar.Captures
import XmlPattern.Proofs.Grammar.Extension

/-!
# Patterns put together

A pattern behind another, two patterns with a bar between them, and a pattern in parentheses are patterns again. A scan
of each does what scans of its parts do, one behind the other. Only back-references could tell a part what stands in
front of it or behind it, so the grammars without them let parts be put together as they are.

- `Regexp.append`, `Regexp.alternate`, `Regexp.captured`: the three ways.
- `Regexp.opened_after`: the groups of a part are counted on from those in front of it.
-/

namespace XmlPattern.Grammar

/-! ## Trees -/

/-- A branch and another behind it. -/
def Branch.append : Branch → Branch → Branch
  | .nil, b' => b'
  | .cons a q b, b' => .cons a q (b.append b')

/-- A branch in front of a pattern. -/
def Branch.before (b : Branch) : Regexp → Regexp
  | .branch b' => .branch (b.append b')
  | .bar b' r => .bar (b.append b') r

/-- A pattern and another behind it: the last branch of the one and the first branch of the other are one branch. -/
def Regexp.append : Regexp → Regexp → Regexp
  | .branch b, r' => b.before r'
  | .bar b r, r' => .bar b (r.append r')

/-- Two patterns with a bar between them. -/
def Regexp.alternate : Regexp → Regexp → Regexp
  | .branch b, r' => .bar b r'
  | .bar b r, r' => .bar b (r.alternate r')

/-- A pattern in parentheses. -/
def Regexp.captured (r : Regexp) : Regexp := .branch (.cons (.group true r) none .nil)

/-! ## Groups -/

mutual

theorem Atom.opened_after : {G G' : Groups} → {k : Nat} → (a : Atom) → G'.opened = G.opened + k →
    (a.after G').opened = (a.after G).opened + k
  | _, _, _, .leaf _, h | _, _, _, .anchor _, h | _, _, _, .reference _, h => h
  | _, _, _, .group true r, h => r.opened_after (by rw [Groups.open, Groups.open, h, Nat.add_right_comm])
  | _, _, _, .group false r, h => r.opened_after h

theorem Branch.opened_after : {G G' : Groups} → {k : Nat} → (b : Branch) → G'.opened = G.opened + k →
    (b.after G').opened = (b.after G).opened + k
  | _, _, _, .nil, h => h
  | _, _, _, .cons a _ b, h => b.opened_after (a.opened_after h)

/-- The groups of a pattern are counted on from those in front of it. -/
theorem Regexp.opened_after : {G G' : Groups} → {k : Nat} → (r : Regexp) → G'.opened = G.opened + k →
    (r.after G').opened = (r.after G).opened + k
  | _, _, _, .branch b, h => b.opened_after h
  | _, _, _, .bar b r, h => r.opened_after (b.opened_after h)

end

/-! ## A pattern behind another -/

theorem Branch.after_append : (G : Groups) → (b b' : Branch) → (b.append b').after G = b'.after (b.after G)
  | _, .nil, _ => rfl
  | G, .cons a _ b, b' => after_append (a.after G) b b'

theorem Regexp.after_before (G : Groups) (b : Branch) (r : Regexp) : (b.before r).after G = r.after (b.after G) := by
  cases r with
  | branch b' => exact b.after_append G b'
  | bar b' r => rw [Branch.before, after, after, b.after_append]

theorem Regexp.after_append : (G : Groups) → (r r' : Regexp) → (r.append r').after G = r'.after (r.after G)
  | G, .branch b, r' => after_before G b r'
  | G, .bar b r, r' => after_append (b.after G) r r'

section

variable (o : Options)

theorem Branch.course_append : (G : Groups) → (b b' : Branch) →
    (b.append b').course o G = b.course o G ++ b'.course o (b.after G)
  | _, .nil, _ => rfl
  | G, .cons a q b, b' => by
    rw [append, course, course, after, course_append (a.after G) b b', ← List.append_assoc]

theorem Regexp.course_before (G : Groups) (b : Branch) (r : Regexp) :
    (b.before r).course o G = b.course o G ++ r.course o (b.after G) := by
  cases r with
  | branch b' => exact b.course_append o G b'
  | bar b' r =>
    rw [Branch.before, course, course, b.course_append, b.after_append, List.append_assoc, List.append_assoc,
      List.append_assoc]

theorem Regexp.course_append : (G : Groups) → (r r' : Regexp) →
    (r.append r').course o G = r.course o G ++ r'.course o (r.after G)
  | G, .branch b, r' => course_before o G b r'
  | G, .bar b r, r' => by
    rw [append, course, course, after, course_append (b.after G) r r', ← List.append_assoc]

end

variable {o : Options} {depth : Nat} {G : Groups}

/-- Without back-references, an atom is over wherever it is. -/
theorem Atom.endsBefore_of_schema (hx : o.variant.isXPath = false) {a : Atom} (ha : a.Legal o depth G)
    (ms : List Mark) :
    a.EndsBefore G ms := by
  cases a with
  | reference digits => exact absurd (hx.symm.trans ha.1) Bool.false_ne_true
  | leaf l => trivial
  | anchor c => trivial
  | group capturing r => trivial

theorem Branch.legal_append (hx : o.variant.isXPath = false) : {G : Groups} → {b b' : Branch} → b.Legal o depth G →
    b'.Legal o depth (b.after G) → (b.append b').Legal o depth G
  | _, .nil, _, _, hb' => hb'
  | _, .cons _ _ _, _, hb, hb' =>
    ⟨hb.1, hb.2.1, Atom.endsBefore_of_schema hx hb.1 _, legal_append hx hb.2.2.2 hb'⟩

theorem Regexp.legal_before (hx : o.variant.isXPath = false) {b : Branch} {r : Regexp} (hb : b.Legal o depth G)
    (hr : r.Legal o depth (b.after G)) : (b.before r).Legal o depth G := by
  cases r with
  | branch b' => exact Branch.legal_append hx hb hr
  | bar b' r =>
    refine ⟨Branch.legal_append hx hb hr.1, ?_⟩
    rw [b.after_append]
    exact hr.2

theorem Regexp.legal_append (hx : o.variant.isXPath = false) : {G : Groups} → {r r' : Regexp} → r.Legal o depth G →
    r'.Legal o depth (r.after G) → (r.append r').Legal o depth G
  | _, .branch _, _, hr, hr' => legal_before hx hr hr'
  | _, .bar _ _, _, hr, hr' => ⟨hr.1, legal_append hx hr.2 hr'⟩

/-! ## Two patterns with a bar between them -/

theorem Regexp.after_alternate : (G : Groups) → (r r' : Regexp) → (r.alternate r').after G = r'.after (r.after G)
  | _, .branch _, _ => rfl
  | G, .bar b r, r' => after_alternate (b.after G) r r'

theorem Regexp.course_alternate (o : Options) : (G : Groups) → (r r' : Regexp) →
    (r.alternate r').course o G = r.course o G ++ copies '|' ++ r'.course o (r.after G)
  | _, .branch _, _ => rfl
  | G, .bar b r, r' => by
    rw [alternate, course, course, after, course_alternate o (b.after G) r r']
    simp only [List.append_assoc]

theorem Regexp.legal_alternate : {G : Groups} → {r r' : Regexp} → r.Legal o depth G → r'.Legal o depth (r.after G) →
    (r.alternate r').Legal o depth G
  | _, .branch _, _, hr, hr' => ⟨hr, hr'⟩
  | _, .bar _ _, _, hr, hr' => ⟨hr.1, legal_alternate hr.2 hr'⟩

/-! ## A pattern in parentheses -/

theorem Regexp.course_captured (o : Options) (G : Groups) (r : Regexp) :
    r.captured.course o G = [.pass (unit '('), .opens, .write (.verbatim ['('])] ++ r.course o G.open ++
      .closes (G.opened + 1) :: copies ')' := by
  rw [captured, course, Branch.course, Atom.course]
  simp [Branch.course, quantifierCourse]

theorem Regexp.legal_captured {r : Regexp} (hd : depth < o.maxDepth) (hr : r.Legal o (depth + 1) G.open) :
    r.captured.Legal o depth G :=
  ⟨⟨hd, hr⟩, nofun, trivial, trivial⟩

end XmlPattern.Grammar
