import XmlPattern.Proofs.Scan.Passage
import XmlPattern.Proofs.Scan.Patterns

/-!
# Where a scan warns

A scan warns of one thing, the name of a block that nobody knows, and does so on the brace behind the name. What holds
of every other event, of a warning together with the brace, and of events in a row, holds of whatever a scan does for a
pattern.

- `Regexp.course_induction`: that principle.
- `Regexp.warned_of_strict`: the grammars that are not lenient warn of nothing.
- `Regexp.warnsInside_course`: the unit that a warning is given on is passed next.
- `warnings_of_conversion`: the warnings of a conversion by the units that they are given on.
-/

namespace XmlPattern

open Grammar

/-! ## What holds of a scan -/

/-- A property that events have if their parts do, where a warning belongs to the brace behind it. -/
structure Event.Closed (v : Variant) (P : List Event → Prop) : Prop where
  nil : P []
  append : ∀ {es fs : List Event}, P es → P fs → P (es ++ fs)
  pass : ∀ u, P [.pass u]
  mode : ∀ b, P [.mode b]
  write : ∀ f, P [.write f]
  opens : P [.opens]
  closes : ∀ n, P [.closes n]
  name : ∀ {name : List Char}, IsKnownName v name → P (nameWarnings v name ++ [.pass (unit '\x7d')])

namespace Event.Closed

variable {v : Variant} {P : List Event → Prop}

theorem reads (h : Event.Closed v P) (us : List CodeUnit) : P (reads us) := by
  induction us with
  | nil => exact h.nil
  | cons u us ih => exact h.append (h.pass u) ih

theorem copies (h : Event.Closed v P) (c : Char) : P (copies c) :=
  h.append (h.write _) (h.pass _)

end Event.Closed

namespace Grammar

variable {v : Variant} {P : List Event → Prop}

theorem bound_induction (h : Event.Closed v P) (digits : List Char) : P (boundCourse digits) :=
  h.append (h.reads _) (h.write _)

theorem Quantity.course_induction (h : Event.Closed v P) (q : Quantity) : P q.course := by
  cases q with
  | star => exact h.copies _
  | plus => exact h.copies _
  | option => exact h.copies _
  | exactly digits => exact h.append (h.append (h.copies _) (bound_induction h _)) (h.copies _)
  | atLeast digits => exact h.append (h.append (h.append (h.copies _) (bound_induction h _)) (h.copies _)) (h.copies _)
  | between lower upper =>
    exact h.append
      (h.append (h.append (h.append (h.copies _) (bound_induction h _)) (h.copies _)) (bound_induction h _))
      (h.copies _)

theorem quantifier_induction (h : Event.Closed v P) (q : Option Quantifier) : P (quantifierCourse q) := by
  cases q with
  | none => exact h.nil
  | some q =>
    refine h.append (q.quantity.course_induction h) ?_
    split
    · exact h.copies _
    · exact h.nil

theorem SetEscape.course_induction (h : Event.Closed v P) {e : SetEscape} (he : e.Legal v) : P (e.course v) := by
  cases e with
  | letter c => exact h.append (h.reads _) (h.reads _)
  | property negated name =>
    refine h.append (h.reads _) ?_
    rw [body, List.append_assoc]
    exact h.append (h.reads _) (h.name he.2)

theorem ClassItem.course_induction (h : Event.Closed v P) {i : ClassItem} (hi : i.Legal v) : P (i.course v) := by
  cases i with
  | single x => exact h.reads _
  | range lo hi => exact h.reads _
  | set e => exact e.course_induction h hi

theorem ClassGroup.course_induction (h : Event.Closed v P) {g : ClassGroup} (hg : g.Legal v) : P (g.course v) := by
  have hitems : ∀ items : List ClassItem, (∀ i ∈ items, i.Legal v) → P (items.flatMap (ClassItem.course v)) := by
    intro items hi
    induction items with
    | nil => exact h.nil
    | cons i items ih =>
      obtain ⟨hfirst, hrest⟩ := List.forall_mem_cons.mp hi
      exact h.append (i.course_induction h hfirst) (ih hrest)
  exact h.append (h.reads _) (h.append (h.append (h.reads _) (hitems g.items hg.items)) (h.reads _))

theorem ClassTree.course_induction (h : Event.Closed v P) {t : ClassTree} (ht : t.Legal v) (outer : Bool) :
    P (t.course v outer) := by
  have hbracket : ∀ b u, P [.mode b, .pass u] := fun b u => h.append (h.mode b) (h.pass u)
  induction t generalizing outer with
  | list g => exact h.append (h.append (hbracket _ _) (g.course_induction h ht)) (hbracket _ _)
  | minus g t ih =>
    exact h.append (h.append (h.append (h.append (hbracket _ _) (g.course_induction h ht.1)) (h.pass _))
      (ih ht.2.2 true)) (hbracket _ _)

theorem Leaf.course_induction {o : Options} (h : Event.Closed o.variant P) {l : Leaf} (hl : l.Legal o.variant) :
    P (l.course o) := by
  refine h.append ?_ (h.write _)
  cases l with
  | dot => exact h.reads _
  | single x => exact h.reads _
  | set e => exact e.course_induction h hl
  | charClass t => exact t.course_induction h hl false

mutual

theorem Atom.course_induction {o : Options} (h : Event.Closed o.variant P) : {depth : Nat} → {G : Groups} → (a : Atom) →
    a.Legal o depth G → P (a.course o G)
  | _, _, .leaf l, ha => l.course_induction h ha
  | _, _, .anchor c, _ => h.copies c
  | _, _, .reference _, _ => h.append (h.reads _) (h.write _)
  | _, _, .group true r, ha =>
    h.append (h.append (h.append (h.pass _) (h.append h.opens (h.write _))) (r.course_induction h ha.2))
      (h.append (h.closes _) (h.copies _))
  | _, _, .group false r, ha =>
    h.append (h.append (h.append (h.reads _) (h.write _)) (r.course_induction h ha.2.2)) (h.copies _)

theorem Branch.course_induction {o : Options} (h : Event.Closed o.variant P) : {depth : Nat} → {G : Groups} →
    (b : Branch) → b.Legal o depth G → P (b.course o G)
  | _, _, .nil, _ => h.nil
  | _, _, .cons a q b, hb =>
    h.append (h.append (a.course_induction h hb.1) (quantifier_induction h q)) (b.course_induction h hb.2.2.2)

/-- What holds of single events, of a warning with the brace behind it, and of events in a row, holds of a scan. -/
theorem Regexp.course_induction {o : Options} (h : Event.Closed o.variant P) : {depth : Nat} → {G : Groups} →
    (r : Regexp) → r.Legal o depth G → P (r.course o G)
  | _, _, .branch b, hr => b.course_induction h hr
  | _, _, .bar b r, hr => h.append (h.append (b.course_induction h hr.1) (h.copies _)) (r.course_induction h hr.2)

end

/-! ## Grammars that warn of nothing -/

theorem nameWarnings_of_strict (hv : v.isLenient = false) {name : List Char} (hn : IsKnownName v name) :
    nameWarnings v name = [] := by
  unfold nameWarnings
  split
  · next block =>
    have hknown : ∃ b ∈ Block.all, b.name.toList = block := Or.resolve_left hn (by rw [hv]; decide)
    have hsome := Scan.charsNamed_isSome_iff.mpr hknown
    rw [hv, if_neg (by rw [Option.isNone_iff_eq_none]; exact Option.isSome_iff_ne_none.mp hsome)]
  · rfl

theorem closed_warned (hv : v.isLenient = false) : Event.Closed v fun es => warned es = [] where
  nil := rfl
  append h h' := by rw [warned_append, h, h']; rfl
  pass _ := rfl
  mode _ := rfl
  write _ := rfl
  opens := rfl
  closes _ := rfl
  name hn := by rw [nameWarnings_of_strict hv hn]; rfl

/-- A scan by a grammar that is not lenient warns of nothing. -/
theorem Regexp.warned_of_strict {o : Options} (hv : o.variant.isLenient = false) {depth : Nat} {G : Groups} (r : Regexp)
    (hr : r.Legal o depth G) : warned (r.course o G) = [] :=
  r.course_induction (closed_warned hv) hr

end Grammar

/-! ## The units that warnings are given on -/

/-- What events warn of, each with the offset of the unit that the cursor is on. -/
def warnedAt : Cursor → List Event → List (Reason × Nat)
  | _, [] => []
  | c, .pass _ :: es => warnedAt c.advance es
  | c, .mode b :: es => warnedAt { c with inClass := b } es
  | c, .warns r :: es => (r, c.position - 1) :: warnedAt c es
  | c, .write _ :: es | c, .opens :: es | c, .closes _ :: es => warnedAt c es

theorem warnedAt_append (c : Cursor) (es fs : List Event) :
    warnedAt c (es ++ fs) = warnedAt c es ++ warnedAt (cursorAfter c es) fs := by
  induction es generalizing c with
  | nil => rfl
  | cons e es ih =>
    cases e with
    | pass u => exact ih c.advance
    | mode b =>
      rw [cursorAfter_mode]
      exact ih { c with inClass := b }
    | warns r => exact congrArg (_ :: ·) (ih c)
    | write f | opens | closes n => exact ih c

theorem map_warnedAt (c : Cursor) (es : List Event) : (warnedAt c es).map (·.1) = warned es := by
  induction es generalizing c with
  | nil => rfl
  | cons e es ih =>
    cases e with
    | warns r => exact congrArg (r :: ·) (ih c)
    | pass u | mode b | write f | opens | closes n => exact ih _

theorem warnedAt_eq_nil {es : List Event} (h : warned es = []) (c : Cursor) : warnedAt c es = [] :=
  List.map_eq_nil_iff.mp ((map_warnedAt c es).trans h)

/-- A cause and an offset as a warning about an expression. -/
def stamped (expression : List CodeUnit) (w : Reason × Nat) : Diagnostic :=
  ⟨w.1, w.2, String.ofList (CodeUnit.decodeLossy expression)⟩

/-- The warnings of a scan are those of its events. -/
theorem follows_warnedAt {es : List Event} {s s' : ScanState} (h : Follows es s s') :
    s'.warnings.toList = s.warnings.toList ++ (warnedAt s.cursor es).map (stamped s.cursor.expression) := by
  induction es generalizing s with
  | nil =>
    rw [h]
    exact (List.append_nil _).symm
  | cons e es ih =>
    have hrest := ih h.tail
    cases e with
    | pass u =>
      rwa [show (Event.apply (.pass u) s).cursor.expression = s.cursor.expression from
        s.cursor.expression_advance] at hrest
    | warns r =>
      rw [hrest]
      simp [Event.apply, ScanState.warn, ScanState.diagnostic, warnedAt, stamped]
    | mode _ | write _ | opens | closes _ => exact hrest

/-- The unit that a warning is given on is passed next. -/
def WarnsInside : List Event → Prop
  | [] => True
  | .warns _ :: es => (∃ u fs, es = .pass u :: fs) ∧ WarnsInside es
  | .pass _ :: es | .mode _ :: es | .write _ :: es | .opens :: es | .closes _ :: es => WarnsInside es

theorem WarnsInside.append {es fs : List Event} (h : WarnsInside es) (h' : WarnsInside fs) :
    WarnsInside (es ++ fs) := by
  induction es with
  | nil => exact h'
  | cons e es ih =>
    cases e with
    | warns r =>
      obtain ⟨⟨u, gs, rfl⟩, h⟩ := h
      exact ⟨⟨u, gs ++ fs, rfl⟩, ih h⟩
    | pass u | mode b | write f | opens | closes n => exact ih h

theorem Grammar.closed_warnsInside (v : Variant) : Event.Closed v WarnsInside where
  nil := trivial
  append := WarnsInside.append
  pass _ := trivial
  mode _ := trivial
  write _ := trivial
  opens := trivial
  closes _ := trivial
  name {name} _ := by
    unfold nameWarnings
    split
    · split
      · exact ⟨⟨_, _, rfl⟩, trivial⟩
      · trivial
    · trivial

/-- A scan of a pattern warns on units that it passes next. -/
theorem Grammar.Regexp.warnsInside_course {o : Options} {depth : Nat} {G : Groups} (r : Regexp)
    (hr : r.Legal o depth G) :
    WarnsInside (r.course o G) :=
  r.course_induction (closed_warnsInside _) hr

/-! ## Conversions -/

/-- A conversion warns of what the scan of any syntax tree of its expression warns of. -/
theorem warnings_of_conversion {o : Options} {d : Dialect} {units : List CodeUnit} {c : Conversion} {r : Regexp}
    (h : convertPattern o (.schema d) units = .ok c) (hr : r.IsSyntaxOf o units) :
    c.warnings = (warnedAt (Cursor.ofUnits units o.foldBlanks).advance (r.course o {})).map (stamped units) := by
  obtain ⟨s', hscan, hf⟩ := scan_complete (d := d) hr
  rw [convertPattern, hscan] at h
  obtain rfl := Except.ok.inj h
  have hexpression : (Cursor.ofUnits units o.foldBlanks).advance.expression = units := by
    rw [Cursor.expression_advance, Cursor.expression_ofUnits]
  have hwarnings := follows_warnedAt hf
  rw [show (ScanState.ofUnits o units).advance.cursor = (Cursor.ofUnits units o.foldBlanks).advance from rfl,
    hexpression] at hwarnings
  exact hwarnings

end XmlPattern
