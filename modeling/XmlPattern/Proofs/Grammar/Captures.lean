import XmlPattern.Proofs.Grammar.Places
import XmlPattern.Proofs.Scan.Patterns

/-!
# Places and groups of a syntax tree

Brackets and backslashes tell the same of the units of a tree as its marks do: where the reader is inside a class
expression, brackets are open. So what is left of an expression without its blanks is the spelling of its tree, and the
parentheses that seem to begin a group that captures are those of the tree's groups that do.

- `stripped_of_spells`: an expression that spells a tree, without its blanks, is the spelling of the tree.
- `Regexp.capturingParens_units`: the capturing parentheses of the spelling are those of the groups, in order.
-/

namespace XmlPattern.Grammar

/-! ## Following the marks -/

/-- Marks lead from one place to another if brackets are open behind each unit exactly where its mark says so. -/
def Leads : Place → List Mark → Place → Prop
  | p, [], q => q = p
  | p, (u, b) :: ms, q => b = decide (0 < (p.step u).depth) ∧ Leads (p.step u) ms q

/-- Marks lead from one place to another, and none of the units begins a group. -/
def Passes : Place → List Mark → Place → Prop
  | p, [], q => q = p
  | p, (u, b) :: ms, q => b = decide (0 < (p.step u).depth) ∧ (p = {} → u ≠ unit '(') ∧ Passes (p.step u) ms q

/-- Units where so many brackets are open, with their marks. -/
def marked (d : Nat) (us : List CodeUnit) : List Mark := us.map (·, decide (0 < d))

variable {p q r : Place} {ms ns : List Mark} {d : Nat}

theorem Leads.append (h : Leads p ms q) (h' : Leads q ns r) : Leads p (ms ++ ns) r := by
  induction ms generalizing p with
  | nil =>
    obtain rfl := h
    exact h'
  | cons m ms ih => exact ⟨h.1, ih h.2⟩

theorem Passes.append (h : Passes p ms q) (h' : Passes q ns r) : Passes p (ms ++ ns) r := by
  induction ms generalizing p with
  | nil =>
    obtain rfl := h
    exact h'
  | cons m ms ih => exact ⟨h.1, h.2.1, ih h.2.2⟩

theorem Passes.leads (h : Passes p ms q) : Leads p ms q := by
  induction ms generalizing p with
  | nil => exact h
  | cons m ms ih => exact ⟨h.1, ih h.2.2⟩

theorem Passes.openings (h : Passes p ms q) (i : Nat) (us : List CodeUnit) :
    openings p i (ms.map (·.1) ++ us) = openings q (i + ms.length) us := by
  induction ms generalizing p i with
  | nil =>
    obtain rfl := h
    rfl
  | cons m ms ih =>
    obtain ⟨u, b⟩ := m
    obtain ⟨_, hu, h⟩ := h
    have hnot : ¬ (p == {} && beginsCapture u (ms.map (·.1) ++ us)) = true := by
      rw [Bool.and_eq_true, beq_iff_eq, beginsCapture, Bool.and_eq_true, beq_iff_eq]
      exact fun ⟨hp, hc, _⟩ => hu hp hc
    rw [List.map_cons, List.cons_append, Grammar.openings, if_neg hnot, ih h, List.length_cons, Nat.add_right_comm,
      Nat.add_assoc]

/-- Where marks lead, blanks outside class expressions are the blanks outside brackets. -/
theorem strip_of_spells {us : List CodeUnit} (h : Leads p ms q) (hs : Spells true (decide (0 < p.depth)) ms us) :
    strip p us = ms.map (·.1) := by
  generalize hb : decide (0 < p.depth) = b at hs
  induction hs generalizing p with
  | nil => rfl
  | @blank u ms us _ hu _ ih =>
    have hskip : p.skips u = true := by
      rw [Place.skips, hu, Bool.and_true, beq_iff_eq]
      have := of_decide_eq_false hb
      omega
    rw [strip, if_pos hskip]
    exact ih h hb
  | @unit b b' u ms us hu _ ih =>
    have hkeep : ¬ p.skips u = true := by
      rw [Place.skips, Bool.and_eq_true, beq_iff_eq]
      rintro ⟨hd, hblank⟩
      rw [hd] at hb
      rw [hu rfl hb.symm] at hblank
      cases hblank
    rw [strip, if_neg hkeep, ih h.2 h.1.symm]
    rfl

/-! ## Parts that begin no group -/

theorem passes_plain {u : CodeUnit} (hu : ∀ c ∈ u.toAscii?, c ∉ Place.signs) (hd : d = 0 → u ≠ unit '(') :
    Passes ⟨d, .plain⟩ (marked d [u]) ⟨d, .plain⟩ := by
  have hstep := Place.step_plain (d := d) hu
  refine ⟨by rw [hstep], fun hp => hd (congrArg Place.depth hp), ?_⟩
  rw [hstep]
  rfl

theorem passes_basic {c : Char} (hc : c.toNat < 0x80) (hp : c ∉ '(' :: Place.signs) :
    Passes ⟨d, .plain⟩ (marked d [unit c]) ⟨d, .plain⟩ := by
  rw [List.mem_cons, not_or] at hp
  refine passes_plain ?_ fun _ h => hp.1 ((CodeUnit.ofBasic_inj (by omega) (by decide)).mp h)
  rw [CodeUnit.toAscii?_eq_some.mpr ⟨hc, rfl⟩]
  rintro _ ⟨⟩
  exact hp.2

theorem passes_text {cs : List Char} (h : ∀ c ∈ cs, c.toNat < 0x80 ∧ c ∉ '(' :: Place.signs) :
    Passes ⟨d, .plain⟩ (marked d (basic cs)) ⟨d, .plain⟩ := by
  induction cs with
  | nil => rfl
  | cons c cs ih =>
    obtain ⟨hc, hcs⟩ := List.forall_mem_cons.mp h
    exact (passes_basic hc.1 hc.2).append (ih hcs)

theorem passes_char {c : Char} (hp : c ∉ Place.signs) (hd : d = 0 → c ≠ '(') :
    Passes ⟨d, .plain⟩ (marked d (CodeUnit.ofChar c)) ⟨d, .plain⟩ := by
  rcases CodeUnit.ofChar_cases c with ⟨u, hu, hs, rfl⟩ | ⟨u, v, hu, hhigh, hlow, _⟩
  · rw [hu]
    have hascii : ∀ c ∈ u.toAscii?, u.toBasic = c := by
      intro c hc
      obtain ⟨hlt, rfl⟩ := CodeUnit.toAscii?_eq_some.mp hc
      exact CodeUnit.toBasic_ofBasic (by omega)
    refine passes_plain (fun c hc => hascii c hc ▸ hp) fun h0 he => hd h0 ?_
    exact hascii '(' (CodeUnit.toAscii?_eq_some.mpr ⟨by decide, he⟩)
  · have hsurrogate : ∀ w : CodeUnit, w.isSurrogate = true →
        Passes ⟨d, .plain⟩ (marked d [w]) ⟨d, .plain⟩ := by
      intro w hw
      refine passes_plain (by rw [CodeUnit.toAscii?_of_isSurrogate hw]; exact nofun) ?_
      rintro - rfl
      cases hw
    rw [hu]
    exact (hsurrogate u (by rw [CodeUnit.isSurrogate_eq, hhigh, Bool.true_or])).append
      (hsurrogate v (by rw [CodeUnit.isSurrogate_eq, hlow, Bool.or_true]))

/-- A backslash takes the letter behind it with it. -/
theorem passes_escape {c : Char} (hc : c.toNat < 0x80) (hp : c ≠ 'p' ∧ c ≠ 'P') :
    Passes ⟨d, .plain⟩ (marked d (basic ['\\', c])) ⟨d, .plain⟩ := by
  have hstep : Place.step ⟨d, .escape⟩ (unit c) = ⟨d, .plain⟩ := by
    apply Place.step_letter
    rw [CodeUnit.toAscii?_eq_some.mpr ⟨hc, rfl⟩]
    rintro _ ⟨⟩
    exact hp
  refine ⟨rfl, fun _ => by decide, ?_⟩
  rw [Place.step_backslash]
  exact ⟨by rw [hstep], fun h => (nomatch h), hstep.symm⟩

theorem passes_name {name : List CodeUnit} (h : unit '\x7d' ∉ name) :
    Passes ⟨d, .name⟩ (marked d name) ⟨d, .name⟩ := by
  induction name with
  | nil => rfl
  | cons u name ih =>
    rw [List.mem_cons, not_or] at h
    have hstep := Place.step_name (d := d) (Ne.symm h.1)
    refine ⟨by rw [hstep], fun h => (nomatch h), ?_⟩
    rw [hstep]
    exact ih h.2

theorem Single.passes_atom {v : Variant} {x : Single} (h : x.LegalAtom v) :
    Passes {} (outside x.units) {} := by
  cases x with
  | plain c =>
    have hall : ∀ c ∈ '(' :: Place.signs, c ∈ metaChars := List.all_iff_forall_prop.mp (by decide)
    refine passes_char (d := 0) (fun hc => h.1 (hall c (List.mem_cons_of_mem _ hc))) ?_
    rintro - rfl
    exact h.1 (by decide)
  | escaped letter => exact passes_escape (d := 0) (Scan.escapable_ascii h).1 (Scan.escapable_ascii h).2

theorem Single.passes_member {v : Variant} {x : Single} (h : x.LegalMember v) :
    Passes ⟨d + 1, .plain⟩ (marked (d + 1) x.units) ⟨d + 1, .plain⟩ := by
  cases x with
  | plain c =>
    refine passes_char (fun hc => h ?_) fun h0 => (nomatch h0)
    have hall : ∀ c ∈ Place.signs, c ∈ classMetaChars := List.all_iff_forall_prop.mp (by decide)
    exact hall c hc
  | escaped letter => exact passes_escape (Scan.escapable_ascii h).1 (Scan.escapable_ascii h).2

theorem SetEscape.passes {v : Variant} {e : SetEscape} (h : e.Legal v) :
    Passes ⟨d, .plain⟩ (marked d e.units) ⟨d, .plain⟩ := by
  cases e with
  | letter c =>
    have hc := Scan.setLetters_ascii (v := v) h
    exact passes_escape hc.1 ⟨hc.2.1, hc.2.2.1⟩
  | property negated name =>
    have hletter : (if negated then 'P' else 'p') = 'p' ∨ (if negated then 'P' else 'p') = 'P' := by
      cases negated <;> decide
    have hopen : Passes ⟨d, .plain⟩ (marked d (basic ['\\', if negated then 'P' else 'p', '\x7b'])) ⟨d, .name⟩ := by
      refine ⟨rfl, fun _ => by decide, ?_⟩
      rw [Place.step_backslash]
      refine ⟨by rw [Place.step_property hletter], fun h => (nomatch h), ?_⟩
      rw [Place.step_property hletter]
      exact ⟨rfl, fun h => (nomatch h), rfl⟩
    have hclose : Passes ⟨d, .name⟩ (marked d (basic ['\x7d'])) ⟨d, .plain⟩ := ⟨rfl, fun h => (nomatch h), rfl⟩
    have hall := (hopen.append (passes_name h.1)).append hclose
    rwa [marked, marked, marked, ← List.map_append, ← List.map_append] at hall

/-! ## Class expressions -/

theorem passes_hyphen : Passes ⟨d + 1, .plain⟩ (marked (d + 1) [unit '-']) ⟨d + 1, .plain⟩ :=
  passes_basic (by decide) (by decide)

theorem passes_if {b : Bool} {u : CodeUnit} (h : Passes p (marked d [u]) p) :
    Passes p (marked d (if b then [u] else [])) p := by
  cases b with
  | true => exact h
  | false => rfl

theorem marked_append (d : Nat) (us vs : List CodeUnit) : marked d (us ++ vs) = marked d us ++ marked d vs :=
  List.map_append

theorem ClassItem.passes {v : Variant} {i : ClassItem} (h : i.Legal v) :
    Passes ⟨d + 1, .plain⟩ (marked (d + 1) i.units) ⟨d + 1, .plain⟩ := by
  cases i with
  | single x => exact x.passes_member h
  | range lo hi =>
    rw [units, marked_append]
    exact (lo.passes_member h.1).append (passes_hyphen.append (hi.passes_member h.2.1))
  | set e => exact e.passes h

theorem ClassGroup.passes {v : Variant} {g : ClassGroup} (h : g.Legal v) :
    Passes ⟨d + 1, .plain⟩ (marked (d + 1) g.units) ⟨d + 1, .plain⟩ := by
  have hitems : ∀ items : List ClassItem, (∀ i ∈ items, i.Legal v) →
      Passes ⟨d + 1, .plain⟩ (marked (d + 1) (items.flatMap ClassItem.units)) ⟨d + 1, .plain⟩ := by
    intro items hi
    induction items with
    | nil => rfl
    | cons i items ih =>
      rw [List.flatMap_cons, marked_append]
      obtain ⟨hfirst, hrest⟩ := List.forall_mem_cons.mp hi
      exact (i.passes hfirst).append (ih hrest)
  rw [units, marked_append, marked_append, marked_append]
  refine (((passes_if ?_).append (passes_if passes_hyphen)).append (hitems g.items h.items)).append
    (passes_if passes_hyphen)
  exact passes_basic (by decide) (by decide)

theorem ClassTree.passes {v : Variant} {c : ClassTree} (h : c.Legal v) :
    Passes ⟨d + 1, .plain⟩ (marked (d + 1) c.units) ⟨d + 1, .plain⟩ := by
  induction c generalizing d with
  | list g => exact g.passes h
  | minus g c ih =>
    have hopen : Passes ⟨d + 1, .plain⟩ (marked (d + 1) [unit '[']) ⟨d + 2, .plain⟩ :=
      ⟨by simp, fun h => (nomatch h), rfl⟩
    have hclose : Passes ⟨d + 2, .plain⟩ (marked (d + 1) [unit ']']) ⟨d + 1, .plain⟩ := ⟨rfl, fun h => (nomatch h), rfl⟩
    have hinner : Passes ⟨d + 2, .plain⟩ (marked (d + 1) c.units) ⟨d + 2, .plain⟩ := by
      have := ih (d := d + 1) h.2.2
      rwa [marked, show decide (0 < d + 1 + 1) = decide (0 < d + 1) by simp] at this
    have hall := (g.passes h.1).append (passes_hyphen.append (hopen.append (hinner.append hclose)))
    simpa [units, marked] using hall

/-! ## Atoms without groups, and quantifiers -/

theorem Leaf.passes {v : Variant} {l : Leaf} (h : l.Legal v) : Passes {} l.marks {} := by
  cases l with
  | dot => exact passes_basic (d := 0) (by decide) (by decide)
  | single x => exact x.passes_atom h
  | set e => exact e.passes (d := 0) h
  | charClass c =>
    have hopen : Passes {} (inside [unit '[']) ⟨1, .plain⟩ := ⟨rfl, fun _ => by decide, rfl⟩
    have hclose : Passes ⟨1, .plain⟩ (outside [unit ']']) {} := ⟨rfl, fun h => (nomatch h), rfl⟩
    exact (hopen.append (c.passes (d := 0) h)).append hclose

theorem passes_quantifier {v : Variant} {q : Option Quantifier} (h : ∀ x ∈ q, x.Legal v) :
    Passes {} (quantifierMarks q) {} := by
  have hmark : ∀ c ∈ quantifierChars, c.toNat < 0x80 ∧ c ∉ '(' :: Place.signs := List.all_iff_forall_prop.mp (by decide)
  refine passes_text (d := 0) fun c hc => ?_
  rcases mem_quantifierText h hc with hc | hd
  · exact hmark c hc
  · exact ⟨Scan.isDigit_lt hd, Place.not_mem_signs_of_isDigit hd⟩

/-! ## Patterns -/

theorem leads_text (cs : List Char) (h : (cs.all fun c => c.toNat < 0x80 && c ∉ Place.signs) = true) :
    Leads {} (outside (basic cs)) {} := by
  induction cs with
  | nil => rfl
  | cons c cs ih =>
    rw [List.all_cons, Bool.and_eq_true, Bool.and_eq_true, decide_eq_true_eq, decide_eq_true_eq] at h
    obtain ⟨hc, hcs⟩ := h
    have hstep : Place.step {} (unit c) = {} := by
      apply Place.step_plain
      rw [CodeUnit.toAscii?_eq_some.mpr ⟨hc.1, rfl⟩]
      rintro _ ⟨⟩
      exact hc.2
    refine ⟨by rw [hstep]; rfl, ?_⟩
    rw [hstep]
    exact ih hcs

/-- An atom that begins no group of either kind. -/
theorem Atom.passes {o : Options} {depth : Nat} {G : Groups} {a : Atom} (h : a.Legal o depth G)
    (hgroup : ∀ capturing r, a ≠ .group capturing r) : Passes {} a.marks {} := by
  cases a with
  | leaf l => exact l.passes h
  | anchor c =>
    have hall : ∀ c ∈ anchorChars, c.toNat < 0x80 ∧ c ∉ '(' :: Place.signs := List.all_iff_forall_prop.mp (by decide)
    exact passes_basic (d := 0) (hall c h.2).1 (hall c h.2).2
  | reference digits =>
    obtain ⟨_, ⟨hne, hdigits⟩, _⟩ := h
    obtain ⟨c, cs, rfl⟩ := List.exists_cons_of_ne_nil hne
    obtain ⟨hc, hcs⟩ := List.forall_mem_cons.mp hdigits
    have hfirst : Passes {} (outside (basic ['\\', c])) {} :=
      passes_escape (d := 0) (Scan.isDigit_lt hc) ⟨(by rintro rfl; cases hc), (by rintro rfl; cases hc)⟩
    exact hfirst.append (passes_text (d := 0) fun c hc =>
      ⟨Scan.isDigit_lt (hcs c hc), Place.not_mem_signs_of_isDigit (hcs c hc)⟩)
  | group capturing r => exact absurd rfl (hgroup capturing r)

mutual

theorem Atom.leads {o : Options} : {depth : Nat} → {G : Groups} → {a : Atom} → a.Legal o depth G → Leads {} a.marks {}
  | _, _, .leaf l, h => (Atom.passes (a := .leaf l) h nofun).leads
  | _, _, .anchor c, h => (Atom.passes (a := .anchor c) h nofun).leads
  | _, _, .reference digits, h => (Atom.passes (a := .reference digits) h nofun).leads
  | depth, G, .group true r, h =>
    ((leads_text ['('] (by decide)).append (r.leads h.2)).append (leads_text [')'] (by decide))
  | depth, G, .group false r, h =>
    ((leads_text ['(', '?', ':'] (by decide)).append (r.leads h.2.2)).append (leads_text [')'] (by decide))

theorem Branch.leads {o : Options} : {depth : Nat} → {G : Groups} → (b : Branch) → b.Legal o depth G →
    Leads {} b.marks {}
  | _, _, .nil, _ => rfl
  | _, _, .cons _ _ b, h => ((Atom.leads h.1).append (passes_quantifier h.2.1).leads).append (b.leads h.2.2.2)

/-- The marks of a pattern lead back to where nothing has begun. -/
theorem Regexp.leads {o : Options} : {depth : Nat} → {G : Groups} → (r : Regexp) → r.Legal o depth G →
    Leads {} r.marks {}
  | _, _, .branch b, h => b.leads h
  | _, _, .bar b r, h => ((b.leads h.1).append (leads_text ['|'] (by decide))).append (r.leads h.2)

end

/-- An expression that spells a tree, without its blanks outside brackets, is the spelling of the tree. -/
theorem stripped_of_spells {o : Options} {r : Regexp} {units : List CodeUnit} (h : r.Legal o 0 {})
    (hs : Spells true false r.marks units) : stripped units = r.units :=
  strip_of_spells (r.leads h) hs

/-! ## Captures -/

/-- A group that captures: the offset of its parenthesis, the groups in front of it, and its inside. -/
structure Capture where
  offset : Nat
  front : Groups
  inside : Regexp

mutual

/-- The groups of an atom that capture, by their opening parentheses, if the atom has the given offset. -/
def Atom.captures : (i : Nat) → Groups → Atom → List Capture
  | i, G, .group true r => ⟨i, G, r⟩ :: r.captures (i + 1) G.open
  | i, G, .group false r => r.captures (i + 3) G
  | _, _, .leaf _ | _, _, .anchor _ | _, _, .reference _ => []

/-- The groups of a branch that capture. -/
def Branch.captures : (i : Nat) → Groups → Branch → List Capture
  | _, _, .nil => []
  | i, G, .cons a q b =>
    a.captures i G ++ b.captures (i + a.marks.length + (quantifierMarks q).length) (a.after G)

/-- The groups of a pattern that capture. -/
def Regexp.captures : (i : Nat) → Groups → Regexp → List Capture
  | i, G, .branch b => b.captures i G
  | i, G, .bar b r => b.captures i G ++ r.captures (i + b.marks.length + 1) (b.after G)

end

/-- Numbers that are counted up from one place to another, and on to a third. -/
theorem range'_between {a b c : Nat} (hab : a ≤ b) (hbc : b ≤ c) :
    List.range' (a + 1) (b - a) ++ List.range' (b + 1) (c - b) = List.range' (a + 1) (c - a) := by
  have h : List.range' (a + 1) (b - a) ++ List.range' (a + 1 + (b - a)) (c - b) = _ := List.range'_append_1
  rwa [show a + 1 + (b - a) = b + 1 by omega, show b - a + (c - b) = c - a by omega] at h

mutual

theorem Atom.numbers_captures : (i : Nat) → (G : Groups) → (a : Atom) →
    (a.captures i G).map (·.front.opened + 1) = List.range' (G.opened + 1) ((a.after G).opened - G.opened)
  | _, G, .leaf _ | _, G, .anchor _ | _, G, .reference _ => by simp [Atom.captures, Atom.after]
  | i, G, .group true r => by
    have h := r.numbers_captures (i + 1) G.open
    have hle : G.opened + 1 ≤ (r.after G.open).opened := (r.grows_after G.open).1
    rw [Atom.captures, List.map_cons, h]
    show (G.opened + 1) :: List.range' (G.opened + 1 + 1) _ =
        List.range' (G.opened + 1) ((r.after G.open).opened - G.opened)
    rw [← List.range'_succ,
      show (r.after G.open).opened - G.open.opened + 1 = (r.after G.open).opened - G.opened from ?_]
    show (r.after G.open).opened - (G.opened + 1) + 1 = _
    omega
  | i, G, .group false r => r.numbers_captures (i + 3) G

theorem Branch.numbers_captures : (i : Nat) → (G : Groups) → (b : Branch) →
    (b.captures i G).map (·.front.opened + 1) = List.range' (G.opened + 1) ((b.after G).opened - G.opened)
  | _, G, .nil => by simp [Branch.captures, Branch.after]
  | i, G, .cons a q b => by
    rw [Branch.captures, List.map_append, a.numbers_captures i G, b.numbers_captures _ (a.after G)]
    exact range'_between (a.grows_after G).1 (b.grows_after (a.after G)).1

/-- The groups that capture are numbered in the order of their opening parentheses. -/
theorem Regexp.numbers_captures : (i : Nat) → (G : Groups) → (r : Regexp) →
    (r.captures i G).map (·.front.opened + 1) = List.range' (G.opened + 1) ((r.after G).opened - G.opened)
  | i, G, .branch b => b.numbers_captures i G
  | i, G, .bar b r => by
    rw [Regexp.captures, List.map_append, b.numbers_captures i G, r.numbers_captures _ (b.after G)]
    exact range'_between (b.grows_after G).1 (r.grows_after (b.after G)).1

end

/-! ## Captures and their parentheses -/

/-- A part begins with a unit other than a question mark, or is empty. -/
def BeginsPlain (ms : List Mark) : Prop := ∀ m ∈ ms.head?, m.1 ≠ unit '?'

theorem beginsPlain_outside {us : List CodeUnit} (h : us.head? ≠ some (unit '?')) : BeginsPlain (outside us) := by
  cases us with
  | nil => exact nofun
  | cons u us =>
    rintro _ ⟨⟩ hu
    exact h (congrArg some hu)

theorem Leaf.beginsPlain {v : Variant} {l : Leaf} (h : l.Legal v) : BeginsPlain l.marks := by
  cases l with
  | dot => exact beginsPlain_outside (by decide)
  | single x =>
    cases x with
    | plain c =>
      refine beginsPlain_outside fun hhead => ?_
      obtain rfl := CodeUnit.head?_ofChar (by decide) hhead
      exact h.1 (by decide)
    | escaped letter => exact beginsPlain_outside (by rintro ⟨⟩)
  | set e => cases e <;> exact beginsPlain_outside (by rintro ⟨⟩)
  | charClass c =>
    rintro _ ⟨⟩
    decide

theorem Atom.beginsPlain {o : Options} {depth : Nat} {G : Groups} {a : Atom} (h : a.Legal o depth G) :
    BeginsPlain a.marks := by
  cases a with
  | leaf l => exact l.beginsPlain h
  | anchor c =>
    have hall : ∀ c ∈ anchorChars, unit c ≠ unit '?' := List.all_iff_forall_prop.mp (by decide)
    rintro _ ⟨⟩
    exact hall c h.2
  | reference digits =>
    rintro _ ⟨⟩
    decide
  | group capturing r =>
    cases capturing <;>
    · rintro _ ⟨⟩
      decide

theorem Branch.beginsPlain {o : Options} {depth : Nat} {G : Groups} {b : Branch} (h : b.Legal o depth G)
    {ms : List Mark} (hms : BeginsPlain ms) : BeginsPlain (b.marks ++ ms) := by
  cases b with
  | nil => exact hms
  | cons a q b =>
    obtain ⟨m, ns, hm⟩ := List.exists_cons_of_ne_nil a.marks_ne_nil
    have ha := Atom.beginsPlain h.1
    rw [hm] at ha
    rw [Branch.marks, hm]
    exact ha

/-- No pattern begins with a question mark. -/
theorem Regexp.beginsPlain {o : Options} {depth : Nat} {G : Groups} {r : Regexp} (h : r.Legal o depth G)
    {ms : List Mark} (hms : BeginsPlain ms) : BeginsPlain (r.marks ++ ms) := by
  cases r with
  | branch b => exact b.beginsPlain h hms
  | bar b r =>
    rw [Regexp.marks, List.append_assoc, List.append_assoc]
    refine b.beginsPlain h.1 ?_
    rintro _ ⟨⟩
    decide

/-- The parenthesis of a group that captures is told by what comes behind it. -/
theorem beginsCapture_of_legal {o : Options} {depth : Nat} {G : Groups} {r : Regexp} (h : r.Legal o depth G)
    (us : List CodeUnit) : beginsCapture (unit '(') (r.marks.map (·.1) ++ unit ')' :: us) = true := by
  have hclose : BeginsPlain [(unit ')', false)] := by
    rintro _ ⟨⟩
    decide
  have hhead := Regexp.beginsPlain h hclose
  have hprefix : ∀ {u : CodeUnit} {vs : List CodeUnit}, u ≠ unit '?' → beginsCapture (unit '(') (u :: vs) = true := by
    intro u vs hu
    simp only [beginsCapture, basic_cons, List.isPrefixOf, Bool.and_eq_true, beq_self_eq_true, true_and,
      Bool.not_eq_true']
    rw [beq_eq_false_iff_ne.mpr (Ne.symm hu), Bool.false_and]
  cases hm : r.marks with
  | nil => exact hprefix (by decide)
  | cons m ms =>
    rw [hm] at hhead
    exact hprefix (hhead m rfl)

theorem openings_of_capture {i : Nat} {us : List CodeUnit} (h : beginsCapture (unit '(') us = true) :
    openings {} i (unit '(' :: us) = i :: openings {} (i + 1) us := by
  rw [openings, if_pos (by rw [h]; rfl)]
  rfl

/-- A character outside brackets that means nothing by itself. -/
theorem openings_of_plain {c : Char} (hc : c ∈ [')', '?', ':', '|']) (i : Nat) (us : List CodeUnit) :
    openings {} i (unit c :: us) = openings {} (i + 1) us := by
  have hall : ∀ c ∈ [')', '?', ':', '|'], c.toNat < 0x80 ∧ c ∉ '(' :: Place.signs :=
    List.all_iff_forall_prop.mp (by decide)
  exact (passes_basic (d := 0) (hall c hc).1 (hall c hc).2).openings i us

mutual

theorem Atom.openings_append {o : Options} : (a : Atom) → {depth : Nat} → {G : Groups} → a.Legal o depth G → (i : Nat) →
    (us : List CodeUnit) → openings {} i (a.marks.map (·.1) ++ us) =
      (a.captures i G).map Capture.offset ++ openings {} (i + a.marks.length) us
  | .leaf l, _, _, h, i, us => (Atom.passes (a := .leaf l) h nofun).openings i us
  | .anchor c, _, _, h, i, us => (Atom.passes (a := .anchor c) h nofun).openings i us
  | .reference digits, _, _, h, i, us => (Atom.passes (a := .reference digits) h nofun).openings i us
  | .group true r, depth, G, h, i, us => by
    have hmarks : (Atom.group true r).marks.map (·.1) ++ us = unit '(' :: (r.marks.map (·.1) ++ unit ')' :: us) := by
      simp [Atom.marks, outside]
    have hlength : i + (Atom.group true r).marks.length = i + 1 + r.marks.length + 1 := by
      simp [Atom.marks, outside]
      omega
    rw [hmarks, hlength, openings_of_capture (beginsCapture_of_legal h.2 us), r.openings_append h.2,
      openings_of_plain (by decide)]
    rfl
  | .group false r, depth, G, h, i, us => by
    have hmarks : (Atom.group false r).marks.map (·.1) ++ us =
        unit '(' :: unit '?' :: unit ':' :: (r.marks.map (·.1) ++ unit ')' :: us) := by
      simp [Atom.marks, outside]
    have hlength : i + (Atom.group false r).marks.length = i + 3 + r.marks.length + 1 := by
      simp [Atom.marks, outside]
      omega
    have hopen : ∀ vs, openings {} i (unit '(' :: unit '?' :: unit ':' :: vs) =
        openings {} (i + 1) (unit '?' :: unit ':' :: vs) := fun _ => rfl
    rw [hmarks, hlength, hopen, openings_of_plain (by decide), openings_of_plain (by decide), r.openings_append h.2.2,
      openings_of_plain (by decide)]
    rfl

theorem Branch.openings_append {o : Options} :
    (b : Branch) → {depth : Nat} → {G : Groups} → b.Legal o depth G → (i : Nat) →
    (us : List CodeUnit) → openings {} i (b.marks.map (·.1) ++ us) =
      (b.captures i G).map Capture.offset ++ openings {} (i + b.marks.length) us
  | .nil, _, _, _, _, _ => rfl
  | .cons a q b, depth, G, h, i, us => by
    obtain ⟨ha, hq, _, hb⟩ := h
    rw [Branch.marks, List.map_append, List.map_append, List.append_assoc, List.append_assoc, a.openings_append ha,
      (passes_quantifier hq).openings, b.openings_append hb, Branch.captures, List.map_append, List.append_assoc,
      List.length_append, List.length_append]
    simp only [Nat.add_assoc]

/-- The parentheses that begin a group that captures are those of the groups that do, in order. -/
theorem Regexp.openings_append {o : Options} :
    (r : Regexp) → {depth : Nat} → {G : Groups} → r.Legal o depth G → (i : Nat) →
    (us : List CodeUnit) → openings {} i (r.marks.map (·.1) ++ us) =
      (r.captures i G).map Capture.offset ++ openings {} (i + r.marks.length) us
  | .branch b, _, _, h, i, us => b.openings_append h i us
  | .bar b r, depth, G, h, i, us => by
    have hmarks : (Regexp.bar b r).marks.map (·.1) ++ us =
        b.marks.map (·.1) ++ unit '|' :: (r.marks.map (·.1) ++ us) := by
      simp [Regexp.marks, outside]
    have hlength : i + (Regexp.bar b r).marks.length = i + b.marks.length + 1 + r.marks.length := by
      simp [Regexp.marks, outside]
      omega
    rw [hmarks, hlength, b.openings_append h.1, openings_of_plain (by decide), r.openings_append h.2, Regexp.captures,
      List.map_append, List.append_assoc]

end

/-- The capturing parentheses of the spelling of a pattern are those of its groups, in order. -/
theorem Regexp.capturingParens_units {o : Options} {r : Regexp} (h : r.Legal o 0 {}) :
    capturingParens r.units = (r.captures 0 {}).map Capture.offset := by
  have hall := r.openings_append h 0 []
  rwa [List.append_nil, Grammar.openings, List.append_nil] at hall

end XmlPattern.Grammar
