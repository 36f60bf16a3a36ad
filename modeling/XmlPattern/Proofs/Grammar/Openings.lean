import XmlPattern.Proofs.Grammar.Places
import XmlPattern.Proofs.Grammar.Verbatim

/-!
# Groups of a native pattern

Which groups a native pattern has can be told without a tree, from its parentheses: those count that no escape takes and
that stand outside classes, and what comes behind one tells what it opens. `Place.step` goes from the place of a
character to the place behind it.

Native engines also know comments, and a flag under which blanks and comments are left out. What follows one of these is
read in another way, so that `openings` ends there.

- `openings`: what the parentheses of a text open.
- `openings_escape`, `openings_charClass`: escapes and classes open nothing.
- `openings_numbered`, `openings_head`: what a group opens.
-/

namespace XmlPattern.Verbatim

open Grammar (IsNumeral)

/-! ## Places -/

/-- How many characters an escape has behind its letter if these are not in braces. -/
def operandWidth : Char → Nat
  | 'x' => 2
  | 'u' => 4
  | 'U' => 8
  | 'p' | 'P' => 1
  | _ => 0

/-- What has begun in front of a place. -/
inductive Phase where
  | plain
  /-- A backslash. -/
  | escape
  /-- An escape that has one character more than so many ahead of it; right behind its letter these may be in braces. -/
  | operand (letter : Bool) (more : Nat)
  /-- The braces of an escape. -/
  | braced
  /-- The opening bracket of a class, and perhaps its caret. -/
  | bracket (caret : Bool)
  /-- A parenthesis that a question mark follows. -/
  | head
  deriving DecidableEq, Repr

/-- A place in a native pattern: how many brackets are open around it, and what has begun in front of it. -/
structure Place where
  depth : Nat := 0
  phase : Phase := .plain
  deriving DecidableEq, Repr

namespace Place

/-- The place behind a character if nothing has begun in front of it. -/
def stepPlain (d : Nat) : Char → Place
  | '\\' => ⟨d, .escape⟩
  | '[' => ⟨d + 1, if d = 0 then .bracket false else .plain⟩
  | ']' => ⟨d - 1, .plain⟩
  | _ => ⟨d, .plain⟩

/-- The place behind a character. -/
def step (p : Place) (c : Char) : Place :=
  match p.phase with
  | .plain => stepPlain p.depth c
  | .escape =>
    match operandWidth c with
    | 0 => ⟨p.depth, .plain⟩
    | n + 1 => ⟨p.depth, .operand true n⟩
  | .operand letter more =>
    if letter ∧ c = '\x7b' then ⟨p.depth, .braced⟩
    else
      match more with
      | 0 => ⟨p.depth, .plain⟩
      | n + 1 => ⟨p.depth, .operand false n⟩
  | .braced => if c = '\x7d' then ⟨p.depth, .plain⟩ else p
  | .bracket caret =>
    if c = ']' then ⟨p.depth, .plain⟩
    else if c = '^' ∧ caret = false then ⟨p.depth, .bracket true⟩
    else stepPlain p.depth c
  | .head => if c ∈ ')' :: insideSigns then {} else p

end Place

/-! ## Openings -/

/-- What a parenthesis opens. -/
inductive Opening where
  /-- A group that captures and has no name. -/
  | numbered
  /-- A group that captures and has a name. -/
  | named
  /-- A group that does not capture, or flags, or what else has a question mark in front. -/
  | other
  /-- A comment, or flags under which blanks and comments are left out. -/
  | extended
  deriving DecidableEq, Repr

/-- What a parenthesis opens, by what comes behind it. -/
def Opening.ofBehind : List Char → Opening
  | '?' :: 'P' :: '<' :: _ => named
  | '?' :: '<' :: '=' :: _ | '?' :: '<' :: '!' :: _ => other
  | '?' :: '<' :: _ => named
  | '?' :: '#' :: _ => extended
  | '?' :: rest => if 'x' ∈ rest.takeWhile (· ∉ '-' :: ')' :: insideSigns) then extended else other
  | _ => numbered

/-- Where it is that what comes behind a parenthesis begins. -/
def Opening.place : Opening → Place
  | numbered => {}
  | named | other | extended => ⟨0, .head⟩

/-- What the parentheses of a text open, from a place on. -/
def openings (p : Place) : List Char → List Opening
  | [] => []
  | c :: rest =>
    if c = '(' ∧ p = {} then
      Opening.ofBehind rest ::
        if Opening.ofBehind rest = .extended then [] else openings (Opening.ofBehind rest).place rest
    else openings (p.step c) rest

/-- Whether a group captures. -/
def Opening.captures : Opening → Bool
  | numbered | named => true
  | other | extended => false

/-- The number of groups of a native pattern that capture. -/
def capturingGroups (text : List Char) : Nat := (openings {} text).countP Opening.captures

/-- The number of groups of a native pattern that have a name. -/
def namedGroups (text : List Char) : Nat := (openings {} text).count .named

/-- A group that captures has a name or has none. -/
theorem countP_captures (os : List Opening) : os.countP Opening.captures = os.count .numbered + os.count .named := by
  induction os with
  | nil => rfl
  | cons o os ih =>
    rw [List.countP_cons, List.count_cons, List.count_cons, ih]
    cases o <;> simp [Opening.captures] <;> omega

example : openings {} "(a(?<n>[(])\\()(?:\\p\x7b(\x7d(?=b))(?i)[]^(]".toList =
    [.numbered, .named, .other, .other, .other] := by
  decide

/-! ## What opens no group -/

section

variable {d : Nat} {c : Char} {rest : List Char}

theorem openings_step {p : Place} (h : p ≠ {}) : openings p (c :: rest) = openings (p.step c) rest := by
  rw [openings, if_neg fun hp => h hp.2]

theorem openings_begun (d : Nat) (phase : Phase) (h : phase ≠ .plain) :
    openings ⟨d, phase⟩ (c :: rest) = openings (Place.step ⟨d, phase⟩ c) rest :=
  openings_step fun hp => h (congrArg Place.phase hp)

theorem openings_inside (d : Nat) (phase : Phase) :
    openings ⟨d + 1, phase⟩ (c :: rest) = openings (Place.step ⟨d + 1, phase⟩ c) rest :=
  openings_step fun hp => Nat.succ_ne_zero d (congrArg Place.depth hp)

theorem openings_ordinary (hc : c ∉ Grammar.Place.signs) (h : d ≠ 0 ∨ c ≠ '(') :
    openings ⟨d, .plain⟩ (c :: rest) = openings ⟨d, .plain⟩ rest := by
  have hparen : ¬ (c = '(' ∧ (⟨d, .plain⟩ : Place) = {}) := by
    rintro ⟨rfl, hp⟩
    rcases h with hd | hc
    · exact hd (congrArg Place.depth hp)
    · exact hc rfl
  simp only [Grammar.Place.signs, List.mem_cons, List.not_mem_nil, or_false, not_or] at hc
  rw [openings, if_neg hparen]
  simp [Place.step, Place.stepPlain, hc]

/-- Outside classes a closing bracket is a character like others. -/
theorem openings_char (hc : c ∉ ['(', '[', '\\']) : openings {} (c :: rest) = openings {} rest := by
  simp only [List.mem_cons, List.not_mem_nil, or_false, not_or] at hc
  by_cases hclose : c = ']'
  · subst hclose
    rfl
  · exact openings_ordinary (by simp [Grammar.Place.signs, hc, hclose]) (.inr hc.1)

theorem openings_chars {text : List Char} (h : ∀ c ∈ text, c ∉ ['(', '[', '\\']) :
    openings {} (text ++ rest) = openings {} rest := by
  induction text with
  | nil => rfl
  | cons c text ih =>
    rw [List.cons_append, openings_char (h c List.mem_cons_self), ih fun x hx => h x (List.mem_cons_of_mem _ hx)]

theorem openings_digits {digits : List Char} (h : ∀ c ∈ digits, c.isDigit = true) :
    openings ⟨d, .plain⟩ (digits ++ rest) = openings ⟨d, .plain⟩ rest := by
  induction digits with
  | nil => rfl
  | cons c digits ih =>
    obtain ⟨hparen, hsigns⟩ := not_or.mp (mt List.mem_cons.mpr
      (Grammar.Place.not_mem_signs_of_isDigit (h c List.mem_cons_self)))
    rw [List.cons_append, openings_ordinary hsigns (.inr hparen), ih fun x hx => h x (List.mem_cons_of_mem _ hx)]

/-! ### Escapes -/

theorem operandWidth_eq (letter : Char) : Scan.escapeWidth? letter = if operandWidth letter = 0 then none
    else some (operandWidth letter) := by
  unfold Scan.escapeWidth? operandWidth
  split <;> simp_all

theorem openings_braced {text : List Char} (h : '\x7d' ∉ text) :
    openings ⟨d, .braced⟩ (text ++ '\x7d' :: rest) = openings ⟨d, .plain⟩ rest := by
  induction text with
  | nil => exact openings_begun d .braced nofun
  | cons c text ih =>
    obtain ⟨hc, htext⟩ := not_or.mp (mt List.mem_cons.mpr h)
    have hstep : Place.step ⟨d, .braced⟩ c = ⟨d, .braced⟩ := if_neg (Ne.symm hc)
    rw [List.cons_append, openings_begun d .braced nofun, hstep, ih htext]

theorem openings_operand {n : Nat} {text : List Char} (h : text.length = n + 1) :
    openings ⟨d, .operand false n⟩ (text ++ rest) = openings ⟨d, .plain⟩ rest := by
  induction text generalizing n with
  | nil => cases h
  | cons c text ih =>
    rw [List.cons_append, openings_begun d (.operand false n) nofun]
    cases n with
    | zero =>
      obtain rfl : text = [] := List.length_eq_zero_iff.mp (Nat.succ.inj h)
      rfl
    | succ n => exact ih (Nat.succ.inj h)

/-- An escape that is over behind its letter, or behind a text in braces, or behind so many characters. -/
theorem openings_lettered {letter : Char} {operand : List Char} (h : Operand letter operand) :
    openings ⟨d, .escape⟩ (letter :: (operand ++ rest)) = openings ⟨d, .plain⟩ rest := by
  rw [openings_begun d .escape nofun]
  cases h with
  | none hwidth _ =>
    have hzero : operandWidth letter = 0 := by
      rw [operandWidth_eq] at hwidth
      simpa using hwidth
    simp [Place.step, hzero]
  | @braced width text hwidth htext =>
    obtain ⟨n, hn⟩ : ∃ n, operandWidth letter = n + 1 := by
      refine Nat.exists_eq_succ_of_ne_zero fun hzero => ?_
      rw [operandWidth_eq, if_pos hzero] at hwidth
      cases hwidth
    have hletter : Place.step ⟨d, .escape⟩ letter = ⟨d, .operand true n⟩ := by simp [Place.step, hn]
    rw [hletter, List.cons_append, openings_begun d (.operand true n) nofun, List.append_assoc]
    exact openings_braced htext
  | fixed hwidth hbrace =>
    rw [operandWidth_eq] at hwidth
    split at hwidth
    · cases hwidth
    · next hpos =>
      obtain ⟨n, hn⟩ := Nat.exists_eq_succ_of_ne_zero hpos
      have hlength : operand.length = n + 1 := (Option.some.inj hwidth).symm.trans hn
      have hletter : Place.step ⟨d, .escape⟩ letter = ⟨d, .operand true n⟩ := by simp [Place.step, hn]
      rw [hletter, ← openings_operand hlength]
      -- The first character is no brace, so that it is one of those that are counted.
      cases operand with
      | nil => cases hlength
      | cons c operand =>
        have hc : c ≠ '\x7b' := fun he => hbrace (congrArg some he)
        rw [List.cons_append, openings_begun d (.operand true n) nofun, openings_begun d (.operand false n) nofun]
        cases n <;> simp [Place.step, hc]

theorem openings_escape {e : Escape} (h : e.Legal) :
    openings ⟨d, .plain⟩ (e.text ++ rest) = openings ⟨d, .plain⟩ rest := by
  have hbackslash (text : List Char) : openings ⟨d, .plain⟩ ('\\' :: text) = openings ⟨d, .escape⟩ text := by
    rw [openings, if_neg fun hp => absurd hp.1 (by decide)]
    rfl
  cases e with
  | lettered letter operand => exact (hbackslash _).trans (openings_lettered h)
  | numbered digits =>
    obtain ⟨⟨hne, hdigits⟩, _⟩ := h
    obtain ⟨c, digits, rfl⟩ := List.exists_cons_of_ne_nil hne
    have hwidth : operandWidth c = 0 := by
      have hc := hdigits c List.mem_cons_self
      unfold operandWidth
      split <;> first | rfl | cases hc
    have hfirst : Place.step ⟨d, .escape⟩ c = ⟨d, .plain⟩ := by simp [Place.step, hwidth]
    refine (hbackslash (c :: digits ++ rest)).trans ?_
    rw [List.cons_append, openings_begun d .escape nofun, hfirst,
      openings_digits fun x hx => hdigits x (List.mem_cons_of_mem _ hx)]

/-! ### Classes -/

theorem openings_classRest {inner : Nat} {text : List Char} (h : ClassRest inner text) :
    openings ⟨inner + 1, .plain⟩ (text ++ ']' :: rest) = openings {} rest := by
  induction h with
  | nil => exact openings_inside 0 .plain
  | char hc _ ih => exact (openings_ordinary hc (.inl (Nat.succ_ne_zero _))).trans ih
  | @opens inner _ _ ih =>
    rw [List.cons_append, openings_inside inner .plain]
    exact ih
  | @closes inner _ _ ih =>
    rw [List.cons_append, openings_inside (inner + 1) .plain]
    exact ih
  | escape he _ _ ih => rw [List.append_assoc, openings_escape he, ih]

/-- In front of a class only a closing bracket is read in a way of its own, and a caret if there has been none. -/
theorem openings_bracket {caret : Bool} (hc : c ≠ ']') (hcaret : caret = false → c ≠ '^') :
    openings ⟨d + 1, .bracket caret⟩ (c :: rest) = openings ⟨d + 1, .plain⟩ (c :: rest) := by
  have hstep : Place.step ⟨d + 1, .bracket caret⟩ c = Place.step ⟨d + 1, .plain⟩ c :=
    (if_neg hc).trans (if_neg fun h => hcaret h.2 h.1)
  rw [openings_inside d (.bracket caret), openings_inside d .plain, hstep]

theorem openings_classBody {caret : Bool} {body : List Char} (h : ClassBody body)
    (hcaret : caret = false → body.head? ≠ some '^') :
    openings ⟨1, .bracket caret⟩ (body ++ ']' :: rest) = openings {} rest := by
  cases h with
  | bracket hrest =>
    rw [List.cons_append, openings_inside 0 (.bracket caret)]
    exact openings_classRest hrest
  | rest hne hrest =>
    rw [← openings_classRest hrest]
    obtain ⟨c, body, rfl⟩ := List.exists_cons_of_ne_nil hne
    have hc : c ≠ ']' := fun he => hrest.head_ne (congrArg some he)
    exact openings_bracket hc fun hf he => hcaret hf (congrArg some he)

theorem openings_charClass {negated : Bool} {body : List Char} (h : (Leaf.charClass negated body).Legal) :
    openings {} ((Leaf.charClass negated body).text ++ rest) = openings {} rest := by
  have hopen (text : List Char) : openings {} ('[' :: text) = openings ⟨1, .bracket false⟩ text := rfl
  cases negated with
  | false =>
    show openings {} ('[' :: (body ++ [']'] ++ rest)) = _
    rw [hopen, List.append_assoc]
    exact openings_classBody h.1 h.2
  | true =>
    show openings {} ('[' :: '^' :: (body ++ [']'] ++ rest)) = _
    rw [hopen, openings_inside 0 (.bracket false), List.append_assoc]
    exact openings_classBody h.1 nofun

/-! ### Heads of groups -/

theorem openings_flags {flags : List Char} {sign : Char} (hflags : IsFlags flags) (hsign : sign ∈ ')' :: insideSigns) :
    openings ⟨0, .head⟩ (flags ++ sign :: rest) = openings {} rest := by
  induction flags with
  | nil =>
    have hstep : Place.step ⟨0, .head⟩ sign = {} := if_pos hsign
    rw [List.nil_append, openings_begun 0 .head nofun, hstep]
  | cons c flags ih =>
    have hstep : Place.step ⟨0, .head⟩ c = ⟨0, .head⟩ := if_neg (hflags c List.mem_cons_self)
    rw [List.cons_append, openings_begun 0 .head nofun, hstep, ih fun x hx => hflags x (List.mem_cons_of_mem _ hx)]

/-- A question mark makes a group one that is not numbered. -/
theorem ofBehind_ne_numbered (rest : List Char) : Opening.ofBehind ('?' :: rest) ≠ .numbered := by
  unfold Opening.ofBehind
  split
  case h_6 => split <;> exact nofun
  case h_7 hne => exact absurd rfl (hne rest)
  all_goals exact nofun

theorem ofBehind_eq_numbered {text : List Char} (h : text.head? ≠ some '?') : Opening.ofBehind text = .numbered := by
  unfold Opening.ofBehind
  split
  case h_7 => rfl
  all_goals exact absurd rfl h

/-- What a parenthesis opens comes first, if the text is read on behind it. -/
theorem openings_paren (h : .extended ∉ openings {} ('(' :: rest)) :
    openings {} ('(' :: rest) = Opening.ofBehind rest :: openings (Opening.ofBehind rest).place rest := by
  rw [openings, if_pos ⟨rfl, rfl⟩] at h ⊢
  rw [if_neg fun he => h (by rw [he]; exact List.mem_cons_self)]

/-- A parenthesis without a question mark opens a group with a number. -/
theorem openings_numbered (hrest : rest.head? ≠ some '?') (h : .extended ∉ openings {} ('(' :: rest)) :
    openings {} ('(' :: rest) = .numbered :: openings {} rest := by
  rw [openings_paren h, ofBehind_eq_numbered hrest, Opening.place]

/-- A parenthesis with a question mark opens something else, and up to its sign there is nothing more. -/
theorem openings_head {flags : List Char} {sign : Char} (hflags : IsFlags flags) (hsign : sign ∈ ')' :: insideSigns)
    (h : .extended ∉ openings {} ('(' :: '?' :: (flags ++ sign :: rest))) :
    ∃ o, o ≠ .numbered ∧ openings {} ('(' :: '?' :: (flags ++ sign :: rest)) = o :: openings {} rest := by
  have hne := ofBehind_ne_numbered (flags ++ sign :: rest)
  have hplace : (Opening.ofBehind ('?' :: (flags ++ sign :: rest))).place = ⟨0, .head⟩ := by
    generalize Opening.ofBehind ('?' :: (flags ++ sign :: rest)) = o at hne
    cases o with
    | numbered => exact absurd rfl hne
    | named | other | extended => rfl
  refine ⟨_, hne, ?_⟩
  rw [openings_paren h, hplace, openings_begun 0 .head nofun]
  exact congrArg _ (openings_flags hflags hsign)

end

end XmlPattern.Verbatim
