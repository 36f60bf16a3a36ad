import XmlPattern.Proofs.Native.Reading

/-!
# Reading in front of a parenthesis

A closing parenthesis ends whatever is read of a pattern outside brackets, and what cannot be read without it cannot be
read with it unless it is taken. So a reader that leaves the parenthesis where it stands reads what it would have read
if the text had ended there, and no more.

- `SameUpTo`: two readings come to the same, one of them in front of more text.
- `SameUpTo.bind`: so do readings that go on from there.
- `Lexis.IsLocal`: what the escapes and the classes of a lexis must keep to.
- `pattern?_local`: patterns are read alike in front of a parenthesis and at the end of a text.
-/

namespace XmlPattern.Native

variable {α β σ τ : Type} {tail : List Char}

/-! ## Readings that come to the same -/

/-- What a reader leaves, in front of a closing parenthesis and of what follows it. -/
def inFront (tail : List Char) (x : β × List Char) : β × List Char := (x.1, x.2 ++ ')' :: tail)

/-- The state of a reader, in front of a closing parenthesis and of what follows it. -/
def Reading.inFront (tail : List Char) (x : β × Reading) : β × Reading := (x.1, ⟨x.2.rest ++ ')' :: tail, x.2.opened⟩)

/-- A reading has a result in front of more text exactly when another has it without. -/
def SameUpTo (more : σ → σ) (x y : Option σ) : Prop := ∀ b, x = some (more b) ↔ y = some b

theorem SameUpTo.of_map {more : σ → σ} (h : Function.Injective more) (x : Option σ) : SameUpTo more (x.map more) x := by
  intro b
  cases x with
  | none => simp
  | some a => simp [h.eq_iff]

theorem SameUpTo.none (more : σ → σ) : SameUpTo more Option.none Option.none := fun _ => by simp

/-- A reading that goes on behind another one, and only if that has left the text that follows. -/
theorem SameUpTo.bind {more : σ → σ} {more' : τ → τ} {x y : Option σ} {f g : σ → Option τ} (h : SameUpTo more x y)
    (hfg : ∀ b, y = some b → SameUpTo more' (f (more b)) (g b))
    (hleft : ∀ b c, f b = some (more' c) → ∃ b', b = more b') :
    SameUpTo more' (x.bind f) (y.bind g) := by
  intro c
  simp only [Option.bind_eq_some_iff]
  constructor
  · rintro ⟨b, hx, hf⟩
    obtain ⟨b, rfl⟩ := hleft b c hf
    have hy := (h b).mp hx
    exact ⟨b, hy, (hfg b hy c).mp hf⟩
  · rintro ⟨b, hy, hg⟩
    exact ⟨more b, (h b).mpr hy, (hfg b hy c).mpr hg⟩

theorem inFront_injective : Function.Injective (@inFront β tail) := by
  rintro ⟨a, rest⟩ ⟨b, rest'⟩ h
  simpa [inFront] using h

theorem Reading.inFront_injective : Function.Injective (@Reading.inFront β tail) := by
  rintro ⟨a, rest, n⟩ ⟨b, rest', m⟩ h
  simpa [Reading.inFront] using h

/-- Too little is left for the text that follows. -/
theorem SameUpTo.of_short {x : Option (β × List Char)} (h : ∀ a rest, x = some (a, rest) → rest <:+ tail) :
    SameUpTo (inFront tail) x Option.none := by
  intro b
  constructor
  · intro hx
    have hlen := (h b.1 _ hx).length_le
    simp only [List.length_append, List.length_cons] at hlen
    omega
  · exact nofun

theorem SameUpTo.of_short_reading {x : Option (β × Reading)} (h : ∀ a r, x = some (a, r) → r.rest <:+ tail) :
    SameUpTo (Reading.inFront tail) x Option.none := by
  intro b
  constructor
  · intro hx
    have hlen := (h b.1 _ hx).length_le
    simp only [List.length_append, List.length_cons] at hlen
    omega
  · exact nofun

/-- What is read may be made into something else, as long as that tells where the text that follows begins. -/
theorem SameUpTo.map {more : σ → σ} {more' : τ → τ} {x y : Option σ} (h : SameUpTo more x y) (f : σ → τ)
    (hf : ∀ b c, f b = more' c ↔ ∃ b', b = more b' ∧ f b' = c) : SameUpTo more' (x.map f) (y.map f) := by
  intro c
  simp only [Option.map_eq_some_iff, hf]
  constructor
  · rintro ⟨_, hx, b, rfl, hc⟩
    exact ⟨b, (h b).mp hx, hc⟩
  · rintro ⟨b, hy, hc⟩
    exact ⟨more b, (h b).mpr hy, b, rfl, hc⟩

theorem SameUpTo.map_fst {γ : Type} {x y : Option (β × List Char)} (h : SameUpTo (inFront tail) x y) (f : β → γ) :
    SameUpTo (inFront tail) (x.map fun (a, rest) => (f a, rest)) (y.map fun (a, rest) => (f a, rest)) := by
  refine h.map _ ?_
  rintro ⟨a, rest⟩ ⟨c, rest'⟩
  simp [inFront, eq_comm, and_comm]

theorem SameUpTo.map_reading {γ : Type} {x y : Option (β × Reading)}
    (h : SameUpTo (Reading.inFront tail) x y) (f : β → γ) :
    SameUpTo (Reading.inFront tail) (x.map fun (a, r) => (f a, r)) (y.map fun (a, r) => (f a, r)) := by
  refine h.map _ ?_
  rintro ⟨a, r⟩ ⟨c, r'⟩
  constructor
  · intro he
    obtain ⟨rfl, rfl⟩ := Prod.mk.inj he
    exact ⟨(a, r'), rfl, rfl⟩
  · rintro ⟨⟨b, u⟩, hb, hc⟩
    cases hb
    cases hc
    rfl

/-- What is read may become a part of a larger reading. -/
theorem SameUpTo.reading {γ : Type} {x y : Option (β × List Char)} (h : SameUpTo (inFront tail) x y) (f : β → γ)
    (opened : Nat) :
    SameUpTo (Reading.inFront tail) (x.map fun (a, rest) => (f a, (⟨rest, opened⟩ : Reading)))
      (y.map fun (a, rest) => (f a, (⟨rest, opened⟩ : Reading))) := by
  refine h.map _ ?_
  rintro ⟨a, rest⟩ ⟨c, rest', n⟩
  constructor
  · intro he
    cases he
    exact ⟨(a, rest'), rfl, rfl⟩
  · rintro ⟨⟨b, u⟩, hb, hc⟩
    cases hb
    cases hc
    rfl

/-- What leaves the text that follows had it behind what it was given. -/
theorem exists_inFront {rest rest' : List Char} (h : rest' ++ ')' :: tail <:+ rest) :
    ∃ front, rest = front ++ ')' :: tail := by
  obtain ⟨front, rfl⟩ := h
  exact ⟨front ++ rest', (List.append_assoc _ _ _).symm⟩

/-! ## Numerals and quantifiers -/

theorem digits_inFront (cs : List Char) : digits (cs ++ ')' :: tail) = inFront tail (digits cs) := by
  simp only [digits, List.span_eq_takeWhile_dropWhile, inFront]
  induction cs with
  | nil => rfl
  | cons c cs ih =>
    cases hc : c.isDigit <;> simp_all

theorem number?_inFront (cs : List Char) : number? (cs ++ ')' :: tail) = (number? cs).map (inFront tail) := by
  unfold number?
  rw [digits_inFront]
  rcases digits cs with ⟨_ | ⟨d, ds⟩, rest⟩ <;> rfl

theorem number?_suffix {cs rest : List Char} {n : Nat} (h : number? cs = some (n, rest)) : rest <:+ cs := by
  unfold number? at h
  split at h
  · cases h
  · next hspan =>
    cases h
    rw [digits, List.span_eq_takeWhile_dropWhile] at hspan
    rw [← (Prod.mk.inj hspan).2]
    exact List.dropWhile_suffix _

/-- What follows the lower bound. -/
def upperBound? (lower : Nat) (rest : List Char) : Option (Quantifier × List Char) :=
  match rest with
  | '\x7d' :: rest => some (⟨lower, some lower⟩, rest)
  | ',' :: rest =>
    match number? rest, rest with
    | some (upper, '\x7d' :: rest), _ => some (⟨lower, some upper⟩, rest)
    | none, '\x7d' :: rest => some (⟨lower, none⟩, rest)
    | _, _ => none
  | _ => none

theorem bounds?_eq (cs : List Char) : bounds? cs = match cs.head? == some ',', number? cs with
    | false, none => none
    | _, lower => upperBound? (lower.getD (0, cs)).1 (lower.getD (0, cs)).2 := by
  unfold bounds? upperBound?
  rfl

theorem upperBound?_inFront (lower : Nat) (cs : List Char) :
    upperBound? lower (cs ++ ')' :: tail) = (upperBound? lower cs).map (inFront tail) := by
  cases cs with
  | nil => rfl
  | cons c cs =>
    by_cases hbrace : c = '\x7d'
    · subst hbrace
      rfl
    · by_cases hcomma : c = ','
      · subst hcomma
        simp only [List.cons_append, upperBound?, number?_inFront]
        cases number? cs with
        | none =>
          cases cs with
          | nil => rfl
          | cons d cs =>
            by_cases hd : d = '\x7d'
            · subst hd
              rfl
            · simp [hd]
        | some x =>
          obtain ⟨upper, rest⟩ := x
          cases rest with
          | nil => rfl
          | cons d rest =>
            by_cases hd : d = '\x7d'
            · subst hd
              rfl
            · simp [inFront, hd]
      · simp [upperBound?, hbrace, hcomma]

theorem upperBound?_suffix {lower : Nat} {cs rest : List Char} {q : Quantifier}
    (h : upperBound? lower cs = some (q, rest)) :
    rest <:+ cs := by
  unfold upperBound? at h
  split at h
  · cases h
    exact List.suffix_cons _ _
  · next behind =>
    split at h
    · next hupper =>
      cases h
      exact ((List.suffix_cons _ _).trans (number?_suffix hupper)).trans (List.suffix_cons _ _)
    · cases h
      exact (List.suffix_cons _ _).trans (List.suffix_cons _ _)
    · cases h
  · cases h

theorem bounds?_inFront (cs : List Char) : bounds? (cs ++ ')' :: tail) = (bounds? cs).map (inFront tail) := by
  have hcomma : ((cs ++ ')' :: tail).head? == some ',') = (cs.head? == some ',') := by
    cases cs <;> rfl
  rw [bounds?_eq, bounds?_eq, hcomma, number?_inFront]
  cases number? cs with
  | none =>
    cases cs.head? == some ',' with
    | false => rfl
    | true => exact upperBound?_inFront 0 cs
  | some x =>
    obtain ⟨lower, rest⟩ := x
    cases cs.head? == some ',' with
    | false => exact upperBound?_inFront lower rest
    | true => exact upperBound?_inFront lower rest

theorem bounds?_suffix {cs rest : List Char} {q : Quantifier} (h : bounds? cs = some (q, rest)) : rest <:+ cs := by
  rw [bounds?_eq] at h
  split at h
  · cases h
  · cases hn : number? cs with
    | none =>
      rw [hn] at h
      exact upperBound?_suffix h
    | some x =>
      rw [hn] at h
      exact (upperBound?_suffix h).trans (number?_suffix hn)

theorem quantifier?_inFront (cs : List Char) :
    quantifier? (cs ++ ')' :: tail) = (quantifier? cs).map (inFront tail) := by
  cases cs with
  | nil => rfl
  | cons c cs =>
    by_cases hc : c ∈ quantifiers
    · simp only [quantifiers, List.mem_cons, List.not_mem_nil, or_false] at hc
      rcases hc with rfl | rfl | rfl | rfl
      · rfl
      · rfl
      · rfl
      · exact bounds?_inFront cs
    · have hends (rest : List Char) : EndsPiece (c :: rest) := by
        rintro _ ⟨⟩
        exact hc
      rw [List.cons_append, quantifier?_of_endsPiece (hends _), quantifier?_of_endsPiece (hends _)]
      rfl

theorem quantifier?_suffix {cs rest : List Char} {q : Quantifier} (h : quantifier? cs = some (q, rest)) :
    rest <:+ cs := by
  unfold quantifier? at h
  split at h
  · cases h
    exact List.suffix_cons _ _
  · cases h
    exact List.suffix_cons _ _
  · cases h
    exact List.suffix_cons _ _
  · exact (bounds?_suffix h).trans (List.suffix_cons _ _)
  · cases h

/-- A quantifier is read alike in front of a parenthesis. -/
theorem quantified_inFront (a : Tree α) (cs : List Char) (n : Nat) :
    quantified a ⟨cs ++ ')' :: tail, n⟩ = (quantified a ⟨cs, n⟩).map (Reading.inFront tail) := by
  simp only [quantified, quantifier?_inFront]
  cases quantifier? cs with
  | none => rfl
  | some x =>
    obtain ⟨q, rest⟩ := x
    cases rest with
    | nil => rfl
    | cons c rest =>
      by_cases hc : c = '?'
      · subst hc
        rfl
      · simp [inFront, Reading.inFront, hc]

theorem quantified_suffix {a b : Tree α} {r r' : Reading} (h : quantified a r = some (b, r')) : r'.rest <:+ r.rest := by
  unfold quantified at h
  split at h
  · cases h
    exact List.suffix_rfl
  · next hq =>
    split at h
    · cases h
      exact (List.suffix_cons _ _).trans (quantifier?_suffix hq)
    · cases h
      exact quantifier?_suffix hq

/-! ## Escapes and groups -/

/-- The escapes and the classes of a lexis do not depend on a closing parenthesis that they leave where it stands. -/
structure Lexis.IsLocal (l : Lexis α) (tail : List Char) : Prop where
  escape (s : Scope) (cs : List Char) : SameUpTo (inFront tail) (l.escape? s (cs ++ ')' :: tail)) (l.escape? s cs)
  charClass (s : Scope) (cs : List Char) : SameUpTo (inFront tail) (l.class? s (cs ++ ')' :: tail)) (l.class? s cs)
  escape_suffix {s : Scope} {cs rest : List Char} {a : Tree α} : l.escape? s cs = some (a, rest) → rest <:+ cs
  class_suffix {s : Scope} {cs rest : List Char} {a : α} : l.class? s cs = some (a, rest) → rest <:+ cs

/-- A reader takes what it reads from the front. -/
def Inner.Shrinks (inner : Inner α) : Prop := ∀ {s r a r'}, inner s r = some (a, r') → r'.rest <:+ r.rest

/-- Two readers come to the same on texts that are short enough, the first in front of a closing parenthesis. -/
def Inner.SameBelow (tail : List Char) (bound : Nat) (inner inner' : Inner α) : Prop :=
  ∀ (s : Scope) (cs : List Char) (n : Nat), cs.length < bound →
    SameUpTo (Reading.inFront tail) (inner s ⟨cs ++ ')' :: tail, n⟩) (inner' s ⟨cs, n⟩)

variable {l : Lexis α} {inner inner' : Inner α} {s : Scope} {r r' : Reading} {a : Tree α} {n m k bound : Nat}
  {cs : List Char}

/-- The text that follows is left behind an atom if it is left in the end. -/
theorem exists_reading_inFront {σ : Type} {x : σ × Reading} {c : β × Reading}
    (h : (Reading.inFront tail c).2.rest <:+ x.2.rest) : ∃ y, x = Reading.inFront tail y := by
  obtain ⟨front, hfront⟩ := exists_inFront h
  obtain ⟨b, rest, opened⟩ := x
  subst hfront
  exact ⟨(b, ⟨front, opened⟩), rfl⟩

theorem escaped?_suffix (hl : l.IsLocal tail) (h : l.escaped? s r cs = some (a, r')) : r'.rest <:+ cs := by
  unfold Lexis.escaped? at h
  split at h
  · next hn =>
    split at h
    · cases h
      exact number?_suffix hn
    · cases h
  · obtain ⟨_, he, hr⟩ := Option.map_eq_some_iff.mp h
    cases hr
    exact hl.escape_suffix he

theorem escaped?_local (hl : l.IsLocal tail) (s : Scope) (rest rest' : List Char) (k : Nat) (cs : List Char) :
    SameUpTo (Reading.inFront tail) (l.escaped? s ⟨rest, k⟩ (cs ++ ')' :: tail)) (l.escaped? s ⟨rest', k⟩ cs) := by
  simp only [Lexis.escaped?, number?_inFront]
  cases number? cs with
  | none => exact (hl.escape s cs).reading id k
  | some x =>
    obtain ⟨number, behind⟩ := x
    simp only [Option.map_some, inFront]
    split
    · exact .of_map Reading.inFront_injective (some (Tree.reference number s.caseBlind, ⟨behind, k⟩))
    · exact .none _

theorem enclosed?_suffix {kind : GroupKind} (hi : inner.Shrinks) (h : enclosed? kind inner s r = some (a, r')) :
    r'.rest <:+ r.rest := by
  obtain ⟨⟨b, u⟩, hu, hclose⟩ := Option.bind_eq_some_iff.mp h
  have hsuffix := hi hu
  dsimp only at hclose
  split at hclose
  · next he =>
    cases hclose
    rw [he] at hsuffix
    exact (List.suffix_cons _ _).trans hsuffix
  · cases hclose

/-- A group that is closed by the parenthesis that follows does not leave it. -/
theorem enclosed?_local (kind : GroupKind) (hsame : inner.SameBelow tail bound inner') (s : Scope) (k : Nat)
    (hcs : cs.length < bound) :
    SameUpTo (Reading.inFront tail) (enclosed? kind inner s ⟨cs ++ ')' :: tail, k⟩)
      (enclosed? kind inner' s ⟨cs, k⟩) := by
  refine (hsame s cs k hcs).bind (fun x _ => ?_) fun x c h => ?_
  · obtain ⟨b, rest, opened⟩ := x
    rcases rest with _ | ⟨c, rest⟩
    · refine .of_short_reading fun _ _ h => ?_
      cases h
      exact List.suffix_rfl
    · by_cases hc : c = ')'
      · subst hc
        exact .of_map Reading.inFront_injective (some (Tree.group kind b, ⟨rest, opened⟩))
      · simp only [Reading.inFront, List.cons_append]
        split
        · next he => exact absurd (List.head_eq_of_cons_eq he) hc
        · split
          · next he => exact absurd (List.head_eq_of_cons_eq he) hc
          · exact .none _
  · obtain ⟨b, rest, opened⟩ := x
    dsimp only at h
    split at h
    · have hrest := congrArg Reading.rest (Prod.mk.inj (Option.some.inj h)).2
      refine exists_reading_inFront (c := c) ?_
      rw [← show _ = (Reading.inFront tail c).2.rest from hrest]
      exact List.suffix_cons _ _
    · cases h

/-- What the head of a group says behind its question mark: the kind of the group, and what is to be read inside it. -/
def markedHead? (s : Scope) (opened : Nat) : List Char → Option ((GroupKind × Scope) × Reading)
  | ':' :: rest => some ((.plain, s), ⟨rest, opened⟩)
  | 'i' :: ':' :: rest => some ((.caseless, { s with caseBlind := true }), ⟨rest, opened⟩)
  | '=' :: rest => some ((.lookAhead true, s), ⟨rest, opened⟩)
  | '!' :: rest => some ((.lookAhead false, s), ⟨rest, opened⟩)
  | '<' :: '=' :: rest => some ((.lookBehind true, s), ⟨rest, opened⟩)
  | '<' :: '!' :: rest => some ((.lookBehind false, s), ⟨rest, opened⟩)
  | _ => none

/-- What a group begins with. -/
def groupHead? (s : Scope) (opened : Nat) : List Char → Option ((GroupKind × Scope) × Reading)
  | '?' :: rest => markedHead? s opened rest
  | rest => some ((.capturing (opened + 1), s), ⟨rest, opened + 1⟩)

theorem group?_eq (inner : Inner α) (s : Scope) (r : Reading) (cs : List Char) :
    group? inner s r cs = (groupHead? s r.opened cs).bind fun x => enclosed? x.1.1 inner x.1.2 x.2 := by
  unfold group? groupHead? markedHead?
  split <;> simp_all

theorem markedHead?_inFront (s : Scope) (k : Nat) (cs : List Char) :
    markedHead? s k (cs ++ ')' :: tail) = (markedHead? s k cs).map (Reading.inFront tail) := by
  rcases cs with _ | ⟨c, cs⟩
  · rfl
  by_cases hi : c = 'i'
  · subst hi
    rcases cs with _ | ⟨d, cs⟩
    · rfl
    · by_cases hd : d = ':' <;> simp [markedHead?, Reading.inFront, hd]
  by_cases hb : c = '<'
  · subst hb
    rcases cs with _ | ⟨d, cs⟩
    · rfl
    · by_cases he : d = '=' <;> by_cases hn : d = '!' <;> simp_all [markedHead?, Reading.inFront]
  by_cases hp : c = ':' <;> by_cases he : c = '=' <;> by_cases hn : c = '!' <;> simp_all [markedHead?, Reading.inFront]

theorem groupHead?_inFront (s : Scope) (k : Nat) (cs : List Char) :
    groupHead? s k (cs ++ ')' :: tail) = (groupHead? s k cs).map (Reading.inFront tail) := by
  rcases cs with _ | ⟨c, cs⟩
  · rfl
  · by_cases hc : c = '?'
    · subst hc
      exact markedHead?_inFront s k cs
    · simp [groupHead?, Reading.inFront, hc]

theorem groupHead?_suffix {x : (GroupKind × Scope) × Reading} (h : groupHead? s k cs = some x) : x.2.rest <:+ cs := by
  unfold groupHead? at h
  split at h
  · unfold markedHead? at h
    split at h <;> cases h <;> simp [List.suffix_cons_iff]
  · cases h
    exact List.suffix_rfl

theorem group?_suffix (hi : inner.Shrinks) (h : group? inner s r cs = some (a, r')) : r'.rest <:+ cs := by
  rw [group?_eq] at h
  obtain ⟨x, hx, hinside⟩ := Option.bind_eq_some_iff.mp h
  exact (enclosed?_suffix hi hinside).trans (groupHead?_suffix hx)

theorem group?_local (hi : inner.Shrinks) (hsame : inner.SameBelow tail bound inner') (s : Scope)
    (rest rest' : List Char) (k : Nat) (hcs : cs.length < bound) :
    SameUpTo (Reading.inFront tail) (group? inner s ⟨rest, k⟩ (cs ++ ')' :: tail)) (group? inner' s ⟨rest', k⟩ cs) := by
  rw [group?_eq, group?_eq]
  refine (groupHead?_inFront s k cs ▸ SameUpTo.of_map Reading.inFront_injective _).bind (fun x hx => ?_) fun x c h => ?_
  · exact enclosed?_local x.1.1 hsame x.1.2 x.2.opened (Nat.lt_of_le_of_lt (groupHead?_suffix hx).length_le hcs)
  · exact exists_reading_inFront (enclosed?_suffix hi h)

/-! ## Atoms -/

theorem atom?_cons (c : Char) (rest : List Char) (k : Nat) : l.atom? inner s ⟨c :: rest, k⟩ =
    if c = '*' ∨ c = '+' ∨ c = '?' then none
    else if c = '.' then some (.chars l.dot, ⟨rest, k⟩)
    else if c = '^' then some (.boundary (if s.multiLine then .lineStart else .textStart), ⟨rest, k⟩)
    else if c = '$' then some (.boundary (if s.multiLine then .lineEnd else .textEnd), ⟨rest, k⟩)
    else if c = '(' then group? inner s ⟨c :: rest, k⟩ rest
    else if c = '\\' then l.escaped? s ⟨c :: rest, k⟩ rest
    else if c = '[' then (l.class? s rest).map fun (set, rest) => (.chars set, ⟨rest, k⟩)
    else (l.plain? s c).map fun set => (.chars set, ⟨rest, k⟩) := by
  unfold Lexis.atom?
  split <;> simp_all

theorem atom?_suffix (hl : l.IsLocal tail) (hi : inner.Shrinks) (h : l.atom? inner s r = some (a, r')) :
    r'.rest <:+ r.rest.tail := by
  obtain ⟨_ | ⟨c, cs⟩, k⟩ := r
  · cases h
  · rw [atom?_cons] at h
    split at h
    · cases h
    split at h
    · cases h
      exact List.suffix_rfl
    split at h
    · cases h
      exact List.suffix_rfl
    split at h
    · cases h
      exact List.suffix_rfl
    split at h
    · exact group?_suffix hi h
    split at h
    · exact escaped?_suffix hl h
    split at h
    · obtain ⟨_, hclass, he⟩ := Option.map_eq_some_iff.mp h
      cases he
      exact hl.class_suffix hclass
    · obtain ⟨_, _, he⟩ := Option.map_eq_some_iff.mp h
      cases he
      exact List.suffix_rfl

theorem atom?_local (hl : l.IsLocal tail) (hi : inner.Shrinks) (hsame : inner.SameBelow tail bound inner') (s : Scope)
    (k : Nat) (hcs : cs.length ≤ bound) :
    SameUpTo (Reading.inFront tail) (l.atom? inner s ⟨cs ++ ')' :: tail, k⟩) (l.atom? inner' s ⟨cs, k⟩) := by
  have hconst (t : Option (Tree α)) (rest : List Char) : SameUpTo (Reading.inFront tail)
      (t.map fun t => (t, (⟨rest ++ ')' :: tail, k⟩ : Reading))) (t.map fun t => (t, ⟨rest, k⟩)) := by
    cases t with
    | none => exact .none _
    | some t => exact .of_map Reading.inFront_injective (some (t, ⟨rest, k⟩))
  rcases cs with _ | ⟨c, cs⟩
  · -- The parenthesis itself might be an atom of a lexis.
    exact .of_short_reading fun _ _ h => atom?_suffix hl hi h
  · rw [List.cons_append, atom?_cons, atom?_cons]
    split
    · exact .none _
    split
    · exact hconst (some _) cs
    split
    · exact hconst (some _) cs
    split
    · exact hconst (some _) cs
    split
    · exact group?_local hi hsame s _ _ k hcs
    split
    · exact escaped?_local hl s _ _ k cs
    split
    · exact (hl.charClass s cs).reading Tree.chars k
    · have hplain := hconst ((l.plain? s c).map Tree.chars) cs
      rw [Option.map_map, Option.map_map] at hplain
      exact hplain

/-! ## Branches and patterns -/

/-- A sequence goes on with an atom unless it is over. -/
theorem endsBranch_nil : EndsBranch [] := nofun

theorem branch?_step (h : ¬ EndsBranch r.rest) : l.branch? inner s (m + 1) r =
    (l.atom? inner s r).bind fun x => (quantified x.1 x.2).bind fun x =>
      (l.branch? inner s m x.2).map fun y => (.seq x.1 y.1, y.2) := by
  obtain ⟨rest, k⟩ := r
  rw [Lexis.branch?]
  split
  · next he =>
    cases he
    exact absurd endsBranch_nil h
  · next he =>
    cases he
    exact absurd (endsBranch_bar _) h
  · next he =>
    cases he
    exact absurd (endsPattern_paren _).endsBranch h
  · simp only [Option.map_eq_bind]
    rfl

theorem branch?_suffix (hl : l.IsLocal tail) (hi : inner.Shrinks) (h : l.branch? inner s m r = some (a, r')) :
    r'.rest <:+ r.rest := by
  induction m generalizing r a with
  | zero =>
    cases h
    exact List.suffix_rfl
  | succ m ih =>
    by_cases hend : EndsBranch r.rest
    · rw [branch?_end hend] at h
      cases h
      exact List.suffix_rfl
    · rw [branch?_step hend] at h
      obtain ⟨x, hx, h⟩ := Option.bind_eq_some_iff.mp h
      obtain ⟨y, hy, h⟩ := Option.bind_eq_some_iff.mp h
      obtain ⟨z, hz, he⟩ := Option.map_eq_some_iff.mp h
      cases he
      have hatom := (atom?_suffix hl hi hx).trans (List.tail_suffix _)
      exact ((ih hz).trans (quantified_suffix hy)).trans hatom

/-- A branch is over in front of a parenthesis exactly when it is over at the end of the text. -/
theorem endsBranch_inFront (cs : List Char) : EndsBranch (cs ++ ')' :: tail) ↔ EndsBranch cs := by
  rcases cs with _ | ⟨c, cs⟩
  · exact iff_of_true (endsPattern_paren tail).endsBranch endsBranch_nil
  · exact Iff.rfl

theorem length_pos_of_not_endsBranch {cs : List Char} (h : ¬ EndsBranch cs) : 0 < cs.length := by
  rcases cs with _ | ⟨c, cs⟩
  · exact absurd endsBranch_nil h
  · exact Nat.succ_pos _

theorem branch?_local (hl : l.IsLocal tail) (hi : inner.Shrinks) (hi' : inner'.Shrinks)
    (hsame : inner.SameBelow tail bound inner') (s : Scope) (k : Nat) (hcs : cs.length ≤ bound)
    (hn : (cs ++ ')' :: tail).length ≤ n) (hm : cs.length ≤ m) :
    SameUpTo (Reading.inFront tail) (l.branch? inner s n ⟨cs ++ ')' :: tail, k⟩) (l.branch? inner' s m ⟨cs, k⟩) := by
  induction m generalizing n cs k with
  | zero =>
    obtain rfl := List.length_eq_zero_iff.mp (Nat.le_zero.mp hm)
    rw [branch?_end ((endsBranch_inFront []).mpr endsBranch_nil)]
    exact .of_map Reading.inFront_injective (some (Tree.empty, ⟨[], k⟩))
  | succ m ih =>
    by_cases hend : EndsBranch cs
    · rw [branch?_end ((endsBranch_inFront cs).mpr hend), branch?_end hend]
      exact .of_map Reading.inFront_injective (some (Tree.empty, ⟨cs, k⟩))
    · have hpos := length_pos_of_not_endsBranch hend
      simp only [List.length_append, List.length_cons] at hn
      obtain ⟨n, rfl⟩ := Nat.exists_eq_add_one.mpr (show 0 < n by omega)
      have hend' : ¬ EndsBranch (cs ++ ')' :: tail) := mt (endsBranch_inFront cs).mp hend
      rw [branch?_step hend', branch?_step hend]
      refine (atom?_local hl hi hsame s k hcs).bind (fun x hx => ?_) fun x c h => ?_
      · have hatom := (atom?_suffix hl hi' hx).length_le
        dsimp only at hatom
        rw [List.length_tail] at hatom
        refine (quantified_inFront x.1 x.2.rest x.2.opened ▸ SameUpTo.of_map Reading.inFront_injective _).bind
          (fun y hy => ?_) fun y c h => ?_
        · have hquantified := (quantified_suffix hy).length_le
          dsimp only at hquantified
          have hfuel : (y.2.rest ++ ')' :: tail).length ≤ n := by
            simp only [List.length_append, List.length_cons]
            omega
          exact (ih y.2.opened (by omega) hfuel (by omega)).map_reading (Tree.seq y.1)
        · obtain ⟨z, hz, he⟩ := Option.map_eq_some_iff.mp h
          refine exists_reading_inFront (c := c) ?_
          rw [← he]
          exact branch?_suffix hl hi hz
      · obtain ⟨y, hy, h⟩ := Option.bind_eq_some_iff.mp h
        obtain ⟨z, hz, he⟩ := Option.map_eq_some_iff.mp h
        refine exists_reading_inFront (c := c) ?_
        rw [← he]
        exact (branch?_suffix hl hi hz).trans (quantified_suffix hy)

/-- What follows a branch: a bar and further branches, or the end of the pattern. -/
def alternatives? (l : Lexis α) (inner : Inner α) (s : Scope) (n : Nat) (x : Tree α × Reading) :
    Option (Tree α × Reading) :=
  match x.2.rest with
  | '|' :: rest => (l.branches? inner s n ⟨rest, x.2.opened⟩).map fun (b, r) => (.alt x.1 b, r)
  | _ => some x

theorem branches?_eq : l.branches? inner s (n + 1) r = (l.branch? inner s n r).bind (alternatives? l inner s n) := by
  rw [Lexis.branches?]
  unfold alternatives?
  simp only [Option.map_eq_bind]
  rfl

theorem branches?_suffix (hl : l.IsLocal tail) (hi : inner.Shrinks) (h : l.branches? inner s n r = some (a, r')) :
    r'.rest <:+ r.rest := by
  induction n generalizing r a with
  | zero =>
    cases h
    exact List.suffix_rfl
  | succ n ih =>
    rw [branches?_eq] at h
    obtain ⟨x, hx, h⟩ := Option.bind_eq_some_iff.mp h
    have hbranch := branch?_suffix hl hi hx
    unfold alternatives? at h
    split at h
    · next hbar =>
      obtain ⟨y, hy, he⟩ := Option.map_eq_some_iff.mp h
      cases he
      rw [hbar] at hbranch
      exact ((ih hy).trans (List.suffix_cons _ _)).trans hbranch
    · cases h
      exact hbranch

theorem branches?_local (hl : l.IsLocal tail) (hi : inner.Shrinks) (hi' : inner'.Shrinks)
    (hsame : inner.SameBelow tail bound inner') (s : Scope) (k : Nat) (hcs : cs.length ≤ bound)
    (hn : (cs ++ ')' :: tail).length < n) (hm : cs.length < m) :
    SameUpTo (Reading.inFront tail) (l.branches? inner s n ⟨cs ++ ')' :: tail, k⟩)
      (l.branches? inner' s m ⟨cs, k⟩) := by
  induction m generalizing n cs k with
  | zero => exact absurd hm (Nat.not_lt_zero _)
  | succ m ih =>
    obtain ⟨n, rfl⟩ := Nat.exists_eq_add_one.mpr (Nat.zero_lt_of_lt hn)
    rw [branches?_eq, branches?_eq]
    have hbranch := branch?_local hl hi hi' hsame s k hcs (Nat.le_of_lt_succ hn) (Nat.le_of_lt_succ hm)
    refine hbranch.bind (fun x hx => ?_) fun x c h => ?_
    · obtain ⟨b, rest, opened⟩ := x
      have hsuffix := (branch?_suffix hl hi' hx).length_le
      rcases rest with _ | ⟨c, rest⟩
      · exact .of_map Reading.inFront_injective (some (b, ⟨[], opened⟩))
      · by_cases hc : c = '|'
        · subst hc
          simp only [List.length_append, List.length_cons] at hn hsuffix
          have hfuel : (rest ++ ')' :: tail).length < n := by
            simp only [List.length_append, List.length_cons]
            omega
          exact (ih opened (by omega) hfuel (by omega)).map_reading (Tree.alt b)
        · have hstop (inner : Inner α) (n : Nat) (rest : List Char) :
              alternatives? l inner s n (b, ⟨c :: rest, opened⟩) = some (b, ⟨c :: rest, opened⟩) := by
            simp [alternatives?, hc]
          rw [Reading.inFront, List.cons_append, hstop, hstop]
          exact .of_map Reading.inFront_injective (some (b, ⟨c :: rest, opened⟩))
    · refine exists_reading_inFront (c := c) ?_
      unfold alternatives? at h
      split at h
      · next hbar =>
        obtain ⟨y, hy, he⟩ := Option.map_eq_some_iff.mp h
        rw [hbar, ← he]
        exact (branches?_suffix hl hi hy).trans (List.suffix_cons _ _)
      · cases h
        exact List.suffix_rfl

theorem pattern?_shrinks (hl : l.IsLocal tail) (n : Nat) : (l.pattern? n).Shrinks := by
  induction n with
  | zero =>
    intro s r a r' h
    cases h
    exact List.suffix_rfl
  | succ n ih => exact fun h => branches?_suffix hl ih h

/-- Patterns are read alike in front of a closing parenthesis and at the end of a text, with fuel for either. -/
theorem pattern?_sameBelow (hl : l.IsLocal tail) (hn : bound + tail.length < n) (hm : bound ≤ m) :
    (l.pattern? n).SameBelow tail bound (l.pattern? m) := by
  induction m generalizing n bound with
  | zero =>
    intro s cs k hcs
    omega
  | succ m ih =>
    intro s cs k hcs
    obtain ⟨n, rfl⟩ := Nat.exists_eq_add_one.mpr (Nat.zero_lt_of_lt hn)
    rw [pattern?_succ, pattern?_succ]
    have hsame : (l.pattern? n).SameBelow tail cs.length (l.pattern? m) := ih (by omega) (by omega)
    exact branches?_local hl (pattern?_shrinks hl n) (pattern?_shrinks hl m) hsame s k (Nat.le_refl _)
      (Nat.lt_succ_self _) (Nat.lt_succ_self _)

/-- A text is a pattern on its own exactly when it is read up to the parenthesis that follows it. -/
theorem pattern?_inFront_iff (hl : l.IsLocal tail) (hn : (cs ++ ')' :: tail).length < n) :
    l.pattern? n s ⟨cs ++ ')' :: tail, k⟩ = some (a, ⟨')' :: tail, m⟩) ↔
      l.pattern? (cs.length + 1) s ⟨cs, k⟩ = some (a, ⟨[], m⟩) := by
  simp only [List.length_append, List.length_cons] at hn
  have hsame : (l.pattern? n).SameBelow tail (cs.length + 1) (l.pattern? (cs.length + 1)) :=
    pattern?_sameBelow hl (by omega) (Nat.le_refl _)
  exact hsame s cs k (Nat.lt_succ_self _) (a, ⟨[], m⟩)

theorem tree?_eq_some_iff {multiLine : Bool} :
    l.tree? multiLine cs = some (a, m) ↔ l.pattern? (cs.length + 1) { multiLine } ⟨cs, 0⟩ = some (a, ⟨[], m⟩) := by
  unfold Lexis.tree?
  constructor
  · intro h
    split at h
    · next hp =>
      cases h
      exact hp
    · cases h
  · intro h
    rw [h]

end XmlPattern.Native
