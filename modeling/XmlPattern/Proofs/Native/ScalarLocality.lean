import XmlPattern.Native.ScalarLexis
import XmlPattern.Proofs.Native.Locality

/-!
# Escapes and classes in front of a parenthesis

The escapes and the classes of the scalar dialect keep to what patterns ask of a lexis: none of them takes more or less
because a closing parenthesis follows, unless it takes the parenthesis itself. A class that the text leaves open stays
open, or has the parenthesis as a member.

- `classItems?_local`: the items of a class, by induction on the text.
- `isLocal_scalar`: the lexis of the scalar dialect is local.
-/

namespace XmlPattern.Native

variable {tail : List Char}

/-! ## Escapes and classes over characters -/

theorem hexChar?_suffix {cs rest : List Char} {c : Char} (h : hexChar? cs = some (c, rest)) : rest <:+ cs.tail := by
  unfold hexChar? at h
  split at h
  · next behind =>
    split at h
    · next hspan =>
      simp only [Option.bind_eq_bind, Option.bind_eq_some_iff, Option.pure_def, Option.some.injEq, Prod.mk.injEq] at h
      obtain ⟨_, _, _, _, _, rfl⟩ := h
      rw [List.span_eq_takeWhile_dropWhile] at hspan
      have hdrop := List.dropWhile_suffix (l := behind) (· != '\x7d')
      rw [(Prod.mk.inj hspan).2] at hdrop
      exact (List.suffix_cons _ _).trans hdrop
    · cases h
  · simp only [Option.bind_eq_bind, Option.bind_eq_some_iff, Option.pure_def, Option.some.injEq, Prod.mk.injEq] at h
    obtain ⟨_, _, _, _, _, rfl⟩ := h
    exact List.suffix_cons _ _
  · cases h

theorem member?_suffix {s : Scope} {cs rest : List Char} {m : Member} (h : member? s cs = some (m, rest)) :
    rest <:+ cs.tail := by
  unfold member? at h
  split at h
  · cases h
    exact List.suffix_rfl
  · cases h
    exact List.suffix_rfl
  · cases h
    exact List.suffix_rfl
  · obtain ⟨_, hx, he⟩ := Option.map_eq_some_iff.mp h
    cases he
    exact (hexChar?_suffix hx).trans (List.tail_suffix _)
  · split at h
    · cases h
      exact List.suffix_rfl
    · obtain ⟨_, _, he⟩ := Option.map_eq_some_iff.mp h
      cases he
      exact List.suffix_rfl
  · cases h

theorem scalarEscape?_suffix {s : Scope} {cs rest : List Char} {t : Tree CharSet}
    (h : scalarEscape? s cs = some (t, rest)) :
    rest <:+ cs.tail := by
  unfold scalarEscape? at h
  split at h
  · cases h
    exact List.suffix_rfl
  · cases h
    exact List.suffix_rfl
  · obtain ⟨_, hm, he⟩ := Option.map_eq_some_iff.mp h
    cases he
    exact member?_suffix hm

theorem classMember?_suffix {s : Scope} {cs rest : List Char} {m : Member} (h : classMember? s cs = some (m, rest)) :
    rest <:+ cs.tail := by
  unfold classMember? at h
  split at h
  · exact (member?_suffix h).trans (List.tail_suffix _)
  · cases h
    exact List.suffix_rfl
  · cases h

/-- The characters of a range. -/
def spanTo? (lo : Char) : Member → Option CharSet
  | .char hi => if lo ≤ hi then some (.span lo.toNat hi.toNat) else none
  | .set _ => none

/-- What follows the hyphen of a range. -/
def rangeTo? (s : Scope) (lo : Char) (cs : List Char) : Option (CharSet × List Char) :=
  (classMember? s cs).bind fun x => (spanTo? lo x.1).map (·, x.2)

/-- What follows a member of a class: it may begin a range. -/
def rangeFrom? (s : Scope) : Member × List Char → Option (CharSet × List Char)
  | (.char lo, '-' :: ']' :: rest) => some (.single lo, '-' :: ']' :: rest)
  | (.char lo, '-' :: rest) => rangeTo? s lo rest
  | (m, rest) => some (m.chars, rest)

theorem classItem?_eq (s : Scope) (cs : List Char) : classItem? s cs = (classMember? s cs).bind (rangeFrom? s) := by
  unfold classItem?
  rcases classMember? s cs with _ | ⟨lo | _, rest⟩
  · rfl
  · rcases rest with _ | ⟨c, _ | ⟨d, rest⟩⟩
    · rfl
    · by_cases hc : c = '-'
      · rw [hc]
        rfl
      · simp [rangeFrom?, hc]
    · by_cases hc : c = '-'
      · rw [hc]
        by_cases hd : d = ']'
        · rw [hd]
          rfl
        · rcases hm : classMember? s (d :: rest) with _ | ⟨hi | _, _⟩
          · simp [rangeFrom?, rangeTo?, hd, hm]
          · by_cases hle : lo ≤ hi <;> simp [rangeFrom?, rangeTo?, spanTo?, hd, hm, hle]
          · simp [rangeFrom?, rangeTo?, spanTo?, hd, hm]
      · simp [rangeFrom?, hc]
  · simp [rangeFrom?]

theorem rangeTo?_suffix {s : Scope} {lo : Char} {cs rest : List Char} {set : CharSet}
    (h : rangeTo? s lo cs = some (set, rest)) : rest <:+ cs.tail := by
  obtain ⟨⟨m, behind⟩, hm, hspan⟩ := Option.bind_eq_some_iff.mp h
  obtain ⟨_, _, he⟩ := Option.map_eq_some_iff.mp hspan
  cases he
  exact classMember?_suffix hm

theorem rangeFrom?_suffix {s : Scope} {m : Member} {cs rest : List Char} {set : CharSet}
    (h : rangeFrom? s (m, cs) = some (set, rest)) : rest <:+ cs := by
  unfold rangeFrom? at h
  split at h
  · next he =>
    cases he
    cases h
    exact List.suffix_rfl
  · next he =>
    cases he
    exact ((rangeTo?_suffix h).trans (List.tail_suffix _)).trans (List.suffix_cons _ _)
  · next he =>
    cases he
    cases h
    exact List.suffix_rfl

theorem classItem?_suffix {s : Scope} {cs rest : List Char} {set : CharSet} (h : classItem? s cs = some (set, rest)) :
    rest <:+ cs.tail := by
  rw [classItem?_eq] at h
  obtain ⟨⟨m, behind⟩, hm, hrange⟩ := Option.bind_eq_some_iff.mp h
  exact (rangeFrom?_suffix hrange).trans (classMember?_suffix hm)

theorem classItems?_item {s : Scope} {n : Nat} {set : CharSet} {cs : List Char} (h : cs.head? ≠ some ']') :
    classItems? s (n + 1) set cs = (classItem? s cs).bind fun x => classItems? s n (set ∪ x.1) x.2 := by
  rcases cs with _ | ⟨c, cs⟩
  · rfl
  · rw [classItems?]
    · rfl
    · rintro rest ⟨⟩
      exact h rfl

theorem classItems?_suffix {s : Scope} {n : Nat} {set set' : CharSet} {cs rest : List Char}
    (h : classItems? s n set cs = some (set', rest)) : rest <:+ cs.tail := by
  induction n generalizing set cs with
  | zero => cases h
  | succ n ih =>
    by_cases hclose : cs.head? = some ']'
    · obtain ⟨cs, rfl⟩ := List.head?_eq_some_iff.mp hclose
      cases h
      exact List.suffix_rfl
    · rw [classItems?_item hclose] at h
      obtain ⟨⟨item, behind⟩, hitem, hrest⟩ := Option.bind_eq_some_iff.mp h
      exact ((ih hrest).trans (List.tail_suffix _)).trans (classItem?_suffix hitem)

/-! ## Escapes -/

/-- The character of hexadecimal digits. -/
def charOfHex? (ds : List Char) : Option Char := (Numeral.ofHex? ds).bind scalar?

theorem charOfHex?_map (ds rest : List Char) :
    (do return (← (← Numeral.ofHex? ds) |> scalar?, rest) : Option (Char × List Char)) =
      (charOfHex? ds).map (·, rest) := by
  rw [charOfHex?]
  cases Numeral.ofHex? ds with
  | none => rfl
  | some n =>
    show (scalar? n).bind _ = (scalar? n).map _
    cases scalar? n <;> rfl

theorem hexChar?_pair {a b : Char} (h : a ≠ '\x7b') (rest : List Char) :
    hexChar? (a :: b :: rest) = (charOfHex? [a, b]).map (·, rest) := by
  simp only [hexChar?]
  exact charOfHex?_map [a, b] rest

theorem not_brace {ds : List Char} (h : '\x7d' ∉ ds) : ∀ c ∈ ds, (c != '\x7d') = true := by
  intro c hc
  rw [bne_iff_ne]
  rintro rfl
  exact h hc

theorem hexChar?_braced {ds : List Char} (h : '\x7d' ∉ ds) (rest : List Char) :
    hexChar? ('\x7b' :: (ds ++ '\x7d' :: rest)) = (if ds = [] then none else charOfHex? ds).map (·, rest) := by
  have hspan : (ds ++ '\x7d' :: rest).span (· != '\x7d') = (ds, '\x7d' :: rest) := by
    rw [List.span_eq_takeWhile_dropWhile, List.takeWhile_append_of_pos (not_brace h),
      List.dropWhile_append_of_pos (not_brace h)]
    simp
  rw [hexChar?, hspan]
  cases ds with
  | nil => rfl
  | cons d ds => exact charOfHex?_map (d :: ds) rest

theorem hexChar?_open {cs : List Char} (h : '\x7d' ∉ cs) : hexChar? ('\x7b' :: cs) = none := by
  have hdrop : ((cs ++ []).dropWhile (· != '\x7d')) = [] := List.dropWhile_append_of_pos (not_brace h)
  rw [List.append_nil] at hdrop
  rw [hexChar?, List.span_eq_takeWhile_dropWhile, hdrop]
  split
  · next he => cases (Prod.mk.inj he).2
  · rfl

/-- A reading whose result does not depend on what follows. -/
theorem SameUpTo.of_const {β : Type} (x : Option β) (cs : List Char) :
    SameUpTo (inFront tail) (x.map (·, cs ++ ')' :: tail)) (x.map (·, cs)) := by
  have hmap : x.map (·, cs ++ ')' :: tail) = (x.map (·, cs)).map (inFront tail) := by
    rw [Option.map_map]
    rfl
  rw [hmap]
  exact .of_map inFront_injective _

/-- A brace that is not closed is closed behind the parenthesis or not at all. -/
theorem hexChar?_unclosed {cs : List Char} (h : '\x7d' ∉ cs) :
    SameUpTo (inFront tail) (hexChar? ('\x7b' :: (cs ++ ')' :: tail))) (hexChar? ('\x7b' :: cs)) := by
  rw [hexChar?_open h]
  refine .of_short fun c rest hc => ?_
  by_cases hmem : '\x7d' ∈ tail
  · obtain ⟨ds, behind, rfl, hds⟩ := List.eq_append_cons_of_mem hmem
    have hfront : '\x7d' ∉ cs ++ ')' :: ds := by
      simpa [h] using hds
    have hsplit : cs ++ ')' :: (ds ++ '\x7d' :: behind) = cs ++ ')' :: ds ++ '\x7d' :: behind := by
      rw [List.append_assoc]
      rfl
    rw [hsplit, hexChar?_braced hfront] at hc
    obtain ⟨_, _, he⟩ := Option.map_eq_some_iff.mp hc
    cases he
    exact (List.suffix_cons _ _).trans (List.suffix_append _ _)
  · have hopen : '\x7d' ∉ cs ++ ')' :: tail := by
      simpa [h] using hmem
    rw [hexChar?_open hopen] at hc
    cases hc

theorem hexChar?_local (cs : List Char) : SameUpTo (inFront tail) (hexChar? (cs ++ ')' :: tail)) (hexChar? cs) := by
  rcases cs with _ | ⟨a, cs⟩
  · exact .of_short fun _ _ h => hexChar?_suffix h
  · by_cases ha : a = '\x7b'
    · subst ha
      by_cases hmem : '\x7d' ∈ cs
      · obtain ⟨ds, rest, rfl, hds⟩ := List.eq_append_cons_of_mem hmem
        rw [List.cons_append, List.append_assoc, List.cons_append, hexChar?_braced hds, hexChar?_braced hds]
        exact .of_const _ _
      · exact hexChar?_unclosed hmem
    · rcases cs with _ | ⟨b, cs⟩
      · have hnone : hexChar? [a] = none := by simp [hexChar?, ha]
        rw [hnone]
        refine .of_short fun _ rest h => ?_
        rw [List.cons_append, List.nil_append, hexChar?_pair ha] at h
        obtain ⟨_, _, he⟩ := Option.map_eq_some_iff.mp h
        cases he
        exact List.suffix_rfl
      · rw [List.cons_append, List.cons_append, hexChar?_pair ha, hexChar?_pair ha]
        exact .of_const _ _

/-- Behind a letter that takes no operand the rest does not matter. -/
theorem member?_const (s : Scope) {c : Char} (h : c ≠ 'x') :
    ∃ m : Option Member, ∀ rest, member? s (c :: rest) = m.map (·, rest) := by
  by_cases hn : c = 'n'
  · exact ⟨some (.char '\n'), fun rest => by rw [hn]; rfl⟩
  by_cases hr : c = 'r'
  · exact ⟨some (.char '\r'), fun rest => by rw [hr]; rfl⟩
  by_cases ht : c = 't'
  · exact ⟨some (.char '\t'), fun rest => by rw [ht]; rfl⟩
  refine ⟨if isPunctuation c then some (.char c) else (setOfLetter? c.toLower).map fun set =>
    .set (resolve s.caseBlind c.isUpper set), fun rest => ?_⟩
  simp only [member?]
  split
  · rfl
  · rw [Option.map_map]
    rfl

theorem member?_local (s : Scope) (cs : List Char) :
    SameUpTo (inFront tail) (member? s (cs ++ ')' :: tail)) (member? s cs) := by
  rcases cs with _ | ⟨c, cs⟩
  · exact .of_short fun _ _ h => member?_suffix h
  · by_cases hc : c = 'x'
    · subst hc
      exact (hexChar?_local cs).map_fst Member.char
    · obtain ⟨m, hm⟩ := member?_const s hc
      rw [List.cons_append, hm, hm]
      exact .of_const _ _

theorem scalarEscape?_local (s : Scope) (cs : List Char) :
    SameUpTo (inFront tail) (scalarEscape? s (cs ++ ')' :: tail)) (scalarEscape? s cs) := by
  have hmember : SameUpTo (inFront tail) _ _ := (member?_local s cs).map_fst fun m => Tree.chars (charsOf s m)
  rcases cs with _ | ⟨c, cs⟩
  · exact hmember
  · by_cases hA : c = 'A'
    · subst hA
      exact .of_const (some (Tree.boundary .textStart)) cs
    by_cases hz : c = 'z'
    · subst hz
      exact .of_const (some (Tree.boundary .textEnd)) cs
    have hrest (rest : List Char) : scalarEscape? s (c :: rest) =
        (member? s (c :: rest)).map fun x => (.chars (charsOf s x.1), x.2) := by
      rw [scalarEscape?] <;> simp_all
    rw [List.cons_append, hrest, hrest]
    exact hmember

/-! ## Classes -/

theorem classMember?_local (s : Scope) (cs : List Char) :
    SameUpTo (inFront tail) (classMember? s (cs ++ ')' :: tail)) (classMember? s cs) := by
  rcases cs with _ | ⟨c, cs⟩
  · exact .of_short fun _ _ h => classMember?_suffix h
  · by_cases hc : c = '\\'
    · subst hc
      exact member?_local s cs
    · have hrest (rest : List Char) : classMember? s (c :: rest) = some (.char c, rest) := by
        rw [classMember?]
        exact hc
      rw [List.cons_append, hrest, hrest]
      exact .of_const (some (Member.char c)) cs

theorem rangeTo?_local (s : Scope) (lo : Char) (cs : List Char) :
    SameUpTo (inFront tail) (rangeTo? s lo (cs ++ ')' :: tail)) (rangeTo? s lo cs) := by
  refine (classMember?_local s cs).bind (fun b _ => .of_const _ _) fun b c h => ?_
  obtain ⟨_, _, he⟩ := Option.map_eq_some_iff.mp h
  exact ⟨(b.1, c.2), Prod.ext rfl (Prod.mk.inj he).2⟩

theorem rangeFrom?_local (s : Scope) (x : Member × List Char) :
    SameUpTo (inFront tail) (rangeFrom? s (inFront tail x)) (rangeFrom? s x) := by
  obtain ⟨_ | set, cs⟩ := x
  · next lo =>
    rcases cs with _ | ⟨c, cs⟩
    · exact .of_const (some (Member.chars (.char lo))) []
    · by_cases hc : c = '-'
      · subst hc
        rcases cs with _ | ⟨d, cs⟩
        · exact rangeTo?_local s lo []
        · by_cases hd : d = ']'
          · subst hd
            exact .of_const (some (CharSet.single lo)) ('-' :: ']' :: cs)
          · have hrest (rest : List Char) : rangeFrom? s (.char lo, '-' :: d :: rest) = rangeTo? s lo (d :: rest) := by
              simp [rangeFrom?, hd]
            rw [inFront, List.cons_append, List.cons_append, hrest, hrest]
            exact rangeTo?_local s lo (d :: cs)
      · have hrest (rest : List Char) :
            rangeFrom? s (.char lo, c :: rest) = some ((Member.char lo).chars, c :: rest) := by
          simp [rangeFrom?, hc]
        rw [inFront, List.cons_append, hrest, hrest]
        exact .of_const (some (Member.chars (.char lo))) (c :: cs)
  · exact .of_const (some (Member.chars (.set set))) cs

theorem classItem?_local (s : Scope) (cs : List Char) :
    SameUpTo (inFront tail) (classItem? s (cs ++ ')' :: tail)) (classItem? s cs) := by
  rw [classItem?_eq, classItem?_eq]
  refine (classMember?_local s cs).bind (fun x _ => rangeFrom?_local s x) fun x c h => ?_
  obtain ⟨front, hfront⟩ := exists_inFront (rangeFrom?_suffix h)
  exact ⟨(x.1, front), Prod.ext rfl hfront⟩

/-- The items of a class, with fuel for either text. -/
theorem classItems?_local (s : Scope) {n m : Nat} (set : CharSet) {cs : List Char} (hn : (cs ++ ')' :: tail).length < n)
    (hm : cs.length < m) :
    SameUpTo (inFront tail) (classItems? s n set (cs ++ ')' :: tail)) (classItems? s m set cs) := by
  induction m generalizing n set cs with
  | zero => exact absurd hm (Nat.not_lt_zero _)
  | succ m ih =>
    obtain ⟨n, rfl⟩ := Nat.exists_eq_add_one.mpr (Nat.zero_lt_of_lt hn)
    rcases cs with _ | ⟨c, cs⟩
    · exact .of_short fun _ _ h => classItems?_suffix h
    · by_cases hc : c = ']'
      · subst hc
        exact .of_const (some set) cs
      · have hhead (rest : List Char) : (c :: rest).head? ≠ some ']' := by simpa using hc
        rw [List.cons_append, classItems?_item (hhead _), classItems?_item (hhead _), ← List.cons_append]
        refine (classItem?_local s (c :: cs)).bind (fun x hx => ?_) fun x c h => ?_
        · have hlen := (classItem?_suffix hx).length_le
          simp only [List.length_append, List.length_cons, List.tail_cons] at hn hm hlen
          refine ih (set ∪ x.1) ?_ (by omega)
          simp only [List.length_append, List.length_cons]
          omega
        · obtain ⟨front, hfront⟩ := exists_inFront ((classItems?_suffix h).trans (List.tail_suffix _))
          exact ⟨(x.1, front), Prod.ext rfl hfront⟩

/-- What is listed in a class, from behind its caret; a closing bracket in front is a member. -/
def classList? (s : Scope) (cs : List Char) : Option (CharSet × List Char) :=
  match cs with
  | ']' :: cs => classItems? s (cs.length + 1) (.single ']') cs
  | cs => classItems? s (cs.length + 1) ∅ cs

theorem classList?_suffix {s : Scope} {cs rest : List Char} {set : CharSet} (h : classList? s cs = some (set, rest)) :
    rest <:+ cs := by
  unfold classList? at h
  split at h
  · exact ((classItems?_suffix h).trans (List.tail_suffix _)).trans (List.suffix_cons _ _)
  · exact (classItems?_suffix h).trans (List.tail_suffix _)

theorem classList?_local (s : Scope) (cs : List Char) :
    SameUpTo (inFront tail) (classList? s (cs ++ ')' :: tail)) (classList? s cs) := by
  have hitems (set : CharSet) (cs : List Char) : SameUpTo (inFront tail)
      (classItems? s ((cs ++ ')' :: tail).length + 1) set (cs ++ ')' :: tail)) (classItems? s (cs.length + 1) set cs) :=
    classItems?_local s set (Nat.lt_succ_self _) (Nat.lt_succ_self _)
  rcases cs with _ | ⟨c, cs⟩
  · exact hitems ∅ []
  · by_cases hc : c = ']'
    · subst hc
      exact hitems (.single ']') cs
    · have hrest (rest : List Char) : classList? s (c :: rest) = classItems? s (rest.length + 1 + 1) ∅ (c :: rest) := by
        simp [classList?, hc]
      rw [List.cons_append, hrest, hrest]
      exact hitems ∅ (c :: cs)

theorem classList?_bind {β : Type} (s : Scope) (cs : List Char) (f : CharSet × List Char → Option β) :
    (classList? s cs).bind f = match cs with
      | ']' :: cs => (classItems? s (cs.length + 1) (.single ']') cs).bind f
      | cs => (classItems? s (cs.length + 1) ∅ cs).bind f := by
  unfold classList?
  split <;> rfl

/-- A caret in front of a class, or none, and what follows it. -/
def caret (cs : List Char) : Bool × List Char :=
  match cs with
  | '^' :: cs => (true, cs)
  | cs => (false, cs)

theorem caret_inFront (cs : List Char) : caret (cs ++ ')' :: tail) = inFront tail (caret cs) := by
  rcases cs with _ | ⟨c, cs⟩
  · rfl
  · by_cases hc : c = '^'
    · subst hc
      rfl
    · simp [caret, inFront, hc]

theorem caret_suffix (cs : List Char) : (caret cs).2 <:+ cs := by
  unfold caret
  split
  · exact List.suffix_cons _ _
  · exact List.suffix_rfl

theorem classChars?_eq (s : Scope) (cs : List Char) : classChars? s cs =
    (classList? s (caret cs).2).map fun (set, rest) => (resolve s.caseBlind (caret cs).1 set, rest) := by
  rw [Option.map_eq_bind, classList?_bind]
  rfl

theorem classChars?_local (s : Scope) (cs : List Char) :
    SameUpTo (inFront tail) (classChars? s (cs ++ ')' :: tail)) (classChars? s cs) := by
  rw [classChars?_eq, classChars?_eq, caret_inFront]
  exact (classList?_local s (caret cs).2).map_fst (resolve s.caseBlind (caret cs).1)

theorem classChars?_suffix {s : Scope} {cs rest : List Char} {set : CharSet} (h : classChars? s cs = some (set, rest)) :
    rest <:+ cs := by
  rw [classChars?_eq] at h
  obtain ⟨_, hlist, he⟩ := Option.map_eq_some_iff.mp h
  cases he
  exact (classList?_suffix hlist).trans (caret_suffix cs)

/-- The escapes and the classes of the scalar dialect do not depend on a parenthesis that they leave. -/
theorem isLocal_scalar (tail : List Char) : Lexis.scalar.IsLocal tail where
  escape := scalarEscape?_local
  charClass := classChars?_local
  escape_suffix h := (scalarEscape?_suffix h).trans (List.tail_suffix _)
  class_suffix := classChars?_suffix

end XmlPattern.Native
