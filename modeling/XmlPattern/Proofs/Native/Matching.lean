import XmlPattern.Native.Matcher
import XmlPattern.Proofs.Native.Language

/-!
# What the matcher finds

A backtracking matcher goes on from a place to all the places it can get to, one after another, until what comes behind
succeeds. Whether it succeeds is a matter of the language of the pattern alone: neither the order of the attempts nor
what groups have matched makes a difference, as long as no back-reference comes behind.

- `Reaches`: a text of a language leads from a place to one with a property.
- `Recognizes`: a matcher succeeds exactly when a text of a language leads to where what comes behind does.
- `recognizes_of_ofTree?`: the matcher of a pattern recognizes its language.
-/

namespace XmlPattern.Native

open Computability

/-! ## Getting from place to place -/

/-- The place behind a text that is next. -/
def Place.past (p : Place) (w rest : List Char) : Place := ⟨w.reverse ++ p.passed, rest⟩

/-- A text of a language leads from a place to one with a property. -/
def Reaches (l : Language Char) (p : Place) (aim : Place → Prop) : Prop :=
  ∃ w rest, p.rest = w ++ rest ∧ w ∈ l ∧ aim (p.past w rest)

variable {l m : Language Char} {p : Place} {aim : Place → Prop}

theorem Reaches.congr {aim' : Place → Prop} (h : ∀ q, aim q ↔ aim' q) : Reaches l p aim ↔ Reaches l p aim' := by
  unfold Reaches
  simp only [h]

theorem reaches_one : Reaches 1 p aim ↔ aim p := by
  constructor
  · rintro ⟨w, rest, hp, hw, haim⟩
    rw [Language.mem_one] at hw
    subst hw
    rw [List.nil_append] at hp
    rw [Place.past, ← hp] at haim
    exact haim
  · exact fun h => ⟨[], p.rest, rfl, Language.nil_mem_one, h⟩

theorem reaches_add : Reaches (l + m) p aim ↔ Reaches l p aim ∨ Reaches m p aim := by
  constructor
  · rintro ⟨w, rest, hp, hw | hw, haim⟩
    · exact .inl ⟨w, rest, hp, hw, haim⟩
    · exact .inr ⟨w, rest, hp, hw, haim⟩
  · rintro (⟨w, rest, hp, hw, haim⟩ | ⟨w, rest, hp, hw, haim⟩)
    · exact ⟨w, rest, hp, .inl hw, haim⟩
    · exact ⟨w, rest, hp, .inr hw, haim⟩

theorem past_past (v w rest : List Char) : (p.past v (w ++ rest)).past w rest = p.past (v ++ w) rest := by
  simp [Place.past]

theorem past_eq_self {w rest : List Char} (hp : p.rest = w ++ rest)
    (h : ¬ (p.past w rest).rest.length < p.rest.length) :
    p.past w rest = p := by
  have hw : w = [] := by
    rw [hp, List.length_append] at h
    have hlen : (p.past w rest).rest.length = rest.length := rfl
    exact List.length_eq_zero_iff.mp (by omega)
  subst hw
  rw [List.nil_append] at hp
  rw [Place.past, ← hp]
  rfl

/-- One text after another leads on. -/
theorem reaches_mul : Reaches (l * m) p aim ↔ Reaches l p fun q => Reaches m q aim := by
  constructor
  · rintro ⟨w, rest, hp, hw, haim⟩
    obtain ⟨u, hu, v, hv, rfl⟩ := Language.mem_mul.mp hw
    rw [List.append_assoc] at hp
    rw [← past_past] at haim
    exact ⟨u, v ++ rest, hp, hu, v, rest, rfl, hv, haim⟩
  · rintro ⟨u, _, hp, hu, v, rest, rfl, hv, haim⟩
    refine ⟨u ++ v, rest, by rw [hp, List.append_assoc], Language.append_mem_mul hu hv, ?_⟩
    rw [← past_past]
    exact haim

/-- Any number of texts lead where none does, or where one that is not empty and then any number do. -/
theorem reaches_kstar :
    Reaches l∗ p aim ↔ aim p ∨ Reaches l p fun q => q.rest.length < p.rest.length ∧ Reaches l∗ q aim := by
  constructor
  · rintro ⟨w, rest, hp, hw, haim⟩
    obtain ⟨texts, rfl, htexts⟩ := Language.mem_kstar_iff_exists_nonempty.mp hw
    cases texts with
    | nil => exact .inl (reaches_one.mp ⟨[], rest, hp, Language.nil_mem_one, haim⟩)
    | cons u texts =>
      obtain ⟨hu, hne⟩ := htexts u List.mem_cons_self
      have htail : texts.flatten ∈ l∗ :=
        Language.join_mem_kstar fun v hv => (htexts v (List.mem_cons_of_mem _ hv)).1
      rw [List.flatten_cons, List.append_assoc] at hp
      rw [List.flatten_cons, ← past_past] at haim
      refine .inr ⟨u, texts.flatten ++ rest, hp, hu, ?_, texts.flatten, rest, rfl, htail, haim⟩
      have hpos := List.length_pos_iff.mpr hne
      rw [hp, Place.past]
      simp only [List.length_append]
      omega
  · rintro (h | ⟨u, _, hp, hu, _, v, rest, rfl, hv, haim⟩)
    · exact ⟨[], p.rest, rfl, Language.nil_mem_kstar l, h⟩
    · refine ⟨u ++ v, rest, by rw [hp, List.append_assoc], ?_, ?_⟩
      · rw [← Language.one_add_self_mul_kstar_eq_kstar]
        exact .inr (Language.append_mem_mul hu hv)
      · rw [← past_past]
        exact haim

/-! ## Matchers -/

/-- Whether what comes behind succeeds does not depend on what groups have matched. -/
def Blind (k : Next) : Prop := ∀ p g g', (k p g).isSome = true ↔ (k p g').isSome = true

/-- A matcher succeeds exactly when a text of a language leads to where what comes behind does. -/
def Recognizes (m : Matcher) (l : Language Char) : Prop :=
  ∀ p g k, Blind k → ((m p g k).isSome = true ↔ Reaches l p fun q => (k q g).isSome = true)

variable {a b : Matcher}

theorem Recognizes.blind (h : Recognizes a l) {k : Next} (hk : Blind k) : Blind fun p g => a p g k := by
  intro p g g'
  rw [h p g k hk, h p g' k hk]
  exact Reaches.congr fun q => hk q g g'

theorem recognizes_one : Recognizes (fun p g k => k p g) 1 := by
  intro p g k _
  rw [reaches_one]

theorem Recognizes.mul (ha : Recognizes a l) (hb : Recognizes b m) :
    Recognizes (fun p g k => a p g fun p g => b p g k) (l * m) := by
  intro p g k hk
  rw [ha p g _ (hb.blind hk), reaches_mul]
  exact Reaches.congr fun q => hb q g k hk

theorem isSome_orElse {α : Type} {x : Option α} {y : Unit → Option α} :
    (x.orElse y).isSome = true ↔ x.isSome = true ∨ (y ()).isSome = true := by
  cases x <;> simp [Option.orElse]

theorem Recognizes.add (ha : Recognizes a l) (hb : Recognizes b m) :
    Recognizes (fun p g k => (a p g k).orElse fun _ => b p g k) (l + m) := by
  intro p g k hk
  rw [isSome_orElse, reaches_add, ha p g k hk, hb p g k hk]

theorem isSome_choose {greedy : Bool} {more stop : Unit → Outcome} :
    (choose greedy more stop).isSome = true ↔ (more ()).isSome = true ∨ (stop ()).isSome = true := by
  cases greedy with
  | true => exact isSome_orElse
  | false => exact isSome_orElse.trans or_comm

/-! ## Repetition -/

variable {greedy : Bool}

theorem Recognizes.exactly (ha : Recognizes a l) (n : Nat) : Recognizes (exactly a n) (l ^ n) := by
  induction n with
  | zero =>
    rw [pow_zero]
    exact recognizes_one
  | succ n ih =>
    rw [pow_succ']
    exact ha.mul ih

theorem Recognizes.upTo (ha : Recognizes a l) (n : Nat) : Recognizes (upTo a greedy n) (rounds l 0 (some n)) := by
  induction n with
  | zero =>
    rw [rounds_zero]
    exact recognizes_one
  | succ n ih =>
    intro p g k hk
    rw [rounds_succ, reaches_add, reaches_one, ← ha.mul ih p g k hk]
    exact isSome_choose

/-- Each further round takes a character, so that there is fuel for as many as there can be. -/
theorem Recognizes.further (ha : Recognizes a l) {fuel : Nat} {p : Place} {g : Groups} {k : Next}
    (hf : p.rest.length ≤ fuel) (hk : Blind k) :
    (further a greedy fuel p g k).isSome = true ↔ Reaches l∗ p fun q => (k q g).isSome = true := by
  induction fuel generalizing p g with
  | zero =>
    rw [reaches_kstar]
    refine (or_iff_left ?_).symm
    rintro ⟨_, _, _, _, hlt, _⟩
    exact absurd hlt (by omega)
  | succ n ih =>
    have hnext : ∀ q g,
        ((if q.rest.length < p.rest.length then Native.further a greedy n q g k else none : Outcome).isSome = true ↔
          q.rest.length < p.rest.length ∧ Reaches l∗ q fun q => (k q g).isSome = true) := by
      intro q g
      split
      · next hlt => rw [ih (by omega), and_iff_right hlt]
      · next hlt => simp [hlt]
    have hblind : Blind fun q g => if q.rest.length < p.rest.length then Native.further a greedy n q g k else none := by
      intro q g g'
      rw [hnext, hnext]
      exact and_congr_right fun _ => Reaches.congr fun q => hk q g g'
    rw [reaches_kstar, or_comm]
    refine isSome_choose.trans (or_congr_left ((ha p g _ hblind).trans (Reaches.congr fun q => hnext q g)))

/-- A round that takes nothing ends the repetition, which makes no difference: any number of rounds may take nothing. -/
theorem Recognizes.atLeastOne (ha : Recognizes a l) (greedy : Bool) : Recognizes (atLeastOne a greedy) (l * l∗) := by
  intro p g k hk
  have hnext : ∀ q g,
      ((if q.rest.length < p.rest.length then Native.further a greedy q.rest.length q g k
          else k q g : Outcome).isSome = true ↔
        if q.rest.length < p.rest.length then Reaches l∗ q fun q => (k q g).isSome = true
        else (k q g).isSome = true) := by
    intro q g
    split
    · exact ha.further (Nat.le_refl _) hk
    · rfl
  have hblind : Blind fun q g =>
      if q.rest.length < p.rest.length then Native.further a greedy q.rest.length q g k else k q g := by
    intro q g g'
    rw [hnext, hnext]
    split
    · exact Reaches.congr fun q => hk q g g'
    · exact hk q g g'
  rw [reaches_mul]
  refine ((ha p g _ hblind).trans (Reaches.congr fun q => hnext q g)).trans ⟨?_, ?_⟩
  · rintro ⟨w, rest, hp, hw, h⟩
    refine ⟨w, rest, hp, hw, ?_⟩
    split at h
    · exact h
    · exact reaches_kstar.mpr (.inl h)
  · rintro ⟨w, rest, hp, hw, h⟩
    by_cases hlt : (p.past w rest).rest.length < p.rest.length
    · exact ⟨w, rest, hp, hw, (if_pos hlt).mpr h⟩
    · rcases reaches_kstar.mp h with hstop | hmore
      · exact ⟨w, rest, hp, hw, (if_neg hlt).mpr hstop⟩
      · -- The round has taken nothing, so that a further one may stand for it.
        rw [past_eq_self hp hlt] at hmore
        obtain ⟨u, rest, hp, hu, hlt, hstar⟩ := hmore
        exact ⟨u, rest, hp, hu, (if_pos hlt).mpr hstar⟩

theorem Recognizes.repeatedly (ha : Recognizes a l) {min : Nat} {max : Option Nat} (h : ∀ n ∈ max, min ≤ n) :
    Recognizes (repeatedly a min max greedy) (rounds l min max) := by
  cases max with
  | some max =>
    have hsum : min + (max - min) = max := Nat.add_sub_of_le (h max rfl)
    have hrounds := rounds_add l min 0 (some (max - min))
    rw [Nat.add_zero, Option.map_some, hsum] at hrounds
    rw [hrounds]
    exact (ha.exactly min).mul (ha.upTo (max - min))
  | none =>
    cases min with
    | zero =>
      intro p g k hk
      rw [rounds_none, ← Language.one_add_self_mul_kstar_eq_kstar, reaches_add, reaches_one, or_comm,
        ← ha.atLeastOne greedy p g k hk]
      unfold Native.repeatedly
      exact isSome_choose
    | succ min =>
      have hrounds := rounds_add l (min + 1) 0 none
      rw [Nat.add_zero, Option.map_none, rounds_none, pow_succ, mul_assoc] at hrounds
      rw [hrounds]
      exact (ha.exactly min).mul (ha.atLeastOne greedy)

/-! ## Patterns -/

namespace Tree

/--
A pattern neither asks anything of a place nor refers back, so that what it matches is a matter of the text alone.
-/
def IsPlain {α : Type} : Tree α → Prop
  | .empty | .chars _ => True
  | .seq a b | .alt a b => a.IsPlain ∧ b.IsPlain
  | .repeated _ _ _ a | .group (.capturing _) a | .group .plain a | .group .caseless a => a.IsPlain
  | .group (.lookAhead _) _ | .group (.lookBehind _) _ | .boundary _ | .reference .. => False

/-- The texts of characters that a pattern over characters matches. -/
abbrev charLanguage (t : Tree CharSet) : Language Char := t.language fun s c => c ∈ s

end Tree

theorem matcher_andThen (a b : Regex) :
    matcher (a.andThen b) = fun p g k => matcher a p g fun p g => matcher b p g k := by
  unfold Regex.andThen
  split <;> rfl

theorem recognizes_chars (s : CharSet) : Recognizes (matcher (.chars s)) (Tree.letters (· ∈ s)) := by
  intro p g k _
  obtain ⟨passed, rest⟩ := p
  cases rest with
  | nil =>
    refine iff_of_false Bool.false_ne_true ?_
    rintro ⟨w, rest, hp, ⟨c, _, rfl⟩, _⟩
    cases hp
  | cons c rest =>
    show (if s.contains c = true then k ⟨c :: passed, rest⟩ g else none : Outcome).isSome = true ↔ _
    constructor
    · intro h
      split at h
      · next hc => exact ⟨[c], rest, rfl, ⟨c, hc, rfl⟩, h⟩
      · cases h
    · rintro ⟨w, rest', hp, ⟨d, hd, rfl⟩, h⟩
      cases hp
      rw [if_pos (show s.contains c = true from hd)]
      exact h

theorem Recognizes.group {r : Regex} (h : Recognizes (matcher r) l) (number : Nat) :
    Recognizes (matcher (.group number r)) l := by
  intro p g k hk
  have hblind : Blind fun q g => k q ((number, ⟨p.index, q.index⟩) :: g) := fun q g g' => hk q _ _
  exact (h p g _ hblind).trans (Reaches.congr fun q => hk q _ _)

/-- The matcher of a pattern recognizes the language of the pattern. -/
theorem recognizes_of_ofTree? {t : Tree CharSet} {r : Regex} (hr : Regex.ofTree? t = some r) (ht : t.IsPlain) :
    Recognizes (matcher r) t.charLanguage := by
  induction t generalizing r with
  | empty =>
    cases hr
    exact recognizes_one
  | chars s =>
    cases hr
    exact recognizes_chars s
  | boundary b => exact ht.elim
  | reference number caseBlind => exact ht.elim
  | seq a b iha ihb =>
    obtain ⟨ra, hra, rb, hrb, rfl⟩ := Regex.ofTree?_seq_eq_some.mp hr
    rw [matcher_andThen]
    exact (iha hra ht.1).mul (ihb hrb ht.2)
  | alt a b iha ihb =>
    obtain ⟨ra, hra, rb, hrb, rfl⟩ := Regex.ofTree?_alt_eq_some.mp hr
    exact (iha hra ht.1).add (ihb hrb ht.2)
  | repeated min max greedy a ih =>
    obtain ⟨ra, hra, _, hbounds, rfl⟩ := Regex.ofTree?_repeated_eq_some.mp hr
    exact (ih hra ht).repeatedly hbounds
  | group kind a ih =>
    cases kind with
    | capturing number =>
      obtain ⟨ra, hra, rfl⟩ := Regex.ofTree?_capturing_eq_some.mp hr
      exact (ih hra ht).group number
    | plain => exact ih hr ht
    | caseless => exact ih hr ht
    | lookAhead positive => exact ht.elim
    | lookBehind positive => exact ht.elim

end XmlPattern.Native
