import XmlPattern.Proofs.Native.Matching
import XmlPattern.Proofs.Native.Shape

/-!
# The language of an expression

The texts that an expression stands for, given which characters each of its atoms does: unions for alternatives,
products for sequences, and so many rounds for a quantifier. Anchors and back-references ask for more than a text, so
that a `Plain` expression has none.

- `Regexp.language`: the texts of a pattern.
- `Regexp.language_tree`: the native tree of a pattern has the same language.
- `Regexp.language_sameOn`: on texts of some characters, only these characters matter.
-/

namespace XmlPattern.Grammar

open Native

section

variable (p : Leaf → Char → Prop)

/-- The texts of an atom with its quantifier, if there is one. -/
def quantifiedLanguage (l : Language Char) : Option Quantifier → Language Char
  | none => l
  | some q => rounds l q.quantity.min q.quantity.max

mutual

/-- The texts of an atom, given which characters its atoms of one character stand for. -/
def Atom.language : Atom → Language Char
  | .leaf x => Tree.letters (p x)
  | .anchor _ | .reference _ => 0
  | .group _ r => r.language

/-- The texts of a branch. -/
def Branch.language : Branch → Language Char
  | .nil => 1
  | .cons a q b => quantifiedLanguage a.language q * b.language

/-- The texts of a pattern. -/
def Regexp.language : Regexp → Language Char
  | .branch b => b.language
  | .bar b r => b.language + r.language

end

end

/-! ## Native trees -/

section

variable {α : Type} {leaf : Leaf → Native.Tree α} {members : α → Char → Prop} {p : Leaf → Char → Prop}
    {blind multiLine : Bool}

theorem language_quantify (a : Native.Tree α) (q : Option Quantifier) :
    (a.quantify q).language members = quantifiedLanguage (a.language members) q := by
  cases q <;> rfl

mutual

theorem Atom.language_tree (h : ∀ x, (leaf x).language members = Tree.letters (p x)) : (G : Groups) → (a : Atom) →
    (a.tree leaf blind multiLine G).language members = a.language p
  | _, .leaf x => h x
  | _, .anchor _ => rfl
  | _, .reference digits => by
    have hback : (Tree.back (Numeral.ofDecimal digits) blind : Native.Tree α).language members = 0 * 1 := by
      cases blind <;> rfl
    exact hback.trans (zero_mul _)
  | G, .group true r => r.language_tree h G.open
  | G, .group false r => r.language_tree h G

theorem Branch.language_tree (h : ∀ x, (leaf x).language members = Tree.letters (p x)) : (G : Groups) → (b : Branch) →
    (b.tree leaf blind multiLine G).language members = b.language p
  | _, .nil => rfl
  | G, .cons a q b => by
    show ((a.tree leaf blind multiLine G).quantify q).language members *
        (b.tree leaf blind multiLine _).language members = _
    rw [language_quantify, a.language_tree h G, b.language_tree h (a.after G)]
    rfl

/-- The native tree of a pattern has the language of the pattern. -/
theorem Regexp.language_tree (h : ∀ x, (leaf x).language members = Tree.letters (p x)) : (G : Groups) → (r : Regexp) →
    (r.tree leaf blind multiLine G).language members = r.language p
  | G, .branch b => b.language_tree h G
  | G, .bar b r => by
    show (b.tree leaf blind multiLine G).language members + (r.tree leaf blind multiLine _).language members = _
    rw [b.language_tree h G, r.language_tree h (b.after G)]
    rfl

end

theorem isPlain_quantify {a : Native.Tree α} {q : Option Quantifier} (h : a.IsPlain) : (a.quantify q).IsPlain := by
  cases q <;> exact h

mutual

theorem Atom.isPlain_tree (h : ∀ x, (leaf x).IsPlain) : (G : Groups) → (a : Atom) → a.Plain →
    (a.tree leaf blind multiLine G).IsPlain
  | _, .leaf x, _ => h x
  | G, .group true r, hp => r.isPlain_tree h G.open hp
  | G, .group false r, hp => r.isPlain_tree h G hp

theorem Branch.isPlain_tree (h : ∀ x, (leaf x).IsPlain) : (G : Groups) → (b : Branch) → b.Plain →
    (b.tree leaf blind multiLine G).IsPlain
  | _, .nil, _ => trivial
  | G, .cons a _ b, hp => ⟨isPlain_quantify (a.isPlain_tree h G hp.1), b.isPlain_tree h (a.after G) hp.2⟩

theorem Regexp.isPlain_tree (h : ∀ x, (leaf x).IsPlain) : (G : Groups) → (r : Regexp) → r.Plain →
    (r.tree leaf blind multiLine G).IsPlain
  | G, .branch b, hp => b.isPlain_tree h G hp
  | G, .bar b r, hp => ⟨b.isPlain_tree h G hp.1, r.isPlain_tree h (b.after G) hp.2⟩

end

end

/-! ## Texts of some characters -/

/-- Two languages have the same texts of characters with a property. -/
def SameOn (s : Char → Prop) (l m : Language Char) : Prop := ∀ w, (∀ c ∈ w, s c) → (w ∈ l ↔ w ∈ m)

section

variable {s : Char → Prop} {l m l' m' : Language Char}

theorem SameOn.refl (s : Char → Prop) (l : Language Char) : SameOn s l l := fun _ _ => Iff.rfl

theorem SameOn.letters {p q : Char → Prop} (h : ∀ c, s c → (p c ↔ q c)) :
    SameOn s (Tree.letters p) (Tree.letters q) := by
  intro w hw
  constructor
  · rintro ⟨c, hc, rfl⟩
    exact ⟨c, (h c (hw c List.mem_cons_self)).mp hc, rfl⟩
  · rintro ⟨c, hc, rfl⟩
    exact ⟨c, (h c (hw c List.mem_cons_self)).mpr hc, rfl⟩

theorem SameOn.add (h : SameOn s l m) (h' : SameOn s l' m') : SameOn s (l + l') (m + m') :=
  fun w hw => or_congr (h w hw) (h' w hw)

theorem SameOn.mul (h : SameOn s l m) (h' : SameOn s l' m') : SameOn s (l * l') (m * m') := by
  intro w hw
  rw [Language.mem_mul, Language.mem_mul]
  constructor
  · rintro ⟨u, hu, v, hv, rfl⟩
    rw [List.forall_mem_append] at hw
    exact ⟨u, (h u hw.1).mp hu, v, (h' v hw.2).mp hv, rfl⟩
  · rintro ⟨u, hu, v, hv, rfl⟩
    rw [List.forall_mem_append] at hw
    exact ⟨u, (h u hw.1).mpr hu, v, (h' v hw.2).mpr hv, rfl⟩

theorem SameOn.pow (h : SameOn s l m) (n : Nat) : SameOn s (l ^ n) (m ^ n) := by
  induction n with
  | zero => exact .refl s 1
  | succ n ih =>
    rw [pow_succ, pow_succ]
    exact ih.mul h

theorem SameOn.quantified (h : SameOn s l m) (q : Option Quantifier) :
    SameOn s (quantifiedLanguage l q) (quantifiedLanguage m q) := by
  cases q with
  | none => exact h
  | some q => exact fun w hw => exists_congr fun n => and_congr_right fun _ => and_congr_right fun _ => h.pow n w hw

end

section

variable {p q : Leaf → Char → Prop} {s : Char → Prop}

mutual

theorem Atom.language_sameOn : (a : Atom) → a.Every (fun x => ∀ c, s c → (p x c ↔ q x c)) →
    SameOn s (a.language p) (a.language q)
  | .leaf _, h => .letters h
  | .anchor _, _ | .reference _, _ => .refl s 0
  | .group _ r, h => r.language_sameOn h

theorem Branch.language_sameOn : (b : Branch) → b.Every (fun x => ∀ c, s c → (p x c ↔ q x c)) →
    SameOn s (b.language p) (b.language q)
  | .nil, _ => .refl s 1
  | .cons a quantifier b, h => ((a.language_sameOn h.1).quantified quantifier).mul (b.language_sameOn h.2)

/-- On texts of some characters, it only matters which of these the atoms of a pattern stand for. -/
theorem Regexp.language_sameOn : (r : Regexp) → r.Every (fun x => ∀ c, s c → (p x c ↔ q x c)) →
    SameOn s (r.language p) (r.language q)
  | .branch b, h => b.language_sameOn h
  | .bar b r, h => (b.language_sameOn h.1).add (r.language_sameOn h.2)

end

end

end XmlPattern.Grammar
