import XmlPattern.Proofs.Text.Unit

/-!
# Well-formed units

Units are well-formed if they encode a text, which is to say that every surrogate in them belongs to a pair. Such units
may be put one after another. Reading them strictly fails on any others, and reading them without failing leaves U+FFFD.

- `wellFormed_of_decode`: what is read strictly is well-formed.
- `wellFormed_of_decodeLossy`: and so is what is read without U+FFFD.
- `breaksAt_of_decode`: strict reading fails on half of a pair behind a text.
-/

namespace XmlPattern.CodeUnit

/-- Units encode a text. -/
def WellFormed (units : List CodeUnit) : Prop := ∃ text, encode text = units

variable {u v : CodeUnit} {units : List CodeUnit}

theorem wellFormed_nil : WellFormed [] := ⟨[], rfl⟩

theorem wellFormed_ofChar (c : Char) : WellFormed (ofChar c) := ⟨[c], List.flatMap_singleton ..⟩

theorem WellFormed.append {us vs : List CodeUnit} (h : WellFormed us) (h' : WellFormed vs) : WellFormed (us ++ vs) := by
  obtain ⟨s, rfl⟩ := h
  obtain ⟨t, rfl⟩ := h'
  exact ⟨s ++ t, List.flatMap_append⟩

/-- A unit that is no surrogate may stand in front. -/
theorem WellFormed.cons (hu : u.isSurrogate = false) (h : WellFormed units) : WellFormed (u :: units) := by
  have hfirst := wellFormed_ofChar u.toBasic
  rw [ofChar_toBasic hu] at hfirst
  exact hfirst.append h

/-- A pair may stand in front. -/
theorem WellFormed.pair (hu : u.isHighSurrogate = true) (hv : v.isLowSurrogate = true) (h : WellFormed units) :
    WellFormed (u :: v :: units) := by
  have hfirst := wellFormed_ofChar (Char.ofNat (combine u v))
  rw [ofChar_combine hu hv] at hfirst
  exact hfirst.append h

theorem isSurrogate_eq_false (hhigh : ¬ u.isHighSurrogate = true) (hlow : ¬ u.isLowSurrogate = true) :
    u.isSurrogate = false := by
  rw [isSurrogate_eq, Bool.eq_false_iff.mpr hhigh, Bool.eq_false_iff.mpr hlow]
  rfl

/-- Well-formed units begin with a unit that stands for itself, or with a pair, and are well-formed behind it. -/
theorem wellFormed_cons (h : WellFormed (u :: units)) :
    u.isSurrogate = false ∧ WellFormed units ∨
      ∃ v rest, units = v :: rest ∧ u.isHighSurrogate = true ∧ v.isLowSurrogate = true ∧ WellFormed rest := by
  obtain ⟨text, he⟩ := h
  cases text with
  | nil => cases he
  | cons c text =>
    have he : ofChar c ++ encode text = u :: units := he
    rcases ofChar_cases c with ⟨v, hv, hno, _⟩ | ⟨v, w, hv, hhigh, hlow, _⟩
    · rw [hv] at he
      obtain ⟨rfl, rfl⟩ := List.cons.inj he
      exact .inl ⟨hno, text, rfl⟩
    · rw [hv] at he
      obtain ⟨rfl, rfl⟩ := List.cons.inj he
      exact .inr ⟨w, _, rfl, hhigh, hlow, text, rfl⟩

theorem map_eq_ok {ε α β : Type} {f : α → β} {x : Except ε α} {b : β} (h : f <$> x = .ok b) : ∃ a, x = .ok a := by
  cases x with
  | error e => cases h
  | ok a => exact ⟨a, rfl⟩

/-- What is read strictly is well-formed. -/
theorem wellFormed_of_decode {offset : Nat} {text : List Char} (h : decode offset units = .ok text) :
    WellFormed units := by
  fun_induction decode offset units generalizing text with
  | case1 => exact wellFormed_nil
  | case2 | case3 | case6 | case7 => cases h
  | case4 offset u hhigh hlow => exact wellFormed_nil.cons (isSurrogate_eq_false hhigh hlow)
  | case5 offset u v rest hhigh hlow ih =>
    obtain ⟨text, h⟩ := map_eq_ok h
    exact (ih h).pair hhigh hlow
  | case8 offset u v rest hhigh hlow ih =>
    obtain ⟨text, h⟩ := map_eq_ok h
    exact (ih h).cons (isSurrogate_eq_false hhigh hlow)

/-- Units that are read without U+FFFD are well-formed. -/
theorem wellFormed_of_decodeLossy (h : '\uFFFD' ∉ decodeLossy units) : WellFormed units := by
  fun_induction decodeLossy units with
  | case1 => exact wellFormed_nil
  | case2 | case5 => exact absurd List.mem_cons_self h
  | case3 u hu => exact wellFormed_nil.cons (by simpa using hu)
  | case4 u v rest hpair ih =>
    rw [Bool.and_eq_true] at hpair
    exact (ih fun hmem => h (List.mem_cons_of_mem _ hmem)).pair hpair.1 hpair.2
  | case6 u v rest _ hu ih =>
    exact (ih fun hmem => h (List.mem_cons_of_mem _ hmem)).cons (by simpa using hu)

/-! ## Where a pair breaks -/

/--
Units begin with half of a pair: with a second one, or with a first one that has no second one behind it. Reading breaks
after so many of them.
-/
inductive BreaksAfter : Nat → List CodeUnit → Prop where
  | low {u : CodeUnit} {rest : List CodeUnit} : u.isLowSurrogate = true → BreaksAfter 0 (u :: rest)
  | high {u : CodeUnit} {rest : List CodeUnit} :
    u.isHighSurrogate = true → (∀ v ∈ rest.head?, v.isLowSurrogate = false) → BreaksAfter 1 (u :: rest)

theorem BreaksAfter.exists_surrogate {k : Nat} {units : List CodeUnit} (h : BreaksAfter k units) :
    ∃ u rest, units = u :: rest ∧ u.isSurrogate = true := by
  cases h with
  | low hu => exact ⟨_, _, rfl, by rw [isSurrogate_eq, hu, Bool.or_true]⟩
  | high hu _ => exact ⟨_, _, rfl, by rw [isSurrogate_eq, hu, Bool.true_or]⟩

theorem isBlank_of_isSurrogate {u : CodeUnit} (h : u.isSurrogate = true) : u.isBlank = false := by
  simp only [isSurrogate, UInt16.le_iff_toNat_le, Bool.and_eq_true, decide_eq_true_eq, UInt16.reduceToNat] at h
  simp only [isBlank, Bool.or_eq_false_iff, beq_eq_false_iff_ne, ne_eq, ← UInt16.toNat_inj, UInt16.reduceToNat]
  omega

theorem BreaksAfter.length_le {k : Nat} (h : BreaksAfter k units) : k ≤ units.length := by
  cases h with
  | low _ => exact Nat.zero_le _
  | high _ _ => exact Nat.succ_le_succ (Nat.zero_le _)

theorem map_eq_error {ε α β : Type} {f : α → β} {x : Except ε α} {e : ε} (h : f <$> x = .error e) : x = .error e := by
  cases x with
  | error e' => exact congrArg Except.error (Except.error.inj h)
  | ok a => cases h

theorem encode_cons (c : Char) (text : List Char) : encode (c :: text) = ofChar c ++ encode text := List.flatMap_cons

/-- Every unit of a text that is no second one of a pair is the first one of a character. -/
theorem exists_split_of_encode {text : List Char} {front behind : List CodeUnit}
    (h : encode text = front ++ u :: behind) (hu : u.isLowSurrogate = false) :
    ∃ before c after, text = before ++ c :: after ∧ encode before = front := by
  induction text generalizing front with
  | nil => exact absurd h.symm (List.append_ne_nil_of_right_ne_nil _ (List.cons_ne_nil _ _))
  | cons c text ih =>
    rw [encode_cons] at h
    have hstart : front = [] → ∃ before c' after, c :: text = before ++ c' :: after ∧ encode before = front :=
      fun he => ⟨[], c, text, rfl, he.symm⟩
    have hmore : ∀ front', encode text = front' ++ u :: behind → ofChar c ++ front' = front →
        ∃ before c' after, c :: text = before ++ c' :: after ∧ encode before = front := by
      intro front' ht he
      obtain ⟨before, c', after, rfl, rfl⟩ := ih ht
      exact ⟨c :: before, c', after, rfl, (encode_cons c before).trans he⟩
    rcases ofChar_cases c with ⟨v, hv, _⟩ | ⟨v, w, hv, _, hlow, _⟩
    · rw [hv] at h hmore
      cases front with
      | nil => exact hstart rfl
      | cons x front =>
        obtain ⟨rfl, ht⟩ := List.cons.inj h
        exact hmore front ht rfl
    · rw [hv] at h hmore
      match front, h with
      | [], _ => exact hstart rfl
      | [x], h =>
        -- The unit in question would be the second one of this character.
        obtain ⟨rfl, ht⟩ := List.cons.inj h
        obtain ⟨rfl, _⟩ := List.cons.inj ht
        rw [hlow] at hu
        cases hu
      | x :: y :: front, h =>
        have h : v :: w :: encode text = x :: y :: (front ++ u :: behind) := h
        rw [List.cons.injEq, List.cons.injEq] at h
        obtain ⟨rfl, rfl, ht⟩ := h
        exact hmore front ht rfl

/-- A pair breaks at a place of the units: behind a text, and so many units further on. -/
def BreaksAt (p : Nat) (units : List CodeUnit) : Prop :=
  ∃ text broken k, units = encode text ++ broken ∧ BreaksAfter k broken ∧ p = (encode text).length + k

theorem BreaksAfter.breaksAt {k : Nat} (h : BreaksAfter k units) : BreaksAt k units :=
  ⟨[], units, k, rfl, h, (Nat.zero_add k).symm⟩

theorem BreaksAt.le_length {p : Nat} (h : BreaksAt p units) : p ≤ units.length := by
  obtain ⟨text, broken, k, rfl, hk, rfl⟩ := h
  rw [List.length_append]
  exact Nat.add_le_add_left hk.length_le _

theorem BreaksAt.behind {p : Nat} (c : Char) (h : BreaksAt p units) :
    BreaksAt ((ofChar c).length + p) (ofChar c ++ units) := by
  obtain ⟨text, broken, k, rfl, hk, rfl⟩ := h
  refine ⟨c :: text, broken, k, ?_, hk, ?_⟩
  · rw [encode_cons, List.append_assoc]
  · rw [encode_cons, List.length_append, Nat.add_assoc]

theorem exists_breaksAt_of_decode {offset p : Nat} (h : decode offset units = .error p) :
    ∃ q, p = offset + q ∧ BreaksAt q units := by
  fun_induction decode offset units with
  | case1 | case4 => cases h
  | case2 offset u hu =>
    have hbreaks : BreaksAfter 1 [u] := .high hu nofun
    exact ⟨1, (Except.error.inj h).symm, hbreaks.breaksAt⟩
  | case3 offset u _ hu | case7 offset u v rest _ hu =>
    exact ⟨0, (Except.error.inj h).symm, (BreaksAfter.low hu).breaksAt⟩
  | case5 offset u v rest hu hv ih =>
    obtain ⟨q, rfl, hq⟩ := ih (map_eq_error h)
    have hbehind := hq.behind (Char.ofNat (combine u v))
    rw [ofChar_combine hu hv] at hbehind
    exact ⟨2 + q, Nat.add_assoc offset 2 q, hbehind⟩
  | case6 offset u v rest hu hv =>
    have hnext : ∀ w ∈ (v :: rest).head?, w.isLowSurrogate = false := by
      intro w hw
      rw [← Option.some.inj hw]
      exact Bool.eq_false_iff.mpr hv
    exact ⟨1, (Except.error.inj h).symm, (BreaksAfter.high hu hnext).breaksAt⟩
  | case8 offset u v rest hhigh hlow ih =>
    obtain ⟨q, rfl, hq⟩ := ih (map_eq_error h)
    have hbehind := hq.behind u.toBasic
    rw [ofChar_toBasic (isSurrogate_eq_false hhigh hlow)] at hbehind
    exact ⟨1 + q, Nat.add_assoc offset 1 q, hbehind⟩

/-- Strict reading fails where a pair breaks behind a text. -/
theorem breaksAt_of_decode {p : Nat} (h : decode 0 units = .error p) : BreaksAt p units := by
  obtain ⟨q, rfl, hq⟩ := exists_breaksAt_of_decode h
  rwa [Nat.zero_add]

/-- Strict reading goes through a text and comes to what is behind it. -/
theorem decode_append (text : List Char) (offset : Nat) (rest : List CodeUnit) :
    decode offset (encode text ++ rest) = (text ++ ·) <$> decode (offset + (encode text).length) rest := by
  induction text generalizing offset with
  | nil =>
    show decode offset rest = ([] ++ ·) <$> decode offset rest
    cases decode offset rest <;> rfl
  | cons c text ih =>
    rw [encode_cons, List.append_assoc, List.length_append]
    rcases ofChar_cases c with ⟨u, hu, hno, rfl⟩ | ⟨u, v, hu, hhigh, hlow, rfl⟩
    · rw [hu, List.singleton_append, decode_basic hno, ih, List.length_singleton, Nat.add_assoc]
      cases decode (offset + (1 + (encode text).length)) rest <;> rfl
    · have hpair : decode offset ([u, v] ++ (encode text ++ rest)) =
          (Char.ofNat (combine u v) :: ·) <$> decode (offset + 2) (encode text ++ rest) := by
        simp only [List.cons_append, List.nil_append, decode, hhigh, hlow, if_true]
      rw [hu, hpair, ih, show [u, v].length = 2 from rfl, Nat.add_assoc]
      cases decode (offset + (2 + (encode text).length)) rest <;> rfl

/-- Strict reading fails where a pair breaks. -/
theorem BreaksAfter.decode {k : Nat} (h : BreaksAfter k units) (offset : Nat) :
    decode offset units = .error (offset + k) := by
  cases h with
  | @low u rest hu =>
    cases rest <;> simp [CodeUnit.decode, not_high_of_low hu, hu]
  | @high u rest hu hnext =>
    cases rest with
    | nil => simp [CodeUnit.decode, hu]
    | cons v rest => simp [CodeUnit.decode, hu, hnext v rfl]

/-- Where a pair breaks shows in the units up to the one behind that place. -/
theorem BreaksAfter.of_take {k : Nat} {units' : List CodeUnit} (h : BreaksAfter k units)
    (htake : units'.take (k + 2) = units.take (k + 2)) : BreaksAfter k units' := by
  cases h with
  | @low u rest hu =>
    cases units' with
    | nil => cases htake
    | cons v rest' =>
      rw [List.take_succ_cons, List.take_succ_cons] at htake
      rw [(List.cons.inj htake).1]
      exact .low hu
  | @high u rest hu hnext =>
    cases units' with
    | nil => cases htake
    | cons v rest' =>
      rw [List.take_succ_cons, List.take_succ_cons] at htake
      obtain ⟨rfl, htail⟩ := List.cons.inj htake
      refine .high hu ?_
      have hhead := congrArg List.head? htail
      rw [List.head?_take, List.head?_take, if_neg (by decide), if_neg (by decide)] at hhead
      rwa [hhead]

/-- Strict reading fails alike on units that agree up to two units behind the failure. -/
theorem decode_error_of_take {p : Nat} {units' : List CodeUnit} (h : CodeUnit.decode 0 units = .error p)
    (htake : units'.take (p + 2) = units.take (p + 2)) : CodeUnit.decode 0 units' = .error p := by
  obtain ⟨text, broken, k, rfl, hk, rfl⟩ := breaksAt_of_decode h
  let m := (encode text).length
  have hfront : units'.take m = encode text := by
    have hm := congrArg (List.take m) htake
    rwa [List.take_take, List.take_take, Nat.min_eq_left (by omega), List.take_left] at hm
  have hbroken : (units'.drop m).take (k + 2) = broken.take (k + 2) := by
    have hm := congrArg (List.drop m) htake
    rwa [List.drop_take, List.drop_take, List.drop_left, show m + k + 2 - m = k + 2 by omega] at hm
  rw [← List.take_append_drop m units', hfront, decode_append, (hk.of_take hbroken).decode, Nat.zero_add]
  rfl

/-- What is read strictly is encoded as the units that it has been read from. -/
theorem encode_of_decode {offset : Nat} {text : List Char} (h : decode offset units = .ok text) :
    encode text = units := by
  obtain ⟨text', rfl⟩ := wellFormed_of_decode h
  rw [decode_encode, Except.ok.injEq] at h
  rw [h]

end XmlPattern.CodeUnit
