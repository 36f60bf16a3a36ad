import XmlPattern.Proofs.Grammar.Verbatim
import XmlPattern.Proofs.Scan.Atoms
import XmlPattern.Proofs.Scan.Echo

/-!
# Native patterns are copied

What the scanners of native patterns copy: texts, character by character, and escapes with what they have behind their
letter. Each finds exactly the texts of its part that stand at the cursor; where a number ends is told by what comes
behind it.

- `taken_echo`, `written_echo`: a text that is copied is passed and written.
- `copyEscape_sound`, `copyEscape_complete`: escapes.
-/

namespace XmlPattern

open CodeUnit Grammar
open Verbatim (Operand EndsNumber)

/-! ## Copying a text -/

section

variable {s s' : ScanState} {es : List Event} {c : Char} {cs : List Char}

theorem echo_cons (c : Char) (cs : List Char) : echo (c :: cs) = echoed c ++ echo cs := rfl

theorem echo_append (cs ds : List Char) : echo (cs ++ ds) = echo cs ++ echo ds := List.flatMap_append

theorem echo_singleton (c : Char) : echo [c] = echoed c := List.append_nil _

/-- A character of the basic plane is copied where it stands. -/
theorem follows_echoed (hc : c.toNat < 0x10000) :
    Follows (echoed c ++ es) s s' ↔ s.cursor.current = some (unit c) ∧ Follows es s.copied s' := by
  rw [echoed_of_lt hc, follows_append]
  constructor
  · rintro ⟨t, hcopy, hf⟩
    obtain ⟨hcur, rfl⟩ := (Scan.follows_copies hc).mp hcopy
    exact ⟨hcur, hf⟩
  · rintro ⟨hcur, hf⟩
    exact ⟨_, (Scan.follows_copies hc).mpr ⟨hcur, rfl⟩, hf⟩

theorem follows_echo_singleton (hc : c.toNat < 0x10000) :
    Follows (echo [c]) s s' ↔ s.cursor.current = some (unit c) ∧ s' = s.copied := by
  show Follows (echoed c ++ []) s s' ↔ _ ∧ Follows [] s.copied s'
  exact follows_echoed hc

theorem taken_echo (cs : List Char) : taken (echo cs) = encode cs := by
  induction cs with
  | nil => rfl
  | cons c cs ih =>
    rw [echo_cons, taken_append, (taken_echoed c).1, ih]
    rfl

theorem written_echo (cs : List Char) : Fragment.textOf .scalar (written (echo cs)) = cs := by
  induction cs with
  | nil => rfl
  | cons c cs ih =>
    rw [echo_cons, written_append, Fragment.textOf_append, (taken_echoed c).2, ih]
    rfl

/-- The first unit passed is the current one. -/
theorem current_of_taken {u : CodeUnit} {us : List CodeUnit} (hf : Follows es s s') (h : taken es = u :: us) :
    s.cursor.current = some u := by
  rw [← map_passed false, List.map_eq_cons_iff] at h
  obtain ⟨m, ms, hms, rfl, _⟩ := h
  exact follows_head hf false m (by rw [hms]; rfl)

theorem current_of_taken_nil (hf : Follows es s s') (h : taken es = []) : s'.cursor.current = s.cursor.current := by
  refine Scan.current_of_passed_nil hf false ?_
  rw [← List.map_eq_nil_iff (f := (·.1)), map_passed]
  exact h

/-- Where the units of a text are passed next, its first character is what stands there, if it is of ASCII. -/
theorem ascii_of_taken (hf : Follows es s s') (h : taken es = encode (c :: cs)) :
    s.cursor.current.bind CodeUnit.toAscii? = if c.toNat < 0x80 then some c else none := by
  have hfirst : ∃ u us, ofChar c = u :: us ∧ s.cursor.current = some u := by
    rw [show encode (c :: cs) = ofChar c ++ encode cs from rfl] at h
    rcases ofChar_cases c with ⟨u, hu, _⟩ | ⟨u, v, hu, _⟩ <;> rw [hu] at h
    · exact ⟨u, [], hu, current_of_taken hf h⟩
    · exact ⟨u, [v], hu, current_of_taken hf h⟩
  obtain ⟨u, us, hu, hcur⟩ := hfirst
  split
  · next hc =>
    rw [ofChar, if_pos (by omega)] at hu
    exact Scan.ascii_of_current (hcur.trans (congrArg some (List.head_eq_of_cons_eq hu).symm)) hc
  · next hc =>
    rw [Option.eq_none_iff_forall_ne_some]
    intro d hd
    obtain ⟨hd, hcur'⟩ := Scan.ascii_eq_some.mp hd
    obtain rfl := Option.some.inj (hcur.symm.trans hcur')
    exact hc (head?_ofChar hd (by rw [hu]; rfl) ▸ hd)

end

namespace Scan

variable {s s' t : ScanState} {n : Nat} {c : Char} {cs : List Char}

theorem ascii_of_echoed {es : List Event} (hf : Follows (echoed c ++ es) s s') :
    s.cursor.current.bind CodeUnit.toAscii? = if c.toNat < 0x80 then some c else none := by
  obtain ⟨t, hc, _⟩ := follows_append.mp hf
  have htaken : taken (echoed c) = encode [c] := by
    rw [(taken_echoed c).1, encode, List.flatMap_singleton]
  exact ascii_of_taken hc htaken

/-- The ASCII character that stands where a character is to be copied is that one. -/
theorem eq_of_echoed {es : List Event} (hf : Follows (echoed c ++ es) s s') {d : Char}
    (h : s.cursor.current = some (unit d)) (hd : d.toNat < 0x80) : c = d := by
  have hascii := (ascii_of_echoed hf).symm.trans (ascii_of_current h hd)
  split at hascii
  · exact Option.some.inj hascii
  · cases hascii

theorem eq_of_ascii_of_echoed {es : List Event} {u : CodeUnit} {d : Char} (hf : Follows (echoed c ++ es) s s')
    (hu : s.cursor.current = some u) (hd : u.toAscii? = some d) : c = d := by
  obtain ⟨hlt, rfl⟩ := CodeUnit.toAscii?_eq_some.mp hd
  exact eq_of_echoed hf hu hlt

/-- A character of ASCII that is to be copied is what the current unit stands for. -/
theorem toAscii?_of_echoed {es : List Event} {u : CodeUnit} (hf : Follows (echoed c ++ es) s s')
    (hu : s.cursor.current = some u) (hc : c.toNat < 0x80) : u.toAscii? = some c := by
  have hascii := ascii_of_echoed hf
  rwa [hu, if_pos hc] at hascii

theorem current_ne_none_of_echoed {es : List Event} (hf : Follows (echoed c ++ es) s s') :
    s.cursor.current ≠ none := by
  have htaken := taken_append (echoed c) es
  rw [(taken_echoed c).1] at htaken
  rcases ofChar_cases c with ⟨u, h, _⟩ | ⟨u, v, h, _⟩
  all_goals
    rw [current_of_taken hf (by rw [htaken, h]; rfl)]
    exact Option.some_ne_none u

theorem not_at_of_echoed {es : List Event} {d : Char} (hd : d.toNat < 0x80) (hne : c ≠ d)
    (hf : Follows (echoed c ++ es) s s') : (s.cursor.current == some (unit d)) = false :=
  beq_eq_false_iff_ne.mpr fun h => hne (eq_of_echoed hf h hd)

theorem copyCharacter_complete (hf : Follows (echoed c) s s') : copyCharacter.Finds s () s' :=
  (finds_copyCharacter (current_ne_none_of_echoed (by rwa [List.append_nil]))).mpr ⟨c, hf⟩

theorem remaining_lt_of_echoed (hf : Follows (echoed c) s s') : s'.cursor.remaining < s.cursor.remaining := by
  have h := follows_remaining hf false
  have hlen : 0 < (passed false (echoed c)).length := by
    rw [← List.length_map (·.1), map_passed, (taken_echoed c).1]
    rcases ofChar_cases c with ⟨u, h, _⟩ | ⟨u, v, h, _⟩ <;> simp [h]
  omega

theorem remaining_lt_of_copied {u : CodeUnit} (h : s.cursor.current = some u) :
    s.copied.cursor.remaining < s.cursor.remaining := by
  rw [ScanState.cursor_copied]
  exact ScanState.remaining_advance h

/-- No digit stands at a state. -/
def EndsDigits (s : ScanState) : Prop := ∀ c ∈ s.cursor.current.bind CodeUnit.toAscii?, c.isDigit = false

/--
Whether a number is over at a state is told by the text that is passed next, or by what comes behind if there is none.
-/
theorem endsDigits_iff {es : List Event} {text : List Char} (hf : Follows es s s') (h : taken es = encode text) :
    EndsDigits s ↔ EndsNumber text ∧ (text = [] → EndsDigits s') := by
  cases text with
  | nil =>
    rw [EndsDigits, EndsDigits, ← current_of_taken_nil hf h]
    exact ⟨fun hd => ⟨nofun, fun _ => hd⟩, fun hd => hd.2 rfl⟩
  | cons c cs =>
    rw [EndsDigits, ascii_of_taken hf h, and_iff_left fun he => absurd he (List.cons_ne_nil c cs)]
    split
    · exact Iff.rfl
    · next hc =>
      refine iff_of_true nofun ?_
      rintro _ ⟨⟩
      rw [← Bool.not_eq_true]
      exact fun hd => hc (isDigit_lt hd)

/-! ## Escapes -/

theorem copyCharacters_complete (hf : Follows (echo cs) s s') : (copyCharacters cs.length).Finds s () s' := by
  induction cs generalizing s with
  | nil => exact finds_pure.mpr ⟨rfl, hf⟩
  | cons c cs ih =>
    have hcur := current_ne_none_of_echoed hf
    obtain ⟨t, hc, hcs⟩ := follows_append.mp hf
    rw [List.length_cons, copyCharacters, finds_current_bind, if_neg (by simpa using hcur)]
    exact finds_bind.mpr ⟨(), t, copyCharacter_complete hc, ih hcs⟩

theorem copyCharacters_sound {count : Nat} (h : (copyCharacters count).Finds s () s') :
    ∃ cs, cs.length = count ∧ Follows (echo cs) s s' := by
  induction count generalizing s with
  | zero =>
    obtain ⟨_, rfl⟩ := finds_pure.mp h
    exact ⟨[], rfl, rfl⟩
  | succ count ih =>
    simp only [copyCharacters, finds_current_bind] at h
    split at h
    · exact (finds_fail_bind.mp h).elim
    · next hcur =>
      obtain ⟨_, t, hchar, h⟩ := finds_bind.mp h
      obtain ⟨c, hc⟩ := (finds_copyCharacter (by simpa using hcur)).mp hchar
      obtain ⟨cs, rfl, hcs⟩ := ih h
      exact ⟨c :: cs, rfl, follows_append.mpr ⟨t, hc, hcs⟩⟩

theorem copyBraced_complete (h : '\x7d' ∉ cs) (hn : s.cursor.remaining ≤ n)
    (hf : Follows (echo (cs ++ ['\x7d'])) s s') :
    (copyBraced n).Finds s () s' := by
  induction cs generalizing s n with
  | nil =>
    obtain ⟨hcur, rfl⟩ := (follows_echo_singleton (by decide)).mp hf
    obtain ⟨n, rfl⟩ := Cursor.exists_fuel hcur hn
    rw [copyBraced, finds_current_bind, hcur]
    exact finds_copy.mpr rfl
  | cons c cs ih =>
    rw [List.mem_cons, not_or] at h
    have hf : Follows (echoed c ++ echo (cs ++ ['\x7d'])) s s' := hf
    obtain ⟨u, hu⟩ := Option.ne_none_iff_exists'.mp (current_ne_none_of_echoed hf)
    have hbrace : ¬ (u == unit '\x7d') = true := by
      intro he
      rw [beq_iff_eq.mp he] at hu
      exact h.1 (eq_of_echoed hf hu (by decide)).symm
    obtain ⟨t, hc, hcs⟩ := follows_append.mp hf
    have hlt := remaining_lt_of_echoed hc
    obtain ⟨n, rfl⟩ := Nat.exists_eq_add_one.mpr (show 0 < n by omega)
    simp only [copyBraced, finds_current_bind, hu, if_neg hbrace]
    exact finds_bind.mpr ⟨(), t, copyCharacter_complete hc, ih h.2 (by omega) hcs⟩

theorem copyBraced_sound (h : (copyBraced n).Finds s () s') :
    ∃ cs, '\x7d' ∉ cs ∧ Follows (echo (cs ++ ['\x7d'])) s s' := by
  induction n generalizing s with
  | zero => exact (finds_fail.mp h).elim
  | succ n ih =>
    simp only [copyBraced, finds_current_bind] at h
    split at h
    · exact (finds_fail.mp h).elim
    · next u hcur =>
      split at h
      · next hu =>
        obtain rfl := beq_iff_eq.mp hu
        exact ⟨[], List.not_mem_nil, (follows_echo_singleton (by decide)).mpr ⟨hcur, finds_copy.mp h⟩⟩
      · next hu =>
        obtain ⟨_, t, hchar, h⟩ := finds_bind.mp h
        obtain ⟨c, hc⟩ := (finds_copyCharacter (by rw [hcur]; exact Option.some_ne_none u)).mp hchar
        obtain ⟨cs, hcs, hf⟩ := ih h
        have hall := follows_append.mpr ⟨t, hc, hf⟩
        refine ⟨c :: cs, ?_, hall⟩
        rw [List.mem_cons, not_or]
        refine ⟨?_, hcs⟩
        rintro rfl
        have hbrace := ((follows_echoed (by decide)).mp hall).1
        exact hu (beq_iff_eq.mpr (Option.some.inj (hcur.symm.trans hbrace)))

theorem copyDigits_complete (h : ∀ c ∈ cs, c.isDigit = true) (hn : s.cursor.remaining ≤ n) (hf : Follows (echo cs) s s')
    (hend : EndsDigits s') : (copyDigits n).Finds s () s' := by
  induction cs generalizing s n with
  | nil =>
    obtain rfl := hf
    cases n with
    | zero => exact finds_pure.mpr ⟨rfl, rfl⟩
    | succ n =>
      rw [copyDigits, finds_ascii_bind]
      split
      · next c hc =>
        rw [hend c hc]
        exact finds_pure.mpr ⟨rfl, rfl⟩
      · exact finds_pure.mpr ⟨rfl, rfl⟩
  | cons c cs ih =>
    obtain ⟨hc, hcs⟩ := List.forall_mem_cons.mp h
    obtain ⟨hcur, hf⟩ := (follows_echoed (by have := isDigit_lt hc; omega)).mp hf
    have hlt := remaining_lt_of_copied hcur
    obtain ⟨n, rfl⟩ := Nat.exists_eq_add_one.mpr (show 0 < n by omega)
    rw [copyDigits, finds_ascii_bind, ascii_of_current hcur (isDigit_lt hc)]
    dsimp only
    rw [if_pos hc, finds_copy_bind]
    exact ih hcs (by omega) hf

theorem copyDigits_sound (hn : s.cursor.remaining ≤ n) (h : (copyDigits n).Finds s () s') :
    ∃ cs, (∀ c ∈ cs, c.isDigit = true) ∧ Follows (echo cs) s s' ∧ EndsDigits s' := by
  induction n generalizing s with
  | zero =>
    obtain ⟨_, rfl⟩ := finds_pure.mp h
    refine ⟨[], nofun, rfl, ?_⟩
    rw [EndsDigits, current_of_remaining hn]
    exact nofun
  | succ n ih =>
    rw [copyDigits, finds_ascii_bind] at h
    split at h
    · next c hc =>
      obtain ⟨_, hcur⟩ := ascii_eq_some.mp hc
      split at h
      · next hd =>
        have hlt := remaining_lt_of_copied hcur
        obtain ⟨cs, hcs, hf, hend⟩ := ih (by omega) (finds_copy_bind.mp h)
        have hlt' := isDigit_lt hd
        exact ⟨c :: cs, List.forall_mem_cons.mpr ⟨hd, hcs⟩, (follows_echoed (by omega)).mpr ⟨hcur, hf⟩, hend⟩
      · next hd =>
        obtain ⟨_, rfl⟩ := finds_pure.mp h
        refine ⟨[], nofun, rfl, ?_⟩
        rw [EndsDigits, hc]
        rintro _ ⟨⟩
        exact Bool.eq_false_iff.mpr hd
    · next hnone =>
      obtain ⟨_, rfl⟩ := finds_pure.mp h
      refine ⟨[], nofun, rfl, ?_⟩
      rw [EndsDigits, hnone]
      exact nofun

theorem escapeWidth?_of_isDigit (hd : c.isDigit = true) : escapeWidth? c = none := by
  unfold escapeWidth?
  split <;> first | rfl | cases hd

theorem escapeWidth?_of_not_ascii (hc : ¬ c.toNat < 0x80) : escapeWidth? c = none := by
  unfold escapeWidth?
  split <;> first | rfl | exact absurd (by decide) hc

/-- What an escape with a letter has behind it, if it is not a number. -/
theorem copyOperand_complete {letter : Char} (h : Operand letter cs) (hn : s.cursor.remaining ≤ n)
    (hf : Follows (echo cs) s s') : (copyOperand n letter).Finds s () s' := by
  unfold copyOperand
  cases h with
  | none hw hd =>
    rw [hw]
    have hzero : ¬ (letter.isDigit && letter != '0') = true := by
      rw [Bool.and_eq_true, bne_iff_ne]
      exact fun h => h.2 (hd h.1)
    dsimp only
    rw [if_neg hzero]
    exact finds_pure.mpr ⟨rfl, hf⟩
  | @braced width text hw hbrace =>
    rw [hw]
    obtain ⟨hcur, hrest⟩ := (follows_echoed (c := '\x7b') (by decide)).mp hf
    dsimp only
    rw [finds_isAt_bind, hcur, beq_self_eq_true, if_pos rfl]
    have hnot : '\x7d' ∉ '\x7b' :: text := by
      rw [List.mem_cons, not_or]
      exact ⟨by decide, hbrace⟩
    exact copyBraced_complete hnot hn hf
  | fixed hw hhead =>
    rw [hw]
    obtain ⟨c, cs, rfl⟩ : ∃ c rest, cs = c :: rest := by
      refine List.exists_cons_of_ne_nil ?_
      rintro rfl
      unfold escapeWidth? at hw
      split at hw <;> cases hw
    have hne : c ≠ '\x7b' := fun he => hhead (congrArg some he)
    dsimp only
    rw [finds_isAt_bind, not_at_of_echoed (by decide) hne hf, if_neg Bool.false_ne_true]
    exact copyCharacters_complete hf

theorem copyOperand_sound {letter : Char} (hn : s.cursor.remaining ≤ n) (h : (copyOperand n letter).Finds s () s') :
    (∃ cs, Operand letter cs ∧ Follows (echo cs) s s') ∨
      ∃ cs, IsNumeral (letter :: cs) ∧ letter ≠ '0' ∧ Follows (echo cs) s s' ∧ EndsDigits s' := by
  unfold copyOperand at h
  split at h
  · next width hw =>
    rw [finds_isAt_bind] at h
    split at h
    · next hopen =>
      obtain ⟨cs, hcs, hf⟩ := copyBraced_sound h
      cases cs with
      | nil =>
        have hcur := ((follows_echo_singleton (by decide)).mp hf).1
        rw [hcur] at hopen
        exact absurd hopen (by decide)
      | cons c cs =>
        obtain rfl := eq_of_echoed hf (beq_iff_eq.mp hopen) (by decide)
        exact .inl ⟨_, .braced hw fun h => hcs (List.mem_cons_of_mem _ h), hf⟩
    · next hopen =>
      obtain ⟨cs, rfl, hf⟩ := copyCharacters_sound h
      refine .inl ⟨cs, .fixed hw fun hhead => ?_, hf⟩
      obtain ⟨rest, rfl⟩ := List.head?_eq_some_iff.mp hhead
      exact hopen (beq_iff_eq.mpr ((follows_echoed (by decide)).mp hf).1)
  · next hw =>
    split at h
    · next hd =>
      rw [Bool.and_eq_true, bne_iff_ne] at hd
      obtain ⟨cs, hcs, hf, hend⟩ := copyDigits_sound hn h
      exact .inr ⟨cs, ⟨List.cons_ne_nil _ _, List.forall_mem_cons.mpr ⟨hd.1, hcs⟩⟩, hd.2, hf, hend⟩
    · next hd =>
      rw [Bool.and_eq_true, bne_iff_ne] at hd
      obtain ⟨_, rfl⟩ := finds_pure.mp h
      refine .inl ⟨[], .none hw fun hdigit => ?_, rfl⟩
      exact Decidable.byContradiction fun hzero => hd ⟨hdigit, hzero⟩

/-- Behind a letter that is not of ASCII nothing belongs to an escape. -/
theorem copyOperand_of_not_ascii (hc : ¬ c.toNat < 0x80) : copyOperand n c = pure () := by
  have hd : c.isDigit = false := Bool.eq_false_iff.mpr fun hd => hc (isDigit_lt hd)
  rw [copyOperand, escapeWidth?_of_not_ascii hc]
  dsimp only
  rw [hd]
  rfl

/-- Once the letter of an escape has been copied, what belongs to it is. -/
theorem finds_copyEscape (hletter : Follows (echoed c) s.copied t) :
    (copyEscape n).Finds s () s' ↔ (copyOperand n c).Finds t () s' := by
  have hletter' : Follows (echoed c ++ []) s.copied t := by rwa [List.append_nil]
  have hcur : ¬ s.copied.cursor.current.isNone = true := by simpa using current_ne_none_of_echoed hletter'
  simp only [copyEscape, finds_copy_bind, finds_current_bind, if_neg hcur, finds_ascii_bind, ascii_of_echoed hletter']
  rw [finds_bind_of_run (copyCharacter_complete hletter)]
  split
  · next hc =>
    split at hc
    · rw [Option.some.inj hc]
    · cases hc
  · next hc =>
    split at hc
    · cases hc
    · next hascii => rw [copyOperand_of_not_ascii hascii]

/-- An escape is over at a state. -/
def EndsEscape (s : ScanState) : Verbatim.Escape → Prop
  | .lettered _ _ => True
  | .numbered _ => EndsDigits s

theorem endsEscape_iff {e : Verbatim.Escape} {es : List Event} {text : List Char} (hf : Follows es s s')
    (h : taken es = encode text) : EndsEscape s e ↔ e.EndsBefore text ∧ (text = [] → EndsEscape s' e) := by
  cases e with
  | lettered letter operand => exact iff_of_true trivial ⟨trivial, fun _ => trivial⟩
  | numbered digits => exact endsDigits_iff hf h

/-- An escape begins with a backslash. -/
theorem current_of_escape {e : Verbatim.Escape} (hf : Follows (echo e.text) s s') :
    s.cursor.current = some (unit '\\') ∧ s'.cursor.remaining < s.cursor.remaining := by
  obtain ⟨text, htext⟩ := e.exists_text
  rw [htext] at hf
  obtain ⟨hslash, hf⟩ := (follows_echoed (by decide)).mp (show Follows (echoed '\\' ++ echo text) s s' from hf)
  exact ⟨hslash, Nat.lt_of_le_of_lt (follows_remaining_le hf) (remaining_lt_of_copied hslash)⟩

/-- An escape is copied with what belongs to it. -/
theorem copyEscape_complete {e : Verbatim.Escape} (h : e.Legal) (hn : s.cursor.remaining ≤ n + 1)
    (hf : Follows (echo e.text) s s') (hend : EndsEscape s' e) : (copyEscape n).Finds s () s' := by
  have hfront : ∀ {letter : Char} {operand : List Char}, e.text = '\\' :: letter :: operand →
      ∃ t, s.cursor.current = some (unit '\\') ∧ Follows (echoed letter) s.copied t ∧ Follows (echo operand) t s' ∧
        t.cursor.remaining ≤ n := by
    intro letter operand htext
    rw [htext] at hf
    obtain ⟨hslash, hf⟩ := (follows_echoed (by decide)).mp hf
    obtain ⟨t, hletter, hoperand⟩ := follows_append.mp
      (show Follows (echoed letter ++ echo operand) s.copied s' from hf)
    have hle := remaining_lt_of_copied hslash
    have hlt := remaining_lt_of_echoed hletter
    exact ⟨t, hslash, hletter, hoperand, by omega⟩
  cases e with
  | lettered letter operand =>
    obtain ⟨t, hslash, hletter, hoperand, ht⟩ := hfront rfl
    exact (finds_copyEscape hletter).mpr (copyOperand_complete h ht hoperand)
  | numbered digits =>
    obtain ⟨letter, digits, rfl⟩ := List.exists_cons_of_ne_nil h.1.1
    obtain ⟨hdigit, hdigits⟩ := List.forall_mem_cons.mp h.1.2
    obtain ⟨t, hslash, hletter, hoperand, ht⟩ := hfront rfl
    have hnonzero : (letter.isDigit && letter != '0') = true := by
      rw [hdigit, Bool.true_and, bne_iff_ne]
      rintro rfl
      exact h.2 rfl
    refine (finds_copyEscape hletter).mpr ?_
    rw [copyOperand, escapeWidth?_of_isDigit hdigit]
    dsimp only
    rw [if_pos hnonzero]
    exact copyDigits_complete hdigits ht hoperand hend

theorem copyEscape_sound (hslash : s.cursor.current = some (unit '\\')) (hn : s.cursor.remaining ≤ n + 1)
    (h : (copyEscape n).Finds s () s') :
    ∃ e : Verbatim.Escape, e.Legal ∧ Follows (echo e.text) s s' ∧ EndsEscape s' e := by
  have hletter : ∃ letter t, Follows (echoed letter) s.copied t := by
    simp only [copyEscape, finds_copy_bind, finds_current_bind] at h
    split at h
    · exact (finds_fail_bind.mp h).elim
    · next hcur =>
      rw [finds_ascii_bind] at h
      obtain ⟨_, t, hchar, _⟩ := finds_bind.mp h
      obtain ⟨letter, hletter⟩ := (finds_copyCharacter (by simpa using hcur)).mp hchar
      exact ⟨letter, t, hletter⟩
  obtain ⟨letter, t, hletter⟩ := hletter
  have hle := remaining_lt_of_copied hslash
  have hlt := remaining_lt_of_echoed hletter
  have hall : ∀ {text}, Follows (echo text) t s' → Follows (echo ('\\' :: letter :: text)) s s' := by
    intro text hf
    exact (follows_echoed (by decide)).mpr ⟨hslash, follows_append.mpr ⟨t, hletter, hf⟩⟩
  rcases copyOperand_sound (by omega) ((finds_copyEscape hletter).mp h) with
    ⟨cs, hoperand, hf⟩ | ⟨cs, hnumeral, hzero, hf, hend⟩
  · exact ⟨.lettered letter cs, hoperand, hall hf, trivial⟩
  · exact ⟨.numbered (letter :: cs), ⟨hnumeral, fun he => hzero (Option.some.inj he)⟩, hall hf, hend⟩

end Scan

end XmlPattern
