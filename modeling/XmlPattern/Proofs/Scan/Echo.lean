import XmlPattern.Proofs.Scan.Course
import XmlPattern.Proofs.Scan.Escapes
import XmlPattern.Scan.NativeAtom

/-!
# Characters that are copied

A native pattern is copied character by character. A pair of units is one character, and is written once its first unit
has been passed. `echo` is what it takes to copy a text.

- `finds_copyCharacter`: unless nothing is left, one character is copied.
- `taken_echoed`: the units of the character are passed, and the character is written.
-/

namespace XmlPattern

open CodeUnit Grammar

/-- Copies a character: writes it in front of its last unit. -/
def echoed (c : Char) : List Event :=
  match ofChar c with
  | [u, v] => [.pass u, .write (.verbatim [c]), .pass v]
  | us => .write (.verbatim [c]) :: reads us

/-- Copies a text. -/
def echo (text : List Char) : List Event := text.flatMap echoed

theorem echoed_of_lt {c : Char} (h : c.toNat < 0x10000) : echoed c = copies c := by
  rw [echoed, ofChar, if_pos h]
  rfl

theorem echoed_of_single {c : Char} {u : CodeUnit} (h : ofChar c = [u]) :
    echoed c = [.write (.verbatim [c]), .pass u] := by
  rw [echoed, h]
  rfl

theorem echoed_of_pair {c : Char} {u v : CodeUnit} (h : ofChar c = [u, v]) :
    echoed c = [.pass u, .write (.verbatim [c]), .pass v] := by
  rw [echoed, h]

/-- Copying a character passes its units and writes it. -/
theorem taken_echoed (c : Char) : taken (echoed c) = ofChar c ∧ written (echoed c) = [.verbatim [c]] := by
  rcases ofChar_cases c with ⟨u, h, _⟩ | ⟨u, v, h, _⟩
  · rw [echoed_of_single h, h]
    exact ⟨rfl, rfl⟩
  · rw [echoed_of_pair h, h]
    exact ⟨rfl, rfl⟩

namespace Scan

variable {s s' : ScanState}

/-- Unless nothing is left, one character is copied. -/
theorem finds_copyCharacter (hs : s.cursor.current ≠ none) :
    copyCharacter.Finds s () s' ↔ ∃ c, Follows (echoed c) s s' := by
  unfold copyCharacter
  simp only [finds_bind (p := character), finds_character, finds_write_bind, finds_advance]
  constructor
  · rintro ⟨c, t, ⟨hnone, _⟩ | ⟨front, u, hc, hf, hcur⟩, rfl⟩
    · exact absurd hnone hs
    · refine ⟨c, ?_⟩
      rcases front with _ | ⟨v, _ | ⟨w, front⟩⟩
      · obtain rfl := hf
        rw [echoed_of_single hc]
        exact ⟨hcur, rfl⟩
      · obtain ⟨hv, rfl⟩ := hf
        rw [echoed_of_pair hc]
        exact ⟨hv, hcur, rfl⟩
      · rcases ofChar_cases c with ⟨u, h, _⟩ | ⟨u, v, h, _⟩ <;> simp [h] at hc
  · rintro ⟨c, hf⟩
    rcases ofChar_cases c with ⟨u, h, _⟩ | ⟨u, v, h, _⟩
    · rw [echoed_of_single h] at hf
      obtain ⟨hcur, rfl⟩ := hf
      exact ⟨c, s, .inr ⟨[], u, h, rfl, hcur⟩, rfl⟩
    · rw [echoed_of_pair h] at hf
      obtain ⟨hu, hv, rfl⟩ := hf
      exact ⟨c, s.advance, .inr ⟨[u], v, h, ⟨hu, rfl⟩, hv⟩, rfl⟩

end Scan

end XmlPattern
