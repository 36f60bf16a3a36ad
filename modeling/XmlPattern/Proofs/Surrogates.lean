import XmlPattern.Proofs.Scan.Legible
import XmlPattern.Proofs.Scan.Verbatim
import XmlPattern.Proofs.Structure
import XmlPattern.Proofs.Text.WellFormed

/-!
# Expressions that are not well-formed

What is converted is well-formed, with one exception: a name in braces is read without failing, and a variant that takes
any name for a block takes one with U+FFFD in it too, in place of half of a pair. There is a warning then.

- `wellFormed_of_convert`: what is converted is well-formed, unless there is a warning about such a name.
- `not_wellFormed_of_convert`: half of a pair may stand in a name.
-/

namespace XmlPattern

open CodeUnit Grammar

variable {o : Options} {d : Dialect} {units : List CodeUnit} {c : Conversion}

/-- A warning is about the name of a block that could not be read. -/
def Diagnostic.IsIllegible (w : Diagnostic) : Prop := ∃ name, w.reason = .toleratedBlock name ∧ '\uFFFD' ∈ name

theorem taken_of_spells {es : List Event} (h : Spells false false (passed false es) units) : taken es = units := by
  rw [spells_iff.mp h, map_passed]

theorem wellFormed_of_schema (hfold : o.foldBlanks = false) (h : convertPattern o (.schema d) units = .ok c) :
    WellFormed units ∨ o.variant.isLenient = true ∧ ∃ w ∈ c.warnings, w.IsIllegible := by
  obtain ⟨r, hr⟩ := convertPattern_sound h
  obtain ⟨s, hscan, hf⟩ := scan_complete (d := d) hr
  rw [convertPattern, hscan] at h
  cases h
  have hspells := hr.2
  rw [hfold, ← (r.passed_course o {}).1] at hspells
  rcases r.legible_course hr.1 with hw | ⟨hv, name, hmem, hwarned⟩
  · exact .inl (taken_of_spells hspells ▸ hw)
  · have hreason : Reason.toleratedBlock name ∈ s.warnings.toList.map Diagnostic.reason := by
      rw [follows_warnings hf]
      exact List.mem_append_right _ hwarned
    obtain ⟨w, hw, hname⟩ := List.mem_map.mp hreason
    exact .inr ⟨hv, w, hw, name, hname, hmem⟩

theorem wellFormed_of_native (hfold : o.foldBlanks = false) (h : convertPattern o .native units = .ok c) :
    WellFormed units := by
  obtain ⟨r, hr, hspells⟩ := convertNative_sound h
  rw [hfold] at hspells
  exact ⟨r.text, (r.turns {} hr).taken.symm.trans (taken_of_spells hspells)⟩

/--
What is converted is well-formed, unless it is read by the grammar of a variant that takes any name for a block, and
there is a warning about the name of a block that could not be read.
-/
theorem wellFormed_of_convert (hfold : o.foldBlanks = false) {atoms : Atoms} (h : convert o atoms units = .ok c) :
    WellFormed units ∨ o.literal = false ∧ atoms ≠ .native ∧ o.variant.isLenient = true ∧
      ∃ w ∈ c.warnings, w.IsIllegible := by
  cases hl : o.literal with
  | true =>
    rw [convert, if_pos hl, convertLiteral] at h
    split at h
    · next text hdecode => exact .inl (wellFormed_of_decode hdecode)
    · cases h
  | false =>
    rw [convert_of_not_literal hl] at h
    cases atoms with
    | schema d => exact (wellFormed_of_schema hfold h).imp id fun h => ⟨rfl, by rintro ⟨⟩, h⟩
    | native => exact .inl (wellFormed_of_native hfold h)

/-- A pair in a class of a native pattern. -/
theorem wellFormed_of_convert_pair : WellFormed [0x5B, 0xD83D, 0xDE00, 0x5D] := by
  have hconvert : convert {} .native [0x5B, 0xD83D, 0xDE00, 0x5D] =
      .ok ⟨[.verbatim ['['], .verbatim ['😀'], .verbatim [']']], .scalar, .xsd10, false, 0, []⟩ := rfl
  exact (wellFormed_of_convert rfl hconvert).resolve_right fun h => h.2.1 rfl

/-- Half of a pair may stand in the name of a block, where any name is taken for one. -/
theorem not_wellFormed_of_convert :
    ¬ ∀ (o : Options) (atoms : Atoms) (units : List CodeUnit), o.foldBlanks = false → ¬ WellFormed units →
      ∃ e, convert o atoms units = .error e := by
  intro hall
  have hlone : ¬ WellFormed [0x5C, 0x70, 0x7B, 0x49, 0x73, 0xD800, 0x7D] := by
    rintro ⟨text, h⟩
    have hdecode : decode 0 [0x5C, 0x70, 0x7B, 0x49, 0x73, 0xD800, 0x7D] = .error 6 := rfl
    rw [← h, decode_encode] at hdecode
    cases hdecode
  obtain ⟨e, he⟩ := hall (.ofVariant .xsd11) (.schema .scalar) _ rfl hlone
  have hok :
      (convert (.ofVariant .xsd11) (.schema .scalar) [0x5C, 0x70, 0x7B, 0x49, 0x73, 0xD800, 0x7D]).isOk = true := by
    decide +kernel
  rw [he] at hok
  cases hok

end XmlPattern
