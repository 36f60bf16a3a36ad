import XmlPattern.Proofs.Native.Blankless
import XmlPattern.Proofs.Native.Copied
import XmlPattern.Proofs.Scan.Verbatim
import XmlPattern.Proofs.Structure

/-!
# Native patterns are left as they are

What a conversion has written is a native pattern, and a conversion of native patterns leaves it as it is, with the same
groups and without a warning, under the same options. One more level of groups must be allowed, for what is written has
groups of its own inside those of the expression.

- `convertPattern_of_copies`: a text that is copied is converted to itself.
- `convertText_pattern`: what a conversion writes is such a text.
-/

namespace XmlPattern

open Grammar

variable {o : Options} {d : Dialect} {units : List CodeUnit} {c : Conversion}

/-- Units of which none is a blank that would not count are spelled as they stand. -/
theorem spells_of_not_blank {fold b : Bool} {ms : List Mark} (h : fold = true → ∀ m ∈ ms, m.1.isBlank = false) :
    Spells fold b ms (ms.map (·.1)) := by
  induction ms generalizing b with
  | nil => exact .nil
  | cons m ms ih =>
    exact .unit (fun hf _ => h hf m List.mem_cons_self) (ih fun hf m hm => h hf m (List.mem_cons_of_mem _ hm))

/-- The text of a native pattern, without blanks where these do not count, is an expression for it. -/
theorem Verbatim.Regexp.isSyntaxOf_encode {r : Verbatim.Regexp} (hr : r.Legal o 0)
    (hblank : o.foldBlanks = true → Blankless r.text) : r.IsSyntaxOf o (CodeUnit.encode r.text) := by
  have hunits : (passed false (r.course {})).map (·.1) = CodeUnit.encode r.text :=
    (map_passed false _).trans (r.turns {} hr).taken
  refine ⟨hr, ?_⟩
  rw [← hunits]
  refine spells_of_not_blank fun hf m hm => (hblank hf).units m.1 ?_
  rw [← hunits]
  exact List.mem_map_of_mem hm

/-- What is written for a pattern has no blanks where these do not count. -/
theorem Grammar.Regexp.blankless_of_isSyntaxOf {r : Regexp} (d : Dialect) (hr : r.IsSyntaxOf o units) :
    o.foldBlanks = true → Blankless (r.text d o {}) := by
  intro hfold
  have hspells := hr.2
  rw [hfold] at hspells
  exact r.blankless o d hr.1 hspells

/-- A text that is copied, and has no blanks where these do not count, is converted to itself. -/
theorem convertPattern_of_copies {text : List Char} {G : Groups} {k : Nat} (h : CopiesRegexp o 0 {} text G k)
    (hblank : o.foldBlanks = true → Blankless text) :
    ∃ c, convertPattern o .native (CodeUnit.encode text) = .ok c ∧ c.pattern = text ∧ c.captureCount = G.opened ∧
      c.warnings = [] := by
  obtain ⟨r, hr, hclamped, rfl, rfl, _⟩ := h
  exact ⟨_, convertNative_complete (r.isSyntaxOf_encode hr hblank),
    (pattern_conversion hr).trans (congrArg Verbatim.Regexp.text hclamped), rfl, rfl⟩

/--
What a conversion has written is converted to itself as a native pattern: with the same options and one more level of
groups, the same text comes out, with as many groups and without warnings.
-/
theorem convertText_pattern (hl : o.literal = false) (h : convert o (.schema d) units = .ok c) :
    ∃ c', convertText { o with maxDepth := o.maxDepth + 1 } .native (String.ofList c.pattern) = .ok c' ∧
      c'.pattern = c.pattern ∧ c'.captureCount = c.captureCount ∧ c'.warnings = [] := by
  rw [convert_of_not_literal hl] at h
  obtain ⟨r, hr⟩ := convertPattern_sound h
  have hc := convertPattern_of h hr
  have hcopied := r.copied o d (Nat.zero_le _) hr.1 nofun
  have hblank : o.deeper.foldBlanks = true → Blankless (r.text d o {}) := r.blankless_of_isSyntaxOf d hr
  have hl : o.deeper.literal = false := hl
  show ∃ c', convertText o.deeper .native _ = .ok c' ∧ _
  rw [convertText, String.toList_ofList, convert_of_not_literal hl, hc.pattern_eq, hc.captureCount]
  exact convertPattern_of_copies hcopied hblank

/-- A group around a character that is written as a pair of units, and a reference to it. -/
theorem convertText_pattern_pair :
    ∃ c, convertText { Options.ofVariant .xpath20 with maxDepth := 2 } .native "((?:\\uD83D\\uDE00))(?:\\1)" = .ok c ∧
      c.pattern = "((?:\\uD83D\\uDE00))(?:\\1)".toList ∧ c.captureCount = 1 ∧ c.warnings = [] := by
  have hconvert : convert { Options.ofVariant .xpath20 with maxDepth := 1 } (.schema .utf16)
      (CodeUnit.encode "(😀)\\1".toList) = .ok ⟨[.verbatim ['('], .literal '😀', .verbatim [')'], .reference 1 false],
        .utf16, .xpath20, false, 1, []⟩ := rfl
  exact convertText_pattern rfl hconvert

end XmlPattern
