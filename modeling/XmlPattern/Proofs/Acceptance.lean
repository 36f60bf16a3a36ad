import XmlPattern.Proofs.Scan.Patterns

/-!
# Which expressions are accepted

An expression is converted exactly when it belongs to the grammar of its variant: when some legal syntax tree is spelled
by its units. Where blanks count, a tree is spelled by its own units alone.

- `convert_isOk_iff_grammar`: acceptance is membership in the grammar, for every text.
-/

namespace XmlPattern

open Grammar

theorem convertText_of_not_literal {o : Options} (hl : o.literal = false) (atoms : Atoms) (text : String) :
    convertText o atoms text = convertPattern o atoms (CodeUnit.encode text.toList) := by
  rw [convertText, convert, hl, if_neg Bool.false_ne_true]

/-- Where blanks count, the texts that are converted are those of the grammar. -/
theorem convert_isOk_iff_grammar {o : Options} (hl : o.literal = false) (hb : o.foldBlanks = false) (d : Dialect)
    (text : String) :
    (∃ c, convertText o (.schema d) text = .ok c) ↔
      ∃ r : Regexp, r.Legal o 0 {} ∧ r.units = CodeUnit.encode text.toList := by
  rw [convertText_of_not_literal hl, convertPattern_isOk_iff]
  simp only [Regexp.IsSyntaxOf, hb, spells_iff, Regexp.units, eq_comm]

/-- A list that begins with a hyphen may have another class expression subtracted from it. -/
theorem convert_hyphen_subtraction :
    ∃ c, convertText (.ofVariant .xsd10) (.schema .scalar) "[--[a]]" = .ok c := by
  refine (convert_isOk_iff_grammar rfl rfl .scalar "[--[a]]").mpr ?_
  let inner : ClassTree := .list ⟨false, false, [.single (.plain 'a')], false⟩
  refine ⟨.branch (.cons (.leaf (.charClass (.minus ⟨false, true, [], false⟩ inner))) none .nil), ?_, by decide⟩
  refine ⟨⟨⟨.inl rfl, nofun, nofun⟩, rfl, ⟨.inr (List.cons_ne_nil _ _), ?_, ?_⟩⟩, nofun, trivial, trivial⟩
  · simp [ClassItem.Legal, Single.LegalMember, classMetaChars]
  · decide

end XmlPattern
