import XmlPattern.Proofs.Scan.Verbatim
import XmlPattern.Proofs.Structure

/-!
# Native patterns pass through

A native pattern that is converted is copied as it stands, but for the bounds of quantifiers: one that is larger than
native engines take is written as the largest one they do. So nothing is left to change when what has been written is
converted once more.

- `convert_native`: a native pattern is written as its syntax tree with clamped bounds, and what is written converts to
  itself.
-/

namespace XmlPattern

open CodeUnit Grammar

/-! ## Clamped trees are written alike -/

theorem Grammar.Quantifier.written_clamped (q : Option Quantifier) :
    written (quantifierCourse (q.map clamped)) = written (quantifierCourse q) := by
  cases q with
  | none => rfl
  | some q =>
    have hquantity : written q.quantity.clamped.course = written q.quantity.course := by
      cases q.quantity <;> simp [Quantity.clamped, Quantity.course, boundText_boundText]
    show written (q.quantity.clamped.course ++ if q.isLazy then copies '?' else []) =
      written (q.quantity.course ++ if q.isLazy then copies '?' else [])
    rw [written_append, written_append, hquantity]

namespace Verbatim

mutual

theorem Atom.written_clamped : (G : Groups) → (a : Atom) → written (a.clamped.course G) = written (a.course G)
  | _, .leaf _ => rfl
  | G, .capturing r => by
    show written (echo ['('] ++ ([.opens] ++ (r.clamped.course G.open ++ _))) =
      written (echo ['('] ++ ([.opens] ++ (r.course G.open ++ _)))
    simp only [written_append, r.written_clamped G.open]
  | G, .group flags sign r => by
    simp only [Atom.clamped, Atom.course, written_append, r.written_clamped G]

theorem Branch.written_clamped : (G : Groups) → (b : Branch) → written (b.clamped.course G) = written (b.course G)
  | _, .nil => rfl
  | G, .cons a q b => by
    simp only [Branch.clamped, Branch.course, written_append, a.written_clamped G, a.after_clamped G,
      Quantifier.written_clamped, b.written_clamped (a.after G)]

/-- The same is written for a pattern if its bounds are clamped. -/
theorem Regexp.written_clamped : (G : Groups) → (r : Regexp) → written (r.clamped.course G) = written (r.course G)
  | G, .branch b => b.written_clamped G
  | G, .bar b r => by
    simp only [Regexp.clamped, Regexp.course, written_append, b.written_clamped G, b.after_clamped G,
      r.written_clamped (b.after G)]

end

theorem Regexp.conversion_clamped (o : Options) (r : Regexp) : r.clamped.conversion o = r.conversion o := by
  rw [conversion, r.written_clamped, r.after_clamped]
  rfl

end Verbatim

/-! ## Conversions -/

variable {o : Options} {units : List CodeUnit} {c : Conversion}

/--
Where blanks count, a native pattern that is converted is the text of a syntax tree, and whichever this is, the tree
with clamped bounds is what is written. What is written is a native pattern again, and converted to the same.
-/
theorem convert_native (hl : o.literal = false) (hfold : o.foldBlanks = false) (h : convert o .native units = .ok c) :
    (∃ r : Verbatim.Regexp, r.Legal o 0 ∧ encode r.text = units) ∧
      (∀ r : Verbatim.Regexp, r.Legal o 0 → encode r.text = units → c.pattern = r.clamped.text) ∧
      convert o .native (encode c.pattern) = .ok c := by
  rw [convert_of_not_literal hl] at h ⊢
  obtain ⟨r, hr⟩ := convertNative_sound h
  -- The tree need not be the only one: each tree of the pattern gives its one conversion.
  have hc : ∀ r' : Verbatim.Regexp, r'.IsSyntaxOf o units → c = r'.conversion o := by
    intro r' hr'
    exact Except.ok.inj (h.symm.trans (convertNative_complete hr'))
  refine ⟨⟨r, (Verbatim.Regexp.isSyntaxOf_iff hfold).mp hr⟩, fun r' hr' hunits => ?_, ?_⟩
  · rw [hc r' ((Verbatim.Regexp.isSyntaxOf_iff hfold).mpr ⟨hr', hunits⟩)]
    exact pattern_conversion hr'
  · have hclamped : r.clamped.IsSyntaxOf o (encode c.pattern) := by
      refine (Verbatim.Regexp.isSyntaxOf_iff hfold).mpr ⟨r.legal_clamped hr.1, ?_⟩
      rw [hc r hr, pattern_conversion hr.1]
    rw [convertNative_complete hclamped, r.conversion_clamped, hc r hr]

/-- A bound that is too large, on a reference behind a group that looks behind itself. -/
theorem convert_native_bound :
    ∃ c, convert {} .native (encode "(?<=[a[b]])\\10\x7b3000000000,\x7d😀".toList) = .ok c ∧
      c.pattern = "(?<=[a[b]])\\10\x7b2147483647,\x7d😀".toList ∧ convert {} .native (encode c.pattern) = .ok c := by
  let single (c : Char) : Fragment := .verbatim [c]
  have hconvert : convert {} .native (encode "(?<=[a[b]])\\10\x7b3000000000,\x7d😀".toList) =
      .ok ⟨"(?<=[a[b]])\\10\x7b".toList.map single ++ .verbatim "2147483647".toList :: ",\x7d😀".toList.map single,
        .scalar, .xsd10, false, 0, []⟩ := by decide +kernel
  exact ⟨_, hconvert, rfl, (convert_native rfl rfl hconvert).2.2⟩

end XmlPattern
