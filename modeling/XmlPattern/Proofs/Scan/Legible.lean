import XmlPattern.Proofs.Scan.Patterns
import XmlPattern.Proofs.Text.WellFormed

/-!
# Scans of units that are not well-formed

A scan takes whatever it passes for characters, and half of a pair is none. The one exception are the names in braces,
which are read without failing: half of a pair becomes U+FFFD there, and no category or block has that in its name. So a
scan of a syntax tree passes well-formed units, unless it warns about such a name.

- `Legible`: events pass well-formed units, or warn about a name that could not be read.
- `Regexp.legible_course`: so do those of a legal pattern.
-/

namespace XmlPattern

open CodeUnit Grammar

/-- Events pass well-formed units, or warn of a block whose name could not be read, where any name is taken for one. -/
def Legible (v : Variant) (es : List Event) : Prop :=
  WellFormed (taken es) ∨ v.isLenient = true ∧ ∃ name, '\uFFFD' ∈ name ∧ .toleratedBlock name ∈ warned es

variable {v : Variant} {es fs : List Event} {us : List CodeUnit}

theorem Legible.append (h : Legible v es) (h' : Legible v fs) : Legible v (es ++ fs) := by
  unfold Legible at *
  rw [taken_append, warned_append]
  rcases h with h | ⟨hv, name, hname, h⟩
  · rcases h' with h' | ⟨hv, name, hname, h'⟩
    · exact .inl (h.append h')
    · exact .inr ⟨hv, name, hname, List.mem_append_right _ h'⟩
  · exact .inr ⟨hv, name, hname, List.mem_append_left _ h⟩

theorem legible_reads (h : WellFormed us) : Legible v (reads us) := by
  rw [Legible, taken_reads]
  exact .inl h

theorem legible_of_taken_nil (h : taken es = []) : Legible v es := by
  rw [Legible, h]
  exact .inl wellFormed_nil

theorem wellFormed_basic (cs : List Char) (h : ∀ c ∈ cs, c.toNat < 0x80) : WellFormed (basic cs) := by
  induction cs with
  | nil => exact wellFormed_nil
  | cons c cs ih =>
    obtain ⟨hc, hcs⟩ := List.forall_mem_cons.mp h
    exact (ih hcs).cons (isSurrogate_ofBasic (by omega))

theorem wellFormed_unit {c : Char} (h : c.toNat < 0x80) : WellFormed [unit c] :=
  wellFormed_nil.cons (isSurrogate_ofBasic (by omega))

theorem legible_copies {c : Char} (hc : c.toNat < 0x80) : Legible v (copies c) :=
  .inl (wellFormed_unit hc)

/-! ## Names -/

theorem Block.eq_of_lowerCase {c : Char} (h : lowerCase c = '\uFFFD') : c = '\uFFFD' := by
  unfold lowerCase Char.toLower at h
  split at h
  · cases h
  · split at h
    · next hc =>
      have hval := congrArg Char.val h
      have hupper : c.val ≤ 90 := hc.2
      grind
    · exact h

theorem Block.mem_of_looseForm {name : List Char} (h : '\uFFFD' ∈ looseForm name) : '\uFFFD' ∈ name := by
  obtain ⟨c, hc, he⟩ := List.mem_map.mp h
  rw [← eq_of_lowerCase he]
  exact (List.mem_filter.mp hc).1

theorem Block.not_mem_of_charsNamed {loose : Bool} {name : List Char} {s : CharSet}
    (h : charsNamed? loose name = some s) :
    '\uFFFD' ∉ name := by
  have hnames : ∀ b ∈ all, '\uFFFD' ∉ b.name.toList := List.all_iff_forall_prop.mp (by decide +kernel)
  obtain ⟨b, hb, hname⟩ : ∃ b ∈ all, hasName b loose name = true := by
    cases hnamed : named loose name with
    | nil =>
      rw [charsNamed?, hnamed] at h
      cases h
    | cons b bs => exact ⟨b, List.mem_filter.mp (hnamed ▸ List.mem_cons_self)⟩
  intro hmem
  cases loose with
  | false =>
    rw [hasName, if_neg Bool.false_ne_true, beq_iff_eq] at hname
    exact hnames b hb (hname ▸ hmem)
  | true =>
    rw [hasName, if_pos rfl, beq_iff_eq] at hname
    refine hnames b hb (mem_of_looseForm (hname ▸ ?_))
    exact List.mem_map.mpr ⟨'\uFFFD', List.mem_filter.mpr ⟨hmem, rfl⟩, rfl⟩

/-- A name that could not be read, and passes for a name all the same, is warned about. -/
theorem legible_warnings {name : List Char} (h : IsKnownName v name) (hmem : '\uFFFD' ∈ name) :
    v.isLenient = true ∧ ∃ block, '\uFFFD' ∈ block ∧ .toleratedBlock block ∈ warned (nameWarnings v name) := by
  have hcodes : ∀ code ∈ categoryCodes, '\uFFFD' ∉ code := by decide +kernel
  unfold nameWarnings
  split
  · next block =>
    have hblock : '\uFFFD' ∈ block := by simpa using hmem
    have hknown : ¬ ∃ b ∈ Block.all, b.name.toList = block := by
      intro hb
      obtain ⟨s, hs⟩ := Option.isSome_iff_exists.mp (Scan.charsNamed_isSome_iff.mpr hb)
      exact Block.not_mem_of_charsNamed hs hblock
    refine ⟨h.resolve_right hknown, block, hblock, ?_⟩
    cases hchars : Block.charsNamed? v.isLenient block with
    | some s => exact absurd hblock (Block.not_mem_of_charsNamed hchars)
    | none => exact List.mem_singleton.mpr rfl
  · next hne =>
    rw [IsKnownName.eq_2 v name hne] at h
    exact absurd hmem (hcodes name h)

namespace Grammar

theorem Single.wellFormed_atom {x : Single} (h : x.LegalAtom v) : WellFormed x.units := by
  cases x with
  | plain c => exact wellFormed_ofChar c
  | escaped letter => exact wellFormed_basic _ (by simpa using (Scan.escapable_ascii h).1)

theorem Single.wellFormed_member {x : Single} (h : x.LegalMember v) : WellFormed x.units := by
  cases x with
  | plain c => exact wellFormed_ofChar c
  | escaped letter => exact wellFormed_basic _ (by simpa using (Scan.escapable_ascii h).1)

theorem SetEscape.legible_course {e : SetEscape} (h : e.Legal v) : Legible v (e.course v) := by
  have hslash : Legible v (reads [unit '\\']) := legible_reads (wellFormed_unit (by decide))
  cases e with
  | letter c => exact hslash.append (legible_reads (wellFormed_unit (Scan.setLetters_ascii (v := v) h).1))
  | property negated name =>
    refine hslash.append ?_
    have hopen : Legible v (reads (basic [if negated then 'P' else 'p', '\x7b'])) := by
      refine legible_reads
        ((wellFormed_unit (c := if negated then 'P' else 'p') ?_).append (wellFormed_unit (by decide)))
      cases negated <;> decide
    have hclose : Legible v (reads [unit '\x7d']) := legible_reads (wellFormed_unit (by decide))
    have hname : Legible v (reads name ++ nameWarnings v (decodeLossy name)) := by
      by_cases hmem : '\uFFFD' ∈ decodeLossy name
      · obtain ⟨hv, block, hblock, hwarned⟩ := legible_warnings h.2 hmem
        refine .inr ⟨hv, block, hblock, ?_⟩
        rw [warned_append]
        exact List.mem_append_right _ hwarned
      · exact (legible_reads (wellFormed_of_decodeLossy hmem)).append
          (legible_of_taken_nil (reads_of_warnings v _).taken)
    rw [body, reads_append]
    simpa only [List.append_assoc] using hopen.append (hname.append hclose)

theorem ClassItem.legible_course {i : ClassItem} (h : i.Legal v) : Legible v (i.course v) := by
  cases i with
  | single x => exact legible_reads (x.wellFormed_member h)
  | range lo hi =>
    have hhyphen : WellFormed [unit '-'] := wellFormed_unit (by decide)
    exact legible_reads ((lo.wellFormed_member h.1).append (hhyphen.append (hi.wellFormed_member h.2.1)))
  | set e => exact e.legible_course h

theorem legible_if {b : Bool} {c : Char} (hc : c.toNat < 0x80) : Legible v (reads (if b then [unit c] else [])) := by
  cases b with
  | true => exact legible_reads (wellFormed_unit hc)
  | false => exact legible_of_taken_nil rfl

theorem ClassGroup.legible_course {g : ClassGroup} (h : g.Legal v) : Legible v (g.course v) := by
  have hitems : ∀ items : List ClassItem, (∀ i ∈ items, i.Legal v) →
      Legible v (items.flatMap (ClassItem.course v)) := by
    intro items hi
    induction items with
    | nil => exact legible_of_taken_nil rfl
    | cons i items ih =>
      obtain ⟨hfirst, hrest⟩ := List.forall_mem_cons.mp hi
      exact (i.legible_course hfirst).append (ih hrest)
  exact (legible_if (by decide)).append (((legible_if (by decide)).append (hitems g.items h.items)).append
    (legible_if (by decide)))

theorem legible_modes {b : Bool} {c : Char} (hc : c.toNat < 0x80) : Legible v [.mode b, .pass (unit c)] :=
  .inl (wellFormed_unit hc)

theorem ClassTree.legible_course {outer : Bool} {c : ClassTree} (h : c.Legal v) :
    Legible v (c.course v outer) := by
  induction c generalizing outer with
  | list g => exact ((legible_modes (by decide)).append (g.legible_course h)).append (legible_modes (by decide))
  | minus g c ih =>
    have hhyphen : Legible v [.pass (unit '-')] := legible_reads (wellFormed_unit (by decide))
    exact ((((legible_modes (by decide)).append (g.legible_course h.1)).append hhyphen).append (ih h.2.2)).append
      (legible_modes (by decide))

theorem Leaf.legible_course {o : Options} {l : Leaf} (h : l.Legal o.variant) : Legible o.variant (l.course o) := by
  refine Legible.append ?_ (legible_of_taken_nil rfl)
  cases l with
  | dot => exact legible_reads (wellFormed_unit (by decide))
  | single x => exact legible_reads (x.wellFormed_atom h)
  | set e => exact e.legible_course h
  | charClass c => exact c.legible_course h

theorem legible_quantifier {q : Option Quantifier} (h : ∀ x ∈ q, x.Legal v) :
    Legible v (quantifierCourse q) := by
  have hmark : ∀ c ∈ quantifierChars, c.toNat < 0x80 := List.all_iff_forall_prop.mp (by decide)
  left
  rw [(reads_of_quantifier q).taken]
  refine wellFormed_basic _ fun c hc => ?_
  rcases mem_quantifierText h hc with hc | hd
  · exact hmark c hc
  · exact Scan.isDigit_lt hd

mutual

theorem Atom.legible_course {o : Options} : (a : Atom) → {depth : Nat} → {G : Groups} → a.Legal o depth G →
    Legible o.variant (a.course o G)
  | .leaf l, _, _, h => l.legible_course h
  | .anchor c, _, _, h => legible_copies (Scan.anchorChars_ascii h.2)
  | .reference digits, _, _, h => by
    refine (legible_reads (wellFormed_basic _ ?_)).append (legible_of_taken_nil rfl)
    exact List.forall_mem_cons.mpr ⟨by decide, fun c hc => Scan.isDigit_lt (h.2.1.2 c hc)⟩
  | .group true r, _, G, h => by
    have hopen : Legible o.variant [.pass (unit '('), .opens, .write (.verbatim ['('])] :=
      .inl (wellFormed_unit (by decide))
    have hclose : Legible o.variant (.closes (G.opened + 1) :: copies ')') := .inl (wellFormed_unit (by decide))
    exact (hopen.append (r.legible_course h.2)).append hclose
  | .group false r, _, G, h => by
    have hopen : Legible o.variant (reads (basic ['(', '?', ':']) ++ [.write (.verbatim ['(', '?', ':'])]) :=
      (legible_reads (wellFormed_basic _ (List.all_iff_forall_prop.mp (by decide)))).append (legible_of_taken_nil rfl)
    exact (hopen.append (r.legible_course h.2.2)).append (legible_copies (by decide))

theorem Branch.legible_course {o : Options} : (b : Branch) → {depth : Nat} → {G : Groups} → b.Legal o depth G →
    Legible o.variant (b.course o G)
  | .nil, _, _, _ => legible_of_taken_nil rfl
  | .cons a _ b, _, _, h =>
    ((a.legible_course h.1).append (legible_quantifier h.2.1)).append (b.legible_course h.2.2.2)

/-- The scan of a legal pattern passes well-formed units, unless it warns of a name that could not be read. -/
theorem Regexp.legible_course {o : Options} : (r : Regexp) → {depth : Nat} → {G : Groups} → r.Legal o depth G →
    Legible o.variant (r.course o G)
  | .branch b, _, _, h => b.legible_course h
  | .bar b r, _, _, h => ((b.legible_course h.1).append (legible_copies (by decide))).append (r.legible_course h.2)

end

end Grammar

end XmlPattern
