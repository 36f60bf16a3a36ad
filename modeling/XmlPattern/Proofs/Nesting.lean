import XmlPattern.Proofs.FixedPoint
import XmlPattern.Proofs.Numbering
import XmlPattern.Proofs.Scan.Depth

/-!
# How deep native patterns nest

A conversion keeps the groups of an expression and allows no more of them within one another than its limit says. Around
each back-reference it writes a group of its own. So the native pattern may nest one level deeper than the expression,
and then the same limit refuses it.

- `Regexp.depth_tree`: how deep the native pattern nests.
- `Regexp.nesting_le_iff`: the limit is kept if and only if the references leave room for their groups.
- `convert_nesting`: converting what a conversion has written leaves it as it is in that case, and fails in the other.
-/

namespace XmlPattern

open Grammar Native

variable {o : Options} {units : List CodeUnit} {c : Conversion}

/-! ## Groups around references -/

mutual

/-- Back-references stand inside fewer groups than the limit. -/
def Grammar.Atom.RefersWithin (limit : Nat) : (depth : Nat) → Atom → Prop
  | _, .leaf _ => True
  | _, .anchor _ => True
  | depth, .reference _ => depth < limit
  | depth, .group _ r => r.RefersWithin limit (depth + 1)

/-- Back-references of a branch stand inside fewer groups than the limit. -/
def Grammar.Branch.RefersWithin (limit : Nat) : (depth : Nat) → Branch → Prop
  | _, .nil => True
  | depth, .cons a _ b => a.RefersWithin limit depth ∧ b.RefersWithin limit depth

/-- Back-references of a pattern stand inside fewer groups than the limit. -/
def Grammar.Regexp.RefersWithin (limit : Nat) : (depth : Nat) → Regexp → Prop
  | depth, .branch b => b.RefersWithin limit depth
  | depth, .bar b r => b.RefersWithin limit depth ∧ r.RefersWithin limit depth

end

mutual

theorem Grammar.Atom.nesting_le_iff : (a : Atom) → {depth : Nat} → {G : Groups} → depth ≤ o.maxDepth →
    a.Legal o depth G → (depth + a.nesting .scalar ≤ o.maxDepth ↔ a.RefersWithin o.maxDepth depth)
  | .leaf _, _, _, hd, _ => iff_of_true hd trivial
  | .anchor _, _, _, hd, _ => iff_of_true hd trivial
  | .reference _, _, _, _, _ => Iff.rfl
  | .group true r, _, _, _, h => by
    rw [Atom.RefersWithin, ← r.nesting_le_iff h.1 h.2, Atom.nesting]
    omega
  | .group false r, _, _, _, h => by
    rw [Atom.RefersWithin, ← r.nesting_le_iff h.1 h.2.2, Atom.nesting]
    omega

theorem Grammar.Branch.nesting_le_iff : (b : Branch) → {depth : Nat} → {G : Groups} → depth ≤ o.maxDepth →
    b.Legal o depth G → (depth + b.nesting .scalar ≤ o.maxDepth ↔ b.RefersWithin o.maxDepth depth)
  | .nil, _, _, hd, _ => iff_of_true hd trivial
  | .cons a _ b, _, _, hd, h => by
    rw [Branch.RefersWithin, ← a.nesting_le_iff hd h.1, ← b.nesting_le_iff hd h.2.2.2, Branch.nesting]
    omega

/--
What is written for a legal pattern nests within the limit if and only if its references leave room for their groups.
-/
theorem Grammar.Regexp.nesting_le_iff : (r : Regexp) → {depth : Nat} → {G : Groups} → depth ≤ o.maxDepth →
    r.Legal o depth G → (depth + r.nesting .scalar ≤ o.maxDepth ↔ r.RefersWithin o.maxDepth depth)
  | .branch b, _, _, hd, h => b.nesting_le_iff hd h
  | .bar b r, _, _, hd, h => by
    rw [Regexp.RefersWithin, ← b.nesting_le_iff hd h.1, ← r.nesting_le_iff hd h.2, Regexp.nesting]
    omega

end

/-! ## The depth of native trees -/

section

variable {α : Type} {leaf : Leaf → Native.Tree α}

/-- A quantifier brings no group. -/
theorem Native.Tree.depth_quantify (t : Native.Tree α) (q : Option Grammar.Quantifier) :
    (t.quantify q).depth = t.depth := by
  cases q <;> rfl

variable (blind multiLine : Bool)

mutual

theorem Grammar.Atom.depth_tree (hleaf : ∀ l, (leaf l).depth = 0) : (a : Atom) → (G : Groups) →
    (a.tree leaf blind multiLine G).depth = a.nesting .scalar
  | .leaf l, _ => hleaf l
  | .anchor _, _ => rfl
  | .reference _, _ => rfl
  | .group true r, G => congrArg (· + 1) (r.depth_tree hleaf G.open)
  | .group false r, G => congrArg (· + 1) (r.depth_tree hleaf G)

theorem Grammar.Branch.depth_tree (hleaf : ∀ l, (leaf l).depth = 0) : (b : Branch) → (G : Groups) →
    (b.tree leaf blind multiLine G).depth = b.nesting .scalar
  | .nil, _ => rfl
  | .cons a q b, G => by
    rw [Branch.tree, Tree.depth, Tree.depth_quantify, a.depth_tree hleaf G,
      b.depth_tree hleaf (a.after G), Branch.nesting]

/-- The native tree of a pattern has the groups of the pattern and those around its references within one another. -/
theorem Grammar.Regexp.depth_tree (hleaf : ∀ l, (leaf l).depth = 0) : (r : Regexp) → (G : Groups) →
    (r.tree leaf blind multiLine G).depth = r.nesting .scalar
  | .branch b, G => b.depth_tree hleaf G
  | .bar b r, G => by
    rw [Regexp.tree, Tree.depth, b.depth_tree hleaf G, r.depth_tree hleaf (b.after G), Regexp.nesting]

end

end

/-! ## Conversions -/

/--
A conversion to characters writes a pattern that nests at most one level deeper than the limit allows, and within the
limit if and only if every back-reference stands inside fewer groups than the limit. In that case the same options
convert the pattern to itself; in the other they refuse it, because its groups nest too deep.
-/
theorem convert_nesting (hl : o.literal = false) (h : convert o (.schema .scalar) units = .ok c) :
    ∃ (r : Regexp) (t : Native.Tree CharSet), r.IsSyntaxOf o units ∧
      Lexis.scalar.tree? o.multiLine c.pattern = some (t, c.captureCount) ∧
      t.depth ≤ o.maxDepth + 1 ∧ (t.depth ≤ o.maxDepth ↔ r.RefersWithin o.maxDepth 0) ∧
      (t.depth ≤ o.maxDepth → ∃ c', convertText o .native (String.ofList c.pattern) = .ok c' ∧
        c'.pattern = c.pattern ∧ c'.captureCount = c.captureCount ∧ c'.warnings = []) ∧
      (o.maxDepth < t.depth → ∃ e, convertText o .native (String.ofList c.pattern) = .error (.pattern e) ∧
        e.reason = .nestingTooDeep) := by
  rw [convert_of_not_literal hl] at h
  obtain ⟨r, hr⟩ := convertPattern_sound h
  have hc := convertPattern_of h hr
  have hblank := r.blankless_of_isSyntaxOf .scalar hr
  have hvalid : Grammar.Groups.Valid {} := nofun
  have hdepth : (r.nativeTree o .scalar).depth = r.nesting .scalar := r.depth_tree _ _ (fun _ => rfl) {}
  have hwithin := r.nesting_le_iff (Nat.zero_le _) hr.1
  have hlimit := r.nesting_le .scalar (Nat.zero_le _) hr.1
  rw [Nat.zero_add] at hwithin hlimit
  refine ⟨r, r.nativeTree o .scalar, hr, tree?_nativeTree h hr, ?_⟩
  rw [hdepth, convertText, String.toList_ofList, convert_of_not_literal hl, hc.pattern_eq, hc.captureCount]
  refine ⟨hlimit, hwithin, fun hroom => ?_, fun hdeep => ?_⟩
  · have hcopied := r.copied_of_nesting_le o .scalar o.maxDepth hr.1 (by omega) hvalid
    exact convertPattern_of_copies hcopied hblank
  · -- With one more level the text is that of a native pattern, and without it no tree of that text is legal.
    obtain ⟨v, hv, _, htext, _, hnests⟩ := r.copied o .scalar (Nat.zero_le _) hr.1 hvalid
    have hsyntax : v.IsSyntaxOf o.deeper (CodeUnit.encode v.text) := v.isSyntaxOf_encode hv (by rwa [htext])
    rw [htext] at hsyntax
    refine convertNative_fails (p := o.deeper) rfl rfl hsyntax fun hlegal => ?_
    have hle := hnests o (Nat.zero_le _) hlegal
    omega

/-- A reference that is in one group fewer than two may be within one another. -/
theorem convert_nesting_reference :
    ∃ (r : Regexp) (t : Native.Tree CharSet),
      r.IsSyntaxOf { Options.ofVariant .xpath20 with maxDepth := 2 } (CodeUnit.encode "(a)(\\1)".toList) ∧
      Lexis.scalar.tree? false "(a)((?:\\1))".toList = some (t, 2) ∧ (t.depth ≤ 2 ↔ r.RefersWithin 2 0) := by
  have hconvert : convert { Options.ofVariant .xpath20 with maxDepth := 2 } (.schema .scalar)
      (CodeUnit.encode "(a)(\\1)".toList) = .ok ⟨[.verbatim ['('], .literal 'a', .verbatim [')'], .verbatim ['('],
        .reference 1 false, .verbatim [')']], .scalar, .xpath20, false, 2, []⟩ := rfl
  obtain ⟨r, t, hr, ht, _, hwithin, _⟩ := convert_nesting rfl hconvert
  exact ⟨r, t, hr, ht, hwithin⟩

/-- A reference in a group, where no two groups may be within one another: what is written for it nests too deep. -/
theorem not_nested_referenceInGroup :
    let o := { Options.ofVariant .xpath20 with maxDepth := 1 }
    ∃ (c : Conversion) (t : Native.Tree CharSet) (e : Diagnostic),
      convert o (.schema .scalar) (CodeUnit.encode "(a)(\\1)".toList) = .ok c ∧
      Lexis.scalar.tree? o.multiLine c.pattern = some (t, c.captureCount) ∧ ¬ t.depth ≤ o.maxDepth ∧
      convertText o .native (String.ofList c.pattern) = .error (.pattern e) ∧ e.reason = .nestingTooDeep := by
  exact ⟨⟨[.verbatim ['('], .literal 'a', .verbatim [')'], .verbatim ['('], .reference 1 false, .verbatim [')']],
    .scalar, .xpath20, false, 2, []⟩, _, ⟨.nestingTooDeep, 7, "(a)((?:\\1))"⟩, rfl, rfl, by decide, rfl, rfl⟩

end XmlPattern
