import XmlPattern.Proofs.Scan.Verbatim

/-!
# Native patterns that nest too deep

A native pattern whose groups nest deeper than allowed, and that is a pattern otherwise, is read up to the first group
that is too deep. The scan fails behind the head of that group.

- `copiedRegexp_fails`: by induction on the tree, with what is in front of the group read as it is read anyway.
- `convertNative_fails`: so does the conversion.
-/

namespace XmlPattern

open Grammar

namespace Scan

variable {α β : Type} {s s' t : ScanState} {o p : Options} {n m depth : Nat}

/-- A scan fails because groups nest too deep. -/
def FailsDeep (p : Scan α) (s : ScanState) : Prop := ∃ t, p.run s = (.error (t.diagnostic .nestingTooDeep), t)

theorem FailsDeep.bind {p : Scan α} (h : FailsDeep p s) (f : α → Scan β) : FailsDeep (p >>= f) s := by
  obtain ⟨t, ht⟩ := h
  exact ⟨t, run_bind_eq_error.mpr (.inl ht)⟩

theorem FailsDeep.behind {p : Scan α} {f : α → Scan β} {a : α} (hp : p.Finds s a t) (h : FailsDeep (f a) t) :
    FailsDeep (p >>= f) s := by
  obtain ⟨u, hu⟩ := h
  exact ⟨u, run_bind_eq_error.mpr (.inr ⟨a, t, hp, hu⟩)⟩

theorem failsDeep_descend (h : s.options.maxDepth ≤ depth) : FailsDeep (descend depth) s :=
  ⟨s, by simp [descend, Command.run, h]⟩

/-- A group fails where its inside does. -/
theorem OpensGroup.fails {r : Verbatim.Regexp} {nested : Scan Unit} (h : OpensGroup o n r s s')
    (hnested : ∀ {t u}, Poised o n t → Follows (r.course t.groups) t u → u.cursor.current = some (unit ')') →
      FailsDeep nested t) : FailsDeep (nativeAtom n nested) s := by
  obtain ⟨close, t, u, v, ht, hf, hparen, _, _, hrun⟩ := h
  obtain ⟨w, hw⟩ := ((hnested ht hf hparen).bind fun _ => expect ')' >>= fun _ => close >>= fun _ => copy).bind
    fun _ => pure true
  exact ⟨w, (hrun nested).trans hw⟩

/-- The inside of a group fails if it is too deep itself, or else if something in it is. -/
theorem enclosed_fails {r : Verbatim.Regexp} (ht : Poised o n t) (h : ¬ (depth < o.maxDepth ∧ r.Legal o (depth + 1)))
    (hinside : ¬ r.Legal o (depth + 1) → FailsDeep (expression o .native n (depth + 1)) t) :
    FailsDeep (enclosed o .native n depth) t := by
  unfold enclosed
  by_cases hdepth : depth < o.maxDepth
  · have hfinds : (descend depth).Finds t () t := by
      have hnot : ¬ t.options.maxDepth ≤ depth := by rw [ht.options]; omega
      simp [Finds, descend, Command.run, hnot]
    exact .behind hfinds (hinside fun hr => h ⟨hdepth, hr⟩)
  · exact (failsDeep_descend (by rw [ht.options]; omega)).bind _

mutual

theorem copiedAtom_fails (o : Options) : (a : Verbatim.Atom) → {s s' : ScanState} → {n depth : Nat} → Poised o n s →
    p.variant = o.variant → a.Legal p depth → ¬ a.Legal o depth → Follows (a.course s.groups) s s' →
    FailsDeep (atom o .native n depth) s
  | a, s, s', 0, depth, hs, _, ha, _, hf => by
    -- No atom is empty, so fuel for what is left does not run out in front of one.
    have hlt := remaining_lt_of_copiedAtom ha hf
    have hfuel := hs.fuel
    omega
  | .leaf l, _, _, _ + 1, _, _, _, ha, hnot, _ => absurd ha hnot
  | .capturing r, s, s', n + 1, depth, hs, hv, ha, hnot, hf => by
    rw [atom_native]
    refine (copiedCapturing_opens hs ha.2 hf).fails fun ht hf hparen => enclosed_fails ht hnot fun hr => ?_
    exact copiedRegexp_fails o r ht hv ht.fuel ha.2 hr hf (.inr hparen)
  | .group flags sign r, s, s', n + 1, depth, hs, hv, ha, hnot, hf => by
    obtain ⟨hflags, hsign, _, hr⟩ := ha
    rw [atom_native]
    refine (copiedGroup_opens hflags hsign hs hf).fails fun ht hf hparen =>
      enclosed_fails ht (fun h => hnot ⟨hflags, hsign, h⟩) fun hnotr => ?_
    exact copiedRegexp_fails o r ht hv ht.fuel hr hnotr hf (.inr hparen)

theorem copiedBranch_fails (o : Options) :
    (b : Verbatim.Branch) → {s s' : ScanState} → {n m depth : Nat} → Poised o n s →
    p.variant = o.variant → s.cursor.remaining ≤ m → b.Legal p depth → ¬ b.Legal o depth →
    Follows (b.course s.groups) s s' → EndsBranch s' → FailsDeep (branch o.variant (atom o .native n depth) m) s
  | .nil, _, _, _, _, _, _, _, _, hl, hnot, _, _ => absurd hl hnot
  | .cons a q b, s, s', n, m, depth, hs, hv, hm, hl, hnot, hf, hend => by
    obtain ⟨ha, hq, hbefore, hb⟩ := hl
    rw [hv] at hq
    obtain ⟨t, u, haf, hends, hlt, hquant, hu, hlt', hbf⟩ := copiedPiece hs ha hq hbefore hb hf hend
    obtain ⟨m, rfl⟩ := Nat.exists_eq_add_one.mpr (show 0 < m by omega)
    by_cases hao : a.Legal o depth
    · have hnotb : ¬ b.Legal o depth := fun hbo => hnot ⟨hao, hq, hbefore, hbo⟩
      refine .behind (copiedAtom_complete o a hs ⟨hao, haf, hends⟩) ?_
      exact .behind (hquant m (by omega)) (copiedBranch_fails o b hu hv (by omega) hb hnotb hbf hend)
    · exact (copiedAtom_fails o a hs hv ha hao haf).bind _

theorem copiedRegexp_fails (o : Options) :
    (r : Verbatim.Regexp) → {s s' : ScanState} → {n m depth : Nat} → Poised o n s →
    p.variant = o.variant → s.cursor.remaining ≤ m → r.Legal p depth → ¬ r.Legal o depth →
    Follows (r.course s.groups) s s' → EndsRegexp s' →
    FailsDeep (do
      branch o.variant (atom o .native n depth) n
      alternatives (branch o.variant (atom o .native n depth) n) m) s
  | .branch b, s, s', n, m, depth, hs, hv, _, hl, hnot, hf, hend =>
    (copiedBranch_fails o b hs hv hs.fuel hl hnot hf hend.endsBranch).bind _
  | .bar b r, s, s', n, m, depth, hs, hv, hm, hl, hnot, hf, hend => by
    obtain ⟨t, hbf, hbar, ht, hlt, hrf⟩ := copiedBar hs hl.1 hf
    obtain ⟨m, rfl⟩ := Nat.exists_eq_add_one.mpr (show 0 < m by omega)
    by_cases hbo : b.Legal o depth
    · refine .behind (copiedBranch_complete o b hs hs.fuel hbo hbf (.inr (.inr hbar))) ?_
      obtain ⟨u, hu⟩ := copiedRegexp_fails o r ht hv (Nat.le_of_lt_succ (Nat.lt_of_lt_of_le hlt hm)) hl.2
        (fun hro => hnot ⟨hbo, hro⟩) hrf hend
      refine ⟨u, (run_bind_of_run rfl).trans ?_⟩
      rw [if_pos (beq_iff_eq.mpr hbar)]
      exact (run_bind_of_run run_copy).trans hu
    · exact (copiedBranch_fails o b hs hv hs.fuel hl.1 hbo hbf (.inr (.inr hbar))).bind _

end

end Scan

/-- A native pattern that nests too deep, and is a pattern otherwise, is refused for that. -/
theorem convertNative_fails {o p : Options} {r : Verbatim.Regexp} {units : List CodeUnit} (hv : p.variant = o.variant)
    (hfold : p.foldBlanks = o.foldBlanks) (h : r.IsSyntaxOf p units) (hnot : ¬ r.Legal o 0) :
    ∃ e, convertPattern o .native units = .error (.pattern e) ∧ e.reason = .nestingTooDeep := by
  obtain ⟨hr, hspells⟩ := h
  rw [hfold] at hspells
  obtain ⟨s, hf, hend⟩ := follows_to_end_iff.mpr hspells
  have hstart := poised_start o units
  obtain ⟨t, ht⟩ := (Scan.copiedRegexp_fails o r hstart hv hstart.fuel hr hnot hf (.inl hend)).bind fun _ => do
    if (← Scan.current).isSome then Scan.fail .expectedEnd
  have hscan : (ScanState.ofUnits o units).scan (Scan.pattern o .native) = (.error (t.diagnostic .nestingTooDeep), t) :=
    (Scan.run_bind_of_run rfl).trans ht
  exact ⟨_, by rw [convertPattern, hscan], rfl⟩

end XmlPattern
