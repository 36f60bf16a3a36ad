import XmlPattern.Conversion
import XmlPattern.Proofs.Scan.Fuel
import XmlPattern.Proofs.Scan.Sharing
import XmlPattern.Proofs.Text.WellFormed

/-!
# What a diagnostic depends on

A conversion that fails has seen of its expression no more than the unit it names and the one behind it. Whatever stands
further on may change: the conversion fails for the same cause at the same place. The fuel of a scan is the length of
its expression and so depends on all of it; but fuel that is enough is as good as any other.

- `convertPattern_error_stable`: an expression that is read as a pattern.
- `convert_error_stable`: quoted text too.
-/

namespace XmlPattern

open CodeUnit

variable {o : Options} {atoms : Atoms} {units units' : List CodeUnit} {d : Diagnostic}

/-- A conversion of a pattern fails where its scan does, whatever the fuel is, if it is enough. -/
theorem convertPattern_eq_error_iff {n : Nat} (hn : units.length + 1 ≤ n) :
    convertPattern o atoms units = .error (.pattern d) ↔
      ∃ t, (Scan.pattern o atoms n).run (ScanState.ofUnits o units) = (.error d, t) := by
  have hsame := Scan.pattern_fuel (o := o) (s := ScanState.ofUnits o units) atoms hn (Nat.le_refl _)
  unfold Scan.SameEnd Scan.Lockstep at hsame
  rw [convertPattern, show (ScanState.ofUnits o units).scan (Scan.pattern o atoms) =
    (Scan.pattern o atoms (units.length + 1)).run (ScanState.ofUnits o units) from rfl]
  generalize (Scan.pattern o atoms (units.length + 1)).run (ScanState.ofUnits o units) = x,
    (Scan.pattern o atoms n).run (ScanState.ofUnits o units) = y at hsame
  cases hsame with
  | ok _ =>
    constructor
    · intro h
      cases h
    · rintro ⟨_, h⟩
      cases h
  | @error e _ _ t he =>
    obtain rfl := he
    constructor
    · intro h
      cases h
      exact ⟨t, rfl⟩
    · rintro ⟨_, h⟩
      cases h
      rfl

/-- A failure names a place of the expression, and shows the expression. -/
theorem Scan.diagnostic_of_run {α : Type} {p : Scan α} {t : ScanState}
    (h : p.run (ScanState.ofUnits o units) = (.error d, t)) :
    d.position = t.cursor.position - 1 ∧ t.cursor.position ≤ units.length + 1 ∧
      d.expression = String.ofList (decodeLossy units) := by
  have hexpression : t.cursor.expression = units := by
    have hrun := Scan.expression_run p (ScanState.ofUnits o units)
    rw [h] at hrun
    exact hrun.trans (Cursor.expression_ofUnits ..)
  have hstamp := Scan.stamped_of_run h
  have hle : t.cursor.position ≤ t.cursor.expression.length + 1 := by
    unfold Cursor.position Cursor.expression
    rw [List.length_append, List.length_reverse]
    split <;> omega
  rw [hexpression] at hle
  refine ⟨congrArg Diagnostic.position hstamp, hle, (congrArg Diagnostic.expression hstamp).trans ?_⟩
  show String.ofList (decodeLossy t.cursor.expression) = _
  rw [hexpression]

/-- Two expressions of which the first units are the same, before the first advance. -/
theorem ScanState.shares_ofUnits {k : Nat} (o : Options) (h : units'.take k = units.take k) :
    (ScanState.ofUnits o units).Shares k (ScanState.ofUnits o units') :=
  ⟨⟨rfl, h, rfl, rfl, rfl⟩, rfl, rfl, rfl⟩

theorem convertPattern_error_position (h : convertPattern o atoms units = .error (.pattern d)) :
    d.position ≤ units.length := by
  obtain ⟨t, hrun⟩ := (convertPattern_eq_error_iff (Nat.le_refl _)).mp h
  obtain ⟨hposition, hle, _⟩ := Scan.diagnostic_of_run hrun
  omega

theorem convertPattern_error_stable (h : convertPattern o atoms units = .error (.pattern d))
    (htake : units'.take (d.position + 2) = units.take (d.position + 2)) :
    convertPattern o atoms units' =
      .error (.pattern ⟨d.reason, d.position, String.ofList (decodeLossy units')⟩) := by
  let n := max (units.length + 1) (units'.length + 1)
  obtain ⟨t, hrun⟩ := (convertPattern_eq_error_iff (n := n) (Nat.le_max_left _ _)).mp h
  obtain ⟨hposition, hle, _⟩ := Scan.diagnostic_of_run hrun
  apply (convertPattern_eq_error_iff (n := n) (Nat.le_max_right _ _)).mpr
  -- The scan ends in front of the last unit that the two expressions are known to share.
  have hshares := ScanState.shares_ofUnits o htake
  have hends :=
    Scan.lockstep_of_shares (Scan.pattern o atoms n) hshares (by rw [hrun]; show t.cursor.position < _; omega)
  unfold Scan.Lockstep at hends
  rw [hrun] at hends
  generalize hrun' : (Scan.pattern o atoms n).run (ScanState.ofUnits o units') = y at hends
  cases hends with
  | @error _ e _ t' he =>
    obtain ⟨_, _, hexpression⟩ := Scan.diagnostic_of_run hrun'
    obtain ⟨reason, position, expression⟩ := e
    obtain ⟨rfl, rfl⟩ := he
    obtain rfl := hexpression
    exact ⟨t', rfl⟩

theorem convertLiteral_error_position {e : Dialect} (h : convertLiteral o e units = .error (.pattern d)) :
    d.position ≤ units.length := by
  unfold convertLiteral at h
  split at h
  · cases h
  · next p hp =>
    cases h
    exact (breaksAt_of_decode hp).le_length

theorem convertLiteral_error_stable {e : Dialect} (h : convertLiteral o e units = .error (.pattern d))
    (htake : units'.take (d.position + 2) = units.take (d.position + 2)) :
    convertLiteral o e units' = .error (.pattern ⟨d.reason, d.position, String.ofList (decodeLossy units')⟩) := by
  unfold convertLiteral at h
  split at h
  · cases h
  · next p hp =>
    cases h
    rw [convertLiteral, decode_error_of_take hp htake]

/--
A conversion that fails at a place of its expression fails for the same cause at the same place on every expression that
agrees with it on the units up to that place and on one more unit behind the one that stands there.
-/
theorem convert_error_stable (h : convert o atoms units = .error (.pattern d)) :
    d.position ≤ units.length ∧ ∀ units', units'.take (d.position + 2) = units.take (d.position + 2) →
      convert o atoms units' = .error (.pattern ⟨d.reason, d.position, String.ofList (decodeLossy units')⟩) := by
  unfold convert at h ⊢
  split at h
  · next hl =>
    refine ⟨convertLiteral_error_position h, ?_⟩
    intro units' htake
    rw [if_pos hl]
    exact convertLiteral_error_stable h htake
  · next hl =>
    refine ⟨convertPattern_error_position h, ?_⟩
    intro units' htake
    rw [if_neg hl]
    exact convertPattern_error_stable h htake

/--
Behind a hyphen that is misplaced because no bracket is next to it, nothing matters, not even whether the class ends.
-/
theorem convert_error_stable_hyphen :
    4 ≤ (encode "[a-c-d]".toList).length ∧ convert {} (.schema .scalar) (encode "[a-c-d(".toList) =
      .error (.pattern ⟨.misplacedHyphen, 4, String.ofList (decodeLossy (encode "[a-c-d(".toList))⟩) := by
  have h : convert {} (.schema .scalar) (encode "[a-c-d]".toList) =
      .error (.pattern ⟨.misplacedHyphen, 4, "[a-c-d]"⟩) := rfl
  obtain ⟨hle, hstable⟩ := convert_error_stable h
  have htake : (encode "[a-c-d(".toList).take 6 = (encode "[a-c-d]".toList).take 6 := by decide
  exact ⟨hle, hstable (encode "[a-c-d(".toList) htake⟩

end XmlPattern
