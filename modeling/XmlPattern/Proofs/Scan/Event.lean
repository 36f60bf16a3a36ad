import XmlPattern.Proofs.Grammar.Legal
import XmlPattern.Proofs.Scan.Finds

/-!
# The events of a scan

What a successful scan does is a list of events: units it passes, fragments it writes, groups it opens and closes,
warnings, and changes between classes and the rest. `Follows es s s'` says that the events `es` lead from the state `s`
to the state `s'`; a unit is only passed where it is the current one. Everything that a scan gathers is then read off
the list: the fragments (`follows_output`), the warnings (`follows_warnings`), the groups (`follows_groups`), the
options, which stay.

- `follows_append`: events in a row.
- `follows_remaining`: every unit passed brings the end nearer.
-/

namespace XmlPattern

open Grammar (Groups Mark)

namespace Cursor

theorem take_rest_of_end {skip : Bool} {passed rest : List CodeUnit} (h : (take skip passed rest).2.2 = true) :
    (take skip passed rest).2.1 = [] := by
  induction rest generalizing passed with
  | nil => rfl
  | cons u rest ih =>
    unfold take at h ⊢
    split
    · next hu =>
      rw [if_pos hu] at h
      exact ih h
    · next hu =>
      rw [if_neg hu] at h
      cases h

theorem take_length_lt {skip : Bool} {passed rest : List CodeUnit} (h : (take skip passed rest).2.2 = false) :
    (take skip passed rest).2.1.length < rest.length := by
  induction rest generalizing passed with
  | nil => cases h
  | cons u rest ih =>
    unfold take at h ⊢
    split
    · next hu =>
      rw [if_pos hu] at h
      exact Nat.lt_succ_of_lt (ih h)
    · exact Nat.lt_succ_self _

theorem remaining_advance {c : Cursor} (h : c.atEnd = false) : c.advance.remaining < c.remaining := by
  unfold remaining
  rw [h]
  cases hend : c.advance.atEnd with
  | true =>
    have hrest : c.advance.rest = [] := take_rest_of_end hend
    simp [hrest]
  | false =>
    have hlt : c.advance.rest.length < c.rest.length := take_length_lt hend
    simpa using hlt

theorem atEnd_of_current {c : Cursor} {u : CodeUnit} (h : c.current = some u) : c.atEnd = false := by
  unfold current at h
  split at h
  · cases h
  · next hc => exact Bool.eq_false_iff.mpr hc

/-- Inside a class every unit counts. -/
theorem current_advance_of_inClass {c : Cursor} {u : CodeUnit} (hc : c.inClass = true) (h : c.current = some u) :
    c.advance.current = c.next := by
  unfold current advance next skipping
  rw [hc, atEnd_of_current h]
  cases c.rest with
  | nil => simp [take]
  | cons v rest => simp [take]

/-- A unit that is no blank counts everywhere. -/
theorem current_advance_of_next {c : Cursor} {u : CodeUnit} (h : c.next = some u) (hu : u.isBlank = false) :
    c.advance.current = some u := by
  unfold next at h
  split at h
  · cases h
  · obtain ⟨rest, hrest⟩ := List.head?_eq_some_iff.mp h
    unfold current advance
    rw [hrest]
    simp [take, hu]

/-- A cursor that has been moved on to the end stays there. -/
theorem current_advance_of_end {c : Cursor} (h : c.advance.current = none) : c.advance.advance.current = none := by
  have hend : c.advance.atEnd = true := by
    unfold current at h
    split at h
    · next hc => exact hc
    · cases h
  have hrest : c.advance.rest = [] := take_rest_of_end hend
  have hadv : c.advance.advance.atEnd = true := by
    show (take c.advance.skipping c.advance.passed c.advance.rest).2.2 = true
    rw [hrest]
    rfl
  simp [current, hadv]

end Cursor

/-- One thing that a scan does. -/
inductive Event where
  /-- Passes the current unit. -/
  | pass (u : CodeUnit)
  /-- Enters a class, or leaves one. -/
  | mode (inClass : Bool)
  | write (f : Fragment)
  | opens
  | closes (number : Nat)
  | warns (r : Reason)

/-- Passes units in a row. -/
def reads (us : List CodeUnit) : List Event := us.map .pass

/-- Writes a character of the basic plane as it stands and passes it. -/
def copies (c : Char) : List Event := [.write (.verbatim [c]), .pass (CodeUnit.ofBasic c)]

/-- What an event makes of a state. -/
def Event.apply : Event → ScanState → ScanState
  | pass _, s => s.advance
  | mode b, s => s.setInClass b
  | write f, s => s.write f
  | opens, s => s.openGroup
  | closes number, s => s.closeGroup number
  | warns r, s => s.warn r

/-- Events lead from one state to another. -/
def Follows : List Event → ScanState → ScanState → Prop
  | [], s, s' => s' = s
  | .pass u :: es, s, s' => s.cursor.current = some u ∧ Follows es s.advance s'
  | .mode b :: es, s, s' => Follows es (s.setInClass b) s'
  | .write f :: es, s, s' => Follows es (s.write f) s'
  | .opens :: es, s, s' => Follows es s.openGroup s'
  | .closes number :: es, s, s' => Follows es (s.closeGroup number) s'
  | .warns r :: es, s, s' => Follows es (s.warn r) s'

section

variable {s s' : ScanState} {es fs : List Event}

@[simp]
theorem follows_nil : Follows [] s s' ↔ s' = s := Iff.rfl

@[simp]
theorem follows_pass {u : CodeUnit} :
    Follows (.pass u :: es) s s' ↔ s.cursor.current = some u ∧ Follows es s.advance s' := Iff.rfl

@[simp]
theorem follows_mode {b : Bool} : Follows (.mode b :: es) s s' ↔ Follows es (s.setInClass b) s' := Iff.rfl

@[simp]
theorem follows_write {f : Fragment} : Follows (.write f :: es) s s' ↔ Follows es (s.write f) s' := Iff.rfl

@[simp]
theorem follows_opens : Follows (.opens :: es) s s' ↔ Follows es s.openGroup s' := Iff.rfl

@[simp]
theorem follows_closes {n : Nat} : Follows (.closes n :: es) s s' ↔ Follows es (s.closeGroup n) s' := Iff.rfl

@[simp]
theorem follows_warns {r : Reason} : Follows (.warns r :: es) s s' ↔ Follows es (s.warn r) s' := Iff.rfl

/-- Whatever an event is, the others begin where it leads. -/
theorem Follows.tail {e : Event} (h : Follows (e :: es) s s') : Follows es (e.apply s) s' := by
  cases e with
  | pass u => exact h.2
  | mode _ | write _ | opens | closes _ | warns _ => exact h

theorem follows_append : Follows (es ++ fs) s s' ↔ ∃ t, Follows es s t ∧ Follows fs t s' := by
  induction es generalizing s with
  | nil => simp
  | cons e es ih => cases e <;> simp [ih, and_assoc]

theorem follows_unique {t : ScanState} (h : Follows es s s') (h' : Follows es s t) : t = s' := by
  induction es generalizing s with
  | nil => rw [h, h']
  | cons e es ih => exact ih h.tail h'.tail

@[simp]
theorem reads_nil : reads [] = [] := rfl

@[simp]
theorem reads_cons (u : CodeUnit) (us : List CodeUnit) : reads (u :: us) = .pass u :: reads us := rfl

@[simp]
theorem reads_append (us vs : List CodeUnit) : reads (us ++ vs) = reads us ++ reads vs := List.map_append

end

/-! ## What events leave behind -/

/-- The fragments written. -/
def written (es : List Event) : List Fragment := es.filterMap fun
  | .write f => some f
  | _ => none

/-- The mode after events. -/
def modeAfter : Bool → List Event → Bool
  | b, [] => b
  | _, .mode b :: es => modeAfter b es
  | b, _ :: es => modeAfter b es

/-- The units passed, each with the mode it is passed in. -/
def passed : Bool → List Event → List Mark
  | _, [] => []
  | b, .pass u :: es => (u, b) :: passed b es
  | _, .mode b :: es => passed b es
  | b, _ :: es => passed b es

/-- The units passed, whatever the mode. -/
def taken (es : List Event) : List CodeUnit := es.filterMap fun
  | .pass u => some u
  | _ => none

/-- The causes warned about. -/
def warned (es : List Event) : List Reason := es.filterMap fun
  | .warns r => some r
  | _ => none

theorem taken_append (es fs : List Event) : taken (es ++ fs) = taken es ++ taken fs := List.filterMap_append

theorem warned_append (es fs : List Event) : warned (es ++ fs) = warned es ++ warned fs := List.filterMap_append

@[simp]
theorem taken_reads (us : List CodeUnit) : taken (reads us) = us := by
  induction us with
  | nil => rfl
  | cons u us ih => exact congrArg (u :: ·) ih

@[simp]
theorem warned_reads (us : List CodeUnit) : warned (reads us) = [] := by
  induction us with
  | nil => rfl
  | cons u us ih => exact ih

theorem map_passed (b : Bool) (es : List Event) : (passed b es).map (·.1) = taken es := by
  induction es generalizing b with
  | nil => rfl
  | cons e es ih =>
    cases e with
    | pass u => exact congrArg (u :: ·) (ih b)
    | mode b' => exact ih b'
    | write _ | opens | closes _ | warns _ => exact ih b

@[simp]
theorem modeAfter_append (b : Bool) (es fs : List Event) :
    modeAfter b (es ++ fs) = modeAfter (modeAfter b es) fs := by
  induction es generalizing b with
  | nil => rfl
  | cons e es ih => cases e <;> exact ih _

@[simp]
theorem passed_append (b : Bool) (es fs : List Event) :
    passed b (es ++ fs) = passed b es ++ passed (modeAfter b es) fs := by
  induction es generalizing b with
  | nil => rfl
  | cons e es ih => cases e <;> simp [passed, modeAfter, ih]

@[simp]
theorem written_append (es fs : List Event) : written (es ++ fs) = written es ++ written fs := List.filterMap_append

@[simp]
theorem modeAfter_reads (b : Bool) (us : List CodeUnit) : modeAfter b (reads us) = b := by
  induction us with
  | nil => rfl
  | cons u us ih => exact ih

@[simp]
theorem passed_reads (b : Bool) (us : List CodeUnit) : passed b (reads us) = us.map (·, b) := by
  induction us with
  | nil => rfl
  | cons u us ih => simp [passed, ih]

@[simp]
theorem written_reads (us : List CodeUnit) : written (reads us) = [] := by
  induction us with
  | nil => rfl
  | cons u us ih => exact ih

/-- The groups behind events. -/
def groupsAfter : Groups → List Event → Groups
  | G, [] => G
  | G, .opens :: es => groupsAfter G.open es
  | G, .closes number :: es => groupsAfter (G.close number) es
  | G, _ :: es => groupsAfter G es

@[simp]
theorem groupsAfter_append (G : Groups) (es fs : List Event) :
    groupsAfter G (es ++ fs) = groupsAfter (groupsAfter G es) fs := by
  induction es generalizing G with
  | nil => rfl
  | cons e es ih => cases e <;> exact ih _

@[simp]
theorem groupsAfter_reads (G : Groups) (us : List CodeUnit) : groupsAfter G (reads us) = G := by
  induction us with
  | nil => rfl
  | cons u us ih => exact ih

@[simp]
theorem modeAfter_copies (b : Bool) (c : Char) : modeAfter b (copies c) = b := rfl

@[simp]
theorem passed_copies (b : Bool) (c : Char) : passed b (copies c) = [(CodeUnit.ofBasic c, b)] := rfl

@[simp]
theorem taken_copies (c : Char) : taken (copies c) = [CodeUnit.ofBasic c] := rfl

@[simp]
theorem written_copies (c : Char) : written (copies c) = [.verbatim [c]] := rfl

@[simp]
theorem groupsAfter_copies (G : Groups) (c : Char) : groupsAfter G (copies c) = G := rfl

/-- The groups that a scan has opened and closed. -/
def ScanState.groups (s : ScanState) : Groups := ⟨s.opened, s.closed⟩

section

variable {s s' : ScanState} {es : List Event}

theorem follows_options (h : Follows es s s') : s'.options = s.options := by
  induction es generalizing s with
  | nil => rw [h]
  | cons e es ih =>
    have hrest := ih h.tail
    cases e <;> exact hrest

theorem follows_output (h : Follows es s s') : s'.output.toList = s.output.toList ++ written es := by
  induction es generalizing s with
  | nil =>
    rw [h]
    exact (List.append_nil _).symm
  | cons e es ih =>
    have hrest := ih h.tail
    cases e with
    | write f =>
      rw [hrest]
      simp [Event.apply, ScanState.write, written]
    | pass _ | mode _ | opens | closes _ | warns _ => exact hrest

theorem follows_warnings (h : Follows es s s') :
    s'.warnings.toList.map Diagnostic.reason = s.warnings.toList.map Diagnostic.reason ++ warned es := by
  induction es generalizing s with
  | nil =>
    rw [h]
    exact (List.append_nil _).symm
  | cons e es ih =>
    have hrest := ih h.tail
    cases e with
    | warns r =>
      rw [hrest]
      simp [Event.apply, ScanState.warn, ScanState.diagnostic, warned]
    | pass _ | mode _ | write _ | opens | closes _ => exact hrest

theorem follows_inClass (h : Follows es s s') : s'.cursor.inClass = modeAfter s.cursor.inClass es := by
  induction es generalizing s with
  | nil => rw [h]; rfl
  | cons e es ih =>
    have hrest := ih h.tail
    cases e <;> exact hrest

theorem follows_groups (h : Follows es s s') : s'.groups = groupsAfter s.groups es := by
  induction es generalizing s with
  | nil => rw [h]; rfl
  | cons e es ih =>
    have hrest := ih h.tail
    cases e <;> exact hrest

/-- The first unit passed is the current one. -/
theorem follows_head (h : Follows es s s') (b : Bool) : ∀ m ∈ (passed b es).head?, s.cursor.current = some m.1 := by
  induction es generalizing s b with
  | nil => exact nofun
  | cons e es ih =>
    cases e with
    | pass u =>
      rintro m ⟨⟩
      exact h.1
    | mode b' => exact ih h.tail b'
    | write _ | opens | closes _ | warns _ => exact ih h.tail b

theorem ScanState.remaining_advance {u : CodeUnit} (h : s.cursor.current = some u) :
    s.advance.cursor.remaining < s.cursor.remaining :=
  Cursor.remaining_advance (Cursor.atEnd_of_current h)

/-- Every unit passed brings the end nearer. -/
theorem follows_remaining (h : Follows es s s') (b : Bool) :
    s'.cursor.remaining + (passed b es).length ≤ s.cursor.remaining := by
  induction es generalizing s b with
  | nil => rw [h]; exact Nat.le_refl _
  | cons e es ih =>
    cases e with
    | pass u =>
      have h₁ := ih (s := s.advance) h.2 b
      have h₂ := ScanState.remaining_advance h.1
      simp only [passed, List.length_cons]
      omega
    | mode b' => exact ih h.tail b'
    | write _ | opens | closes _ | warns _ => exact ih h.tail b

theorem follows_remaining_le (h : Follows es s s') : s'.cursor.remaining ≤ s.cursor.remaining := by
  have := follows_remaining h false
  omega

end

end XmlPattern
