import XmlPattern.CharSet.Basic
import XmlPattern.Dialect.Literal
import XmlPattern.Text.SurrogateCover

/-!
# Character classes in the native dialects

A set of characters is written as one atom. The scalar dialect lists its ranges in brackets, or the ranges of its
complement if these are fewer. The UTF-16 dialect lists the characters below U+10000 in brackets and every other
range as pairs of units.

- `forall_unitAlternatives`: what the alternatives of the UTF-16 dialect are.
-/

namespace XmlPattern

/-- A letter or digit of ASCII, which stands for itself in brackets. -/
def isAsciiAlphanumeric (n : Nat) : Bool :=
  0x30 ≤ n && n ≤ 0x39 || 0x41 ≤ n && n ≤ 0x5A || 0x61 ≤ n && n ≤ 0x7A

/-- An inclusive range in brackets, given how its ends are written. -/
def bracketRange (member : Nat → List Char) (first last : Nat) : List Char :=
  member first ++ if first < last then '-' :: member last else []

/-! ## The scalar dialect -/

/-- A code point in brackets. -/
def scalarMember (value : Nat) : List Char :=
  if isAsciiAlphanumeric value then [Char.ofNat value] else scalarHex value

/-- Ranges in brackets. -/
def scalarRanges (ranges : List Range) : List Char :=
  ranges.flatMap fun r => bracketRange scalarMember r.min r.max

/-- The class that nothing matches. -/
def scalarNothing : List Char := "[^\\x\x7b0\x7d-\\x\x7b10FFFF\x7d]".toList

/-- A set as a bracket class; a shorter complement is preferred unless `expand` is set. -/
def scalarClass (expand : Bool) (s : CharSet) : List Char :=
  if s.isEmpty then scalarNothing
  else
    let others := s.compl.ranges
    if !expand && !others.isEmpty && others.length < s.ranges.length then ['[', '^'] ++ scalarRanges others ++ [']']
    else ['['] ++ scalarRanges s.ranges ++ [']']

/-! ## The UTF-16 dialect -/

/-- A unit in brackets. -/
def unitMember (unit : Nat) : List Char := if isAsciiAlphanumeric unit then [Char.ofNat unit] else unitHex unit

/-- A range of units in brackets. -/
def unitRange (first last : CodeUnit) : List Char := bracketRange unitMember first.toNat last.toNat

/-- The parts of ranges below U+10000 and from there on. -/
def splitAtBasic (ranges : List Range) : List Range × List Range :=
  (ranges.filterMap fun r => if r.min < 0x10000 then some ⟨r.min, Nat.min r.max 0xFFFF⟩ else none,
    ranges.filterMap fun r => if 0x10000 ≤ r.max then some ⟨Nat.max r.min 0x10000, r.max⟩ else none)

/-- The class of units that nothing matches. -/
def unitNothing : List Char := "[^\\u0000-\\uFFFF]".toList

/-- Any low surrogate. -/
def anyLow : List Char := "[\\uDC00-\\uDFFF]".toList

/-- One first unit and the second units that may follow it. -/
def lowRunText (run : LowRun) : List Char :=
  unitHex run.high.toNat ++
    if run.min = run.max then unitHex run.min.toNat else ['['] ++ unitRange run.min run.max ++ [']']

/-- The alternatives that together match the ranges: single units, full first units, partly full first units. -/
def unitAlternatives (basic supplementary : List Range) : List (List Char) :=
  let highs := highRuns supplementary
  (if basic.isEmpty then []
    else [['['] ++ basic.flatMap (fun r => bracketRange unitMember r.min r.max) ++ [']']]) ++
  (if highs.isEmpty then [] else [['['] ++ highs.flatMap (fun h => unitRange h.min h.max) ++ [']'] ++ anyLow]) ++
  (lowRuns supplementary).map lowRunText

/-- A set as alternatives over units, in a group unless it is a single bracket. -/
def unitClass (s : CharSet) : List Char :=
  let (basic, supplementary) := splitAtBasic s.ranges
  match unitAlternatives basic supplementary, supplementary with
  | [], _ => unitNothing
  | [only], [] => only
  | alternatives, _ => ['(', '?', ':'] ++ List.intercalate ['|'] alternatives ++ [')']

/--
Each alternative lists single units, or first units with all second units, or is one first unit with some second ones.
-/
theorem forall_unitAlternatives {P : List Char → Prop} {basic supplementary : List Range}
    (hbasic : basic ≠ [] → P (['['] ++ basic.flatMap (fun r => bracketRange unitMember r.min r.max) ++ [']']))
    (hhigh : highRuns supplementary ≠ [] →
      P (['['] ++ (highRuns supplementary).flatMap (fun h => unitRange h.min h.max) ++ [']'] ++ anyLow))
    (hlow : ∀ run ∈ lowRuns supplementary, P (lowRunText run)) :
    ∀ text ∈ unitAlternatives basic supplementary, P text := by
  unfold unitAlternatives
  dsimp only
  intro text ht
  rcases List.mem_append.mp ht with ht | ht
  · rcases List.mem_append.mp ht with ht | ht
    · split at ht
      · cases ht
      · next hne =>
        rw [List.mem_singleton.mp ht]
        exact hbasic (by simpa using hne)
    · split at ht
      · cases ht
      · next hne =>
        rw [List.mem_singleton.mp ht]
        exact hhigh (by simpa using hne)
  · obtain ⟨run, hrun, rfl⟩ := List.mem_map.mp ht
    exact hlow run hrun

namespace Dialect

/-- A set of characters as one atom. -/
def charClass (expand : Bool) (s : CharSet) : Dialect → List Char
  | scalar => scalarClass expand s
  | utf16 => unitClass s

end Dialect

end XmlPattern
