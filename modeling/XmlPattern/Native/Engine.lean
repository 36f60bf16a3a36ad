import XmlPattern.Native.Matcher
import XmlPattern.Native.ScalarLexis
import XmlPattern.Conversion

/-!
# The native engine

A `CompiledPattern` is a pattern that the engine has accepted: its text, its tree and the number of its groups.
Patterns of schemas are wrapped so that they match a whole text or nothing. The engine refuses a text that is no
pattern and a pattern whose automaton would be too large, and it takes only patterns of the scalar dialect.

- `compile_utf16`: a pattern over code units is refused as such.
-/

namespace XmlPattern

/-- A pattern that the engine has accepted. -/
structure CompiledPattern where
  /-- The text of the pattern. -/
  source : List Char
  tree : Regex
  /-- How many groups the pattern has. -/
  groupCount : Nat

/-- A match in a text: where it starts and ends, counted in bytes of UTF-8, and what it is. -/
structure Match where
  start : Nat
  stop : Nat
  text : List Char
  deriving DecidableEq, Repr

namespace CompiledPattern

/-- How many states an automaton may have. -/
def maxStates : Nat := 0x50000

/-- A pattern that matches a whole text or nothing. -/
def anchor (pattern : List Char) : List Char := ['\\', 'A', '(', '?', ':'] ++ pattern ++ [')', '\\', 'z']

/-- The pattern of a text, if the engine takes it. -/
def ofPattern (multiLine anchored : Bool) (pattern : List Char) : Except Failure CompiledPattern :=
  let source := if anchored then anchor pattern else pattern
  match Regex.ofPattern? multiLine source with
  | some (tree, groupCount) =>
    if tree.isRegular && maxStates < tree.states then .error (.engine .rejected)
    else .ok ⟨source, tree, groupCount⟩
  | none => .error (.engine .rejected)

/-- The pattern of a conversion. -/
def compile (c : Conversion) : Except Failure CompiledPattern :=
  match c.dialect with
  | .utf16 => .error (.engine .codeUnitPattern)
  | .scalar => ofPattern c.multiLine c.variant.isAnchored c.pattern

theorem compile_utf16 {c : Conversion} (h : c.dialect = .utf16) :
    compile c = .error (.engine .codeUnitPattern) := by
  rw [compile, h]

/-- A stretch of a text as a match. -/
def matchOf (text : List Char) (s : Native.Span) : Match where
  start := utf8Length (text.take s.start)
  stop := utf8Length (text.take s.stop)
  text := s.slice text

/-- The first match in a text, with its groups. -/
def found? (r : CompiledPattern) (text : List Char) : Option Native.Found := (Native.Place.start text).find? r.tree

/-- Whether the pattern matches in a text. -/
def isMatch (r : CompiledPattern) (text : List Char) : Bool := (r.found? text).isSome

/-- The first match in a text. -/
def find? (r : CompiledPattern) (text : List Char) : Option Match := (r.found? text).map (matchOf text ·.span)

/-- The first match in a text and the matches of the groups, in the order of their numbers. -/
def captures? (r : CompiledPattern) (text : List Char) : Option (List (Option Match)) :=
  (r.found? text).map fun found =>
    some (matchOf text found.span) ::
      (List.range' 1 r.groupCount).map fun number => (found.groups.lookup number).map (matchOf text)

/-- All matches in a text. -/
def findAll (r : CompiledPattern) (text : List Char) : List Match :=
  (Native.matches? r.tree (text.length + 1) none (.start text)).map (matchOf text ·.span)

end CompiledPattern

end XmlPattern
