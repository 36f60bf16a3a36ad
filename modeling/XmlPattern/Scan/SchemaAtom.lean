import XmlPattern.Scan.ClassExpr

/-!
# Atoms of schema patterns

The atoms of XML Schema and XPath patterns are groups, escapes, class expressions, the dot and plain characters;
XPath adds anchors and back-references. An atom is one fragment, or a group around fragments, whatever it was
written as.
-/

namespace XmlPattern.Scan

open Unicode

/-- The characters that no atom starts with. -/
def isSchemaOperator (c : Char) : Bool := c ∈ ['?', '*', '+', ')', '\x7b', '\x7d', '|', ']']

/-- The characters that the dot stands for: all, or all but the line ends. -/
def dotChars (dotAll : Bool) : CharSet := if dotAll then .full else .full \ CharSet.ofList ['\n', '\r']

/-- The fragment that matches a character in any case. -/
def foldedFragment (expand : Bool) (c : Char) : Fragment :=
  let group := foldClosure (.single c)
  if group.single?.isSome then .literal c else .charClass group expand

/-- The fragment that matches what a member stands for. -/
def memberFragment (o : Options) : Member → Fragment
  | .char c => if o.caseBlind then foldedFragment o.expandComplements c else .literal c
  | .set s => .charClass s o.expandComplements

/-- The inside of a group and the parenthesis behind it. -/
def groupBody (nested close : Scan Unit) : Scan Unit := do
  nested
  expect ')'
  close
  copy

/-- A group that captures what it matches. -/
def capturingGroup (nested : Scan Unit) : Scan Unit := do
  let number ← openGroup
  writeText "("
  groupBody nested (closeGroup number)

/-- A group, from its opening parenthesis on; some variants have groups that do not capture. -/
def group (v : Variant) (nested : Scan Unit) : Scan Unit := do
  advance
  if v.isXPath30 && (← isAt '?') then
    advance
    expect ':'
    advance
    writeText "(?:"
    groupBody nested (pure ())
  else capturingGroup nested

/-- The number of a back-reference: a further digit counts if that many groups have been opened. -/
def referenceNumber : (fuel : Nat) → (number : Nat) → Scan Nat
  | 0, number => return number
  | n + 1, number => do
    advance
    match ← ascii with
    | some c =>
      let extended := number * 10 + (c.toNat - '0'.toNat)
      if c.isDigit && extended ≤ (← opened) then referenceNumber n extended else return number
    | none => return number

/-- A back-reference, from its first digit on; the group must be closed. -/
def backReference (o : Options) (fuel : Nat) (first : Char) : Scan Unit := do
  let number ← referenceNumber fuel (first.toNat - '0'.toNat)
  unless ← isClosed number do
    let opened ← opened
    fail (.invalidReference number (if opened < number then .noSuchGroup else .groupNotClosed))
  write (.reference number o.caseBlind)

/-- What follows a backslash: in XPath a back-reference, else an escape. -/
def schemaEscape (o : Options) (fuel : Nat) : Scan Unit := do
  advance
  match ← ascii with
  | some c =>
    if o.variant.isXPath && c.isDigit && c != '0' then backReference o fuel c
    else write (memberFragment o (← escape o fuel))
  | none => write (memberFragment o (← escape o fuel))

/-- A character that stands for itself. -/
def plainCharacter (o : Options) : Scan Unit := do
  let c ← character
  advance
  write (memberFragment o (.char c))

/-- An atom of a schema pattern, if one starts here. -/
def schemaAtom (o : Options) (fuel : Nat) (nested : Scan Unit) : Scan Bool := do
  match ← current with
  | none => return false
  | some u =>
    match u.toAscii? with
    | some '(' => group o.variant nested
    | some '\\' => schemaEscape o fuel
    | some '[' => write (memberFragment o (.set (← classExpr o (fuel + 1))))
    | some '.' =>
      advance
      write (memberFragment o (.set (dotChars o.dotAll)))
    | some c =>
      if isSchemaOperator c then return false
      if o.variant.isXPath && (c == '^' || c == '$') then copy else plainCharacter o
    | none => plainCharacter o
    return true

end XmlPattern.Scan
