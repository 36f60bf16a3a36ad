import XmlPattern.Scan.SchemaAtom

/-!
# Atoms of native patterns

A pattern that is already native is read only as far as its structure goes, and copied as it stands: groups of every
kind, bracket classes within one another, escapes with their digits, and characters.
-/

namespace XmlPattern.Scan

/-- The characters that no native atom starts with. -/
def isNativeOperator (c : Char) : Bool := c ∈ ['?', '*', '+', ')', '\x7b', '\x7d', '|']

/-- Writes the character at the cursor as it stands and moves on behind it. -/
def copyCharacter : Scan Unit := do
  let c ← character
  write (.verbatim [c])
  advance

/-- Digits, as many as there are. -/
def copyDigits : (fuel : Nat) → Scan Unit
  | 0 => return
  | n + 1 => do
    match ← ascii with
    | some c =>
      if c.isDigit then
        copy
        copyDigits n
    | none => return

/-- Characters up to and with the closing brace. -/
def copyBraced : (fuel : Nat) → Scan Unit
  | 0 => fail (.expected '\x7d')
  | n + 1 => do
    match ← current with
    | none => fail (.expected '\x7d')
    | some u =>
      if u == CodeUnit.ofBasic '\x7d' then copy
      else
        copyCharacter
        copyBraced n

/-- A fixed number of characters. -/
def copyCharacters : (count : Nat) → Scan Unit
  | 0 => return
  | n + 1 => do
    if (← current).isNone then fail .invalidEscape
    copyCharacter
    copyCharacters n

/-- How many characters an escape has behind its letter when these are not in braces. -/
def escapeWidth? : Char → Option Nat
  | 'x' => some 2
  | 'u' => some 4
  | 'U' => some 8
  | 'p' | 'P' => some 1
  | _ => none

/-- What an escape has behind its letter. -/
def copyOperand (fuel : Nat) (letter : Char) : Scan Unit :=
  match escapeWidth? letter with
  | some width => do if ← isAt '\x7b' then copyBraced fuel else copyCharacters width
  | none => if letter.isDigit && letter != '0' then copyDigits fuel else return

/-- An escape, from its backslash on. -/
def copyEscape (fuel : Nat) : Scan Unit := do
  copy
  if (← current).isNone then fail .invalidEscape
  let letter ← ascii
  copyCharacter
  match letter with
  | some letter => copyOperand fuel letter
  | none => return

/-- The rest of a class in which so many brackets are open beside its own. -/
def copyClassRest (outer : Bool) : (fuel inner : Nat) → Scan Unit
  | 0, _ => fail (.expected ']')
  | n + 1, inner => do
    match ← current with
    | none => fail (.expected ']')
    | some u =>
      match u.toAscii?, inner with
      | some '\\', _ =>
        copyEscape n
        copyClassRest outer n inner
      | some '[', _ =>
        copy
        copyClassRest outer n (inner + 1)
      | some ']', 0 =>
        setInClass outer
        copy
      | some ']', inner + 1 =>
        copy
        copyClassRest outer n inner
      | _, _ =>
        copyCharacter
        copyClassRest outer n inner

/-- A bracket class; a closing bracket in front is a member. -/
def copyClass (fuel : Nat) : Scan Unit := do
  let outer ← inClass
  setInClass true
  copy
  if ← isAt '^' then copy
  if ← isAt ']' then copy
  copyClassRest outer fuel 0

/-- What stands between `(?` and the inside of a group; false if the group has no inside. -/
def copyGroupHead : (fuel : Nat) → Scan Bool
  | 0 => fail (.expected ')')
  | n + 1 => do
    match ← current with
    | none => fail (.expected ')')
    | some u =>
      match u.toAscii? with
      | some ')' =>
        copy
        return false
      | some ':' | some '=' | some '!' | some '>' =>
        copy
        return true
      | some '<' =>
        let behind ← next
        if behind == some (CodeUnit.ofBasic '=') || behind == some (CodeUnit.ofBasic '!') then
          copy
          copy
          return true
        else
          copyCharacter
          copyGroupHead n
      | _ =>
        copyCharacter
        copyGroupHead n

/-- A group of any kind, from its opening parenthesis on. -/
def copyGroup (fuel : Nat) (nested : Scan Unit) : Scan Unit := do
  copy
  if ← isAt '?' then
    copy
    if ← copyGroupHead fuel then groupBody nested (pure ())
  else
    let number ← openGroup
    groupBody nested (closeGroup number)

/-- An atom of a native pattern, if one starts here. -/
def nativeAtom (fuel : Nat) (nested : Scan Unit) : Scan Bool := do
  match ← current with
  | none => return false
  | some u =>
    match u.toAscii? with
    | some '(' => copyGroup fuel nested
    | some '[' => copyClass fuel
    | some '\\' => copyEscape fuel
    | some c =>
      if isNativeOperator c then return false
      if c == '.' || c == '^' || c == '$' then copy else copyCharacter
    | none => copyCharacter
    return true

end XmlPattern.Scan
