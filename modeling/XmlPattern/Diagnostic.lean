import XmlPattern.Text.CodeUnit
import XmlPattern.Text.Numeral

/-!
# Diagnostics

What can be wrong with a pattern is a `Reason`; a `Diagnostic` adds the place and the pattern. A `Failure` is what a
call ends with: a faulty pattern, faulty flags, or a fault of the native engine. The wording of each cause stands in
one function, `Reason.message` or `Failure.message`.

- `Reason.message_expected`: the wording of the commonest cause.
-/

namespace XmlPattern

/-- Why a number names no group that can be referred back to. -/
inductive ReferenceFault where
  /-- Fewer groups have been opened. -/
  | noSuchGroup
  /-- The group is still open. -/
  | groupNotClosed
  deriving DecidableEq, Repr

/-- What is wrong with a pattern, or may be. -/
inductive Reason where
  /-- Another character was due here. -/
  | expected (c : Char)
  /-- The pattern should have ended here. -/
  | expectedEnd
  /-- Groups nest deeper than the options allow. -/
  | nestingTooDeep
  /-- Half of a surrogate pair stands alone. -/
  | invalidSurrogatePair
  /-- A bound of a quantifier has no digits here. -/
  | expectedDigit
  /-- The upper bound of a quantifier is smaller than the lower one. -/
  | invalidQuantity
  /-- A back-reference names no closed group. -/
  | invalidReference (number : Nat) (fault : ReferenceFault)
  /-- A backslash is followed by nothing or by a character beyond ASCII. -/
  | invalidEscape
  /-- A backslash is followed by a letter that means nothing. -/
  | unknownEscape (letter : Char)
  /-- No category has this code. -/
  | unknownCategory (code : List Char)
  /-- No block has this name. -/
  | unknownBlock (name : List Char)
  /-- No block has this name, and the name is taken to stand for all characters. -/
  | toleratedBlock (name : List Char)
  /-- A class has no members. -/
  | emptyClass
  /-- A hyphen stands where it is neither a member nor an operator. -/
  | misplacedHyphen
  /-- An opening bracket stands inside a class. -/
  | unescapedBracket
  /-- One end of a range is a class. -/
  | rangeOfClasses
  /-- A range ends before it starts. -/
  | reversedRange
  /-- A cause that a caller puts in its own words. -/
  | other (message : String)
  deriving DecidableEq, Repr

/-- A wording with an argument added in parentheses. -/
def withArgument (key : String) (argument : List Char) : String :=
  key ++ " (" ++ String.ofList argument ++ ")"

namespace ReferenceFault

/-- The wording of the fault. -/
def message : ReferenceFault → String
  | noSuchGroup => "no such group"
  | groupNotClosed => "group not yet closed"

end ReferenceFault

namespace Reason

/-- The wording of the cause. -/
def message : Reason → String
  | expected c => withArgument "expected" [c]
  | expectedEnd => "expected end of string"
  | nestingTooDeep => "nesting too deep"
  | invalidSurrogatePair => "invalid surrogate pair"
  | expectedDigit => "expected digit in quantifier"
  | invalidQuantity => "invalid range in quantifier"
  | invalidReference number fault =>
    withArgument "invalid backreference" ('\\' :: Numeral.decimal number ++ ':' :: ' ' :: fault.message.toList)
  | invalidEscape => "invalid escape sequence"
  | unknownEscape letter => withArgument "invalid escape sequence" ['\\', letter]
  | unknownCategory code => withArgument "unknown category" code
  | unknownBlock name => withArgument "unknown block name" name
  | toleratedBlock name => withArgument "unknown block name" name ++ "; treated as matching any character"
  | emptyClass => "empty character class"
  | misplacedHyphen => "'-' not allowed here"
  | unescapedBracket => "'[' must be escaped"
  | rangeOfClasses => "the ends of a range must be single characters"
  | reversedRange => "invalid range (start > end)"
  | other message => message

theorem message_expected (c : Char) : (expected c).message = "expected (" ++ String.ofList [c] ++ ")" := rfl

end Reason

/-- A cause, the unit it was found at, counted from zero, and the pattern. -/
structure Diagnostic where
  reason : Reason
  position : Nat
  expression : String
  deriving DecidableEq, Repr

namespace Diagnostic

/-- The wording of the cause. -/
def message (d : Diagnostic) : String := d.reason.message

/-- The diagnostic in full. -/
def text (d : Diagnostic) : String :=
  "at character " ++ String.ofList (Numeral.decimal d.position) ++ " in regular expression \"" ++ d.expression ++
    "\": " ++ d.message

end Diagnostic

/-- Why the native engine does not take a pattern. -/
inductive EngineFault where
  /-- The pattern is written for an engine that matches code units. -/
  | codeUnitPattern
  /-- The engine does not accept the pattern; how it says so is its own affair. -/
  | rejected
  /-- A fault that a caller puts in its own words. -/
  | other (message : String)
  deriving DecidableEq, Repr

/-- How a call can fail. -/
inductive Failure where
  | pattern (diagnostic : Diagnostic)
  | unknownFlag (flag : Char) (flags : String)
  | flags (message : String)
  | engine (fault : EngineFault)
  deriving DecidableEq, Repr

namespace EngineFault

/-- The wording of the fault. -/
def message : EngineFault → String
  | codeUnitPattern => "Utf16 output cannot be compiled by fancy-regex"
  | rejected => "pattern rejected"
  | other message => message

end EngineFault

namespace Failure

/-- The diagnostic of a faulty pattern. -/
def diagnostic? : Failure → Option Diagnostic
  | pattern d => some d
  | _ => none

/-- The failure in full. -/
def message : Failure → String
  | pattern d => "Error " ++ d.text
  | unknownFlag flag all =>
    "invalid regex flags: invalid flag '" ++ String.ofList [flag] ++ "' in \"" ++ all ++ "\""
  | flags message => "invalid regex flags: " ++ message
  | engine fault => "native regex error: " ++ fault.message

end Failure

end XmlPattern
