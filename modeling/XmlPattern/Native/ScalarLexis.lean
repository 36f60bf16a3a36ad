import XmlPattern.Native.Reader
import XmlPattern.Native.Regex
import XmlPattern.Scan.Escape

/-!
# Native patterns over characters

The engine of the scalar dialect takes a `Regex`. Its escapes and classes stand for sets of characters. It takes no
pattern whose groups nest too deep.

What is read is the part of the engine's syntax that the scalar dialect writes and that most other patterns are made
of: characters and the dot; the anchors `^`, `$`, `\A` and `\z`; the escapes `\n`, `\r`, `\t`, `\xHH`, `\x{..}`, `\d`,
`\D`, `\s` and `\S`, and punctuation of ASCII behind a backslash; classes of characters, of such escapes and of ranges;
back-references by number; quantifiers, greedy or lazy; and the groups `(..)`, `(?:..)`, `(?i:..)`, `(?=..)`, `(?!..)`,
`(?<=..)` and `(?<!..)`.

Named groups and references by name, flags set or cleared in other ways, atomic and conditional groups, comments and the
verbose mode, possessive quantifiers, and other escapes with a letter, such as `\b`, `\w` and `\p`, are not modelled: a
text with one of them is refused. Neither are nested classes, named classes and operations on classes: inside a class,
an opening bracket, `&&`, `--` and `~~` are characters like any others. Nor are `\<` and `\>` as word boundaries: they
stand for the characters. What is proved of the patterns of all texts is proved of this syntax.

- `Regex.ofPattern?`: the pattern that a whole text stands for.
-/

namespace XmlPattern

namespace Native

open Unicode

/-- How deep groups may nest. -/
def maxDepth : Nat := 64

/-! ## Escapes -/

/-- The white space of Unicode. -/
def spaceChars : CharSet :=
  .unions ([Category.spaceSeparator, .lineSeparator, .paragraphSeparator].map Category.chars) ∪
    .ofSpans [(0x09, 0x0D), (0x85, 0x85)]

/-- The set behind a lower-case letter. -/
def setOfLetter? : Char → Option CharSet
  | 'd' => some Category.decimalNumber.chars
  | 's' => some spaceChars
  | _ => none

/-- The character of a code point. -/
def scalar? (n : Nat) : Option Char := if n.isValidChar then some (Char.ofNat n) else none

/-- The character of a hexadecimal numeral: digits in braces, or exactly two. -/
def hexChar? : List Char → Option (Char × List Char)
  | '\x7b' :: rest =>
    match rest.span (· != '\x7d') with
    | (c :: ds, '\x7d' :: rest) => do return (← (← Numeral.ofHex? (c :: ds)) |> scalar?, rest)
    | _ => none
  | a :: b :: rest => do return (← (← Numeral.ofHex? [a, b]) |> scalar?, rest)
  | _ => none

/-- Punctuation and symbols of ASCII, which an escape makes plain. -/
def isPunctuation (c : Char) : Bool := isPlainAscii c && c != ' ' && !c.isAlphanum

/-- An escape that stands for characters, in a class or outside, from behind the backslash. -/
def member? (s : Scope) : List Char → Option (Member × List Char)
  | 'n' :: rest => some (.char '\n', rest)
  | 'r' :: rest => some (.char '\r', rest)
  | 't' :: rest => some (.char '\t', rest)
  | 'x' :: rest => (hexChar? rest).map fun (c, rest) => (.char c, rest)
  | c :: rest =>
    if isPunctuation c then some (.char c, rest)
    else (setOfLetter? c.toLower).map fun set => (.set (resolve s.caseBlind c.isUpper set), rest)
  | [] => none

/-- The characters of a member. -/
def charsOf (s : Scope) (m : Member) : CharSet := resolve s.caseBlind false m.chars

/-- An escape that is no back-reference, from behind the backslash. -/
def scalarEscape? (s : Scope) : List Char → Option (Tree CharSet × List Char)
  | 'A' :: rest => some (.boundary .textStart, rest)
  | 'z' :: rest => some (.boundary .textEnd, rest)
  | rest => (member? s rest).map fun (m, rest) => (.chars (charsOf s m), rest)

/-! ## Classes -/

/-- A character or an escape in a class. -/
def classMember? (s : Scope) : List Char → Option (Member × List Char)
  | '\\' :: rest => member? s rest
  | c :: rest => some (.char c, rest)
  | [] => none

/-- A member of a class or a range of characters. -/
def classItem? (s : Scope) (cs : List Char) : Option (CharSet × List Char) :=
  match classMember? s cs with
  | some (.char lo, '-' :: ']' :: rest) => some (.single lo, '-' :: ']' :: rest)
  | some (.char lo, '-' :: rest) =>
    match classMember? s rest with
    | some (.char hi, rest) => if lo ≤ hi then some (.span lo.toNat hi.toNat, rest) else none
    | _ => none
  | some (m, rest) => some (m.chars, rest)
  | none => none

/-- The union of the items of a class and what follows its closing bracket. -/
def classItems? (s : Scope) : (fuel : Nat) → CharSet → List Char → Option (CharSet × List Char)
  | 0, _, _ => none
  | _ + 1, set, ']' :: rest => some (set, rest)
  | n + 1, set, cs => do
    let (item, rest) ← classItem? s cs
    classItems? s n (set ∪ item) rest

/-- A class, from behind its opening bracket; a closing bracket in front is a member. -/
def classChars? (s : Scope) (cs : List Char) : Option (CharSet × List Char) := do
  let (negated, cs) := match cs with
    | '^' :: cs => (true, cs)
    | cs => (false, cs)
  let (set, rest) ← match cs with
    | ']' :: cs => classItems? s (cs.length + 1) (.single ']') cs
    | cs => classItems? s (cs.length + 1) ∅ cs
  return (resolve s.caseBlind negated set, rest)

/-- How the engine of the scalar dialect reads what stands for characters. -/
def Lexis.scalar : Lexis CharSet where
  plain? s c := some (charsOf s (.char c))
  dot := .full \ .single '\n'
  escape? := scalarEscape?
  class? := classChars?

end Native

/-- The pattern that a text stands for and the number of its groups. -/
def Regex.ofPattern? (multiLine : Bool) (text : List Char) : Option (Regex × Nat) := do
  let (tree, opened) ← Native.Lexis.scalar.tree? multiLine text
  guard (tree.depth < Native.maxDepth)
  return (← ofTree? tree, opened)

end XmlPattern
