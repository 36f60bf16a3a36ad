import XmlPattern.Scan
import XmlPattern.Unicode.CaseFolding
import XmlPattern.Xml.Block
import XmlPattern.Xml.Escape

/-!
# Reading escapes

An escape stands for a character or for a set; either is a `Member` of a class. Where case does not count, a set is
closed under case folding before it is complemented.

- `mem_resolve`: what a set stands for once case and complement are taken into account.
-/

namespace XmlPattern

open Unicode

/-- What an escape, or an item of a class, stands for. -/
inductive Member where
  | char (c : Char)
  | set (s : CharSet)

/-- The characters that a member stands for. -/
def Member.chars : Member → CharSet
  | char c => .single c
  | set s => s

/-- A set, closed under case folding if case does not count, and then complemented if it is negated. -/
def resolve (caseBlind negated : Bool) (s : CharSet) : CharSet :=
  let folded := if caseBlind then foldClosure s else s
  if negated then folded.compl else folded

theorem mem_resolve {caseBlind negated : Bool} {s : CharSet}
    (h : negated = true → (if caseBlind then foldClosure s else s).Separated) {c : Char} :
    c ∈ resolve caseBlind negated s ↔ ((c ∈ if caseBlind then foldClosure s else s) ↔ negated = false) := by
  cases negated with
  | false => simp [resolve]
  | true => simp [resolve, CharSet.mem_compl (h rfl)]

namespace Scan

/-- The units up to the closing brace. -/
def braced : Nat → Scan (List CodeUnit)
  | 0 => fail (.expected '\x7d')
  | n + 1 => do
    match ← current with
    | none => fail (.expected '\x7d')
    | some u =>
      if u == CodeUnit.ofBasic '\x7d' then return []
      advance
      return u :: (← braced n)

/-- The characters of a block; some variants take an unknown name to stand for all characters. -/
def blockChars (v : Variant) (name : List Char) : Scan CharSet :=
  match Block.charsNamed? v.isLenient name with
  | some s => return s
  | none => do
    unless v.isLenient do fail (.unknownBlock name)
    warn (.toleratedBlock name)
    return .full

/-- The characters that a name in braces stands for: those of a block after `Is`, else of a category. -/
def namedChars (v : Variant) : List Char → Scan CharSet
  | 'I' :: 's' :: name => blockChars v name
  | code =>
    match Category.charsOfCode? code with
    | some s => return s
    | none => fail (.unknownCategory code)

/-- A category or block escape, from its letter to behind the closing brace. -/
def propertyEscape (o : Options) (fuel : Nat) (negated : Bool) : Scan Member := do
  advance
  expect '\x7b'
  advance
  let name ← braced fuel
  let s ← namedChars o.variant (CodeUnit.decodeLossy name)
  advance
  return .set (resolve o.caseBlind negated s)

/-- An escape, from the character behind the backslash on. -/
def escape (o : Options) (fuel : Nat) : Scan Member := do
  match ← ascii with
  | none => fail .invalidEscape
  | some 'p' => propertyEscape o fuel false
  | some 'P' => propertyEscape o fuel true
  | some letter =>
    match Escape.character? o.variant letter, Escape.ofLetter? letter.toLower with
    | some c, _ =>
      advance
      return .char c
    | none, some s =>
      advance
      return .set (resolve o.caseBlind letter.isUpper s)
    | none, none => fail (.unknownEscape letter)

end Scan

end XmlPattern
