import XmlPattern.Scan.Escape

/-!
# Reading class expressions

A class expression lists characters, ranges and escapes between brackets. A caret in front complements the list, and
a hyphen behind it subtracts another class expression. Elsewhere a hyphen is a member of its own, but only as the
first or the last one, or the operator of a range.
-/

namespace XmlPattern.Scan

/-- An item of a class that is not a hyphen of its own. -/
def member (o : Options) (fuel : Nat) : Scan Member := do
  match ← ascii with
  | some '\\' =>
    advance
    escape o fuel
  | some '[' => fail .unescapedBracket
  | some '-' => fail .misplacedHyphen
  | _ =>
    let c ← character
    advance
    return .char c

/-- What the items of a class add, up to the closing bracket or the hyphen of a subtraction. -/
def members (o : Options) : (fuel : Nat) → (first : Bool) → CharSet → Scan CharSet
  | 0, _, _ => fail (.expected ']')
  | n + 1, first, s => do
    match ← current with
    | none => fail (.expected ']')
    | some u =>
      if u == CodeUnit.ofBasic ']' then return s
      if u == CodeUnit.ofBasic '-' then
        let behind ← next
        if !first && behind == some (CodeUnit.ofBasic '[') then return s
        if !first && behind != some (CodeUnit.ofBasic ']') then fail .misplacedHyphen
        advance
        members o n false (s ∪ .single '-')
      else
        let lower ← member o n
        unless ← isAt '-' do return ← members o n false (s ∪ lower.chars)
        if (← next) == some (CodeUnit.ofBasic '[') then return s ∪ lower.chars
        advance
        if ← isAt ']' then return s ∪ lower.chars ∪ .single '-'
        let upper ← member o n
        match lower, upper with
        | .char lo, .char hi =>
          if hi < lo then fail .reversedRange
          members o n false (s ∪ .span lo.toNat hi.toNat)
        | _, _ => fail .rangeOfClasses

/-- What a set keeps when another is subtracted, from the hyphen to the closing bracket. -/
def subtraction (subtrahend : Scan CharSet) (s : CharSet) : Scan CharSet := do
  advance
  let taken ← subtrahend
  expect ']'
  return s \ taken

/-- A class expression, from its opening bracket to behind its closing one. -/
def classExpr (o : Options) : (fuel : Nat) → Scan CharSet
  | 0 => fail (.expected ']')
  | n + 1 => do
    let outer ← inClass
    setInClass true
    advance
    let negated ← isAt '^'
    if negated then advance
    if ← isAt ']' then fail .emptyClass
    let listed := resolve o.caseBlind negated (← members o n true ∅)
    let chars ← if ← isAt '-' then subtraction (classExpr o n) listed else pure listed
    setInClass outer
    advance
    return chars

end XmlPattern.Scan
