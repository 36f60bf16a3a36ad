import XmlPattern.Scan.Grammar

/-!
# Conversions

`convert` turns an expression into a pattern for a native engine. In literal mode the expression is text that
stands for itself; otherwise it is read by the grammar. What comes out is a list of fragments, which the dialect of
the conversion turns into text.

- `convert_literal`: literal mode writes the text it has read as literals.
-/

namespace XmlPattern

/-- A pattern for a native engine. -/
structure Conversion where
  fragments : List Fragment
  dialect : Dialect
  variant : Variant
  /-- The anchors also match at line ends within the text. -/
  multiLine : Bool
  /-- How many capturing groups the expression has. -/
  captureCount : Nat
  warnings : List Diagnostic
  deriving DecidableEq

/-- The text of the pattern. -/
def Conversion.pattern (c : Conversion) : List Char := Fragment.textOf c.dialect c.fragments

/-- The conversion of an expression that is quoted text. -/
def convertLiteral (o : Options) (d : Dialect) (units : List CodeUnit) : Except Failure Conversion :=
  match CodeUnit.decode 0 units with
  | .ok text => .ok ⟨text.map .literal, d, o.variant, o.multiLine, 0, []⟩
  | .error position =>
    .error (.pattern ⟨.invalidSurrogatePair, position, String.ofList (CodeUnit.decodeLossy units)⟩)

/-- The conversion of an expression that is a pattern. -/
def convertPattern (o : Options) (atoms : Atoms) (units : List CodeUnit) : Except Failure Conversion :=
  match (ScanState.ofUnits o units).scan (Scan.pattern o atoms) with
  | (.ok (), s) => .ok ⟨s.output.toList, atoms.dialect, o.variant, o.multiLine, s.opened, s.warnings.toList⟩
  | (.error d, _) => .error (.pattern d)

/-- The conversion of an expression. -/
def convert (o : Options) (atoms : Atoms) (units : List CodeUnit) : Except Failure Conversion :=
  if o.literal then convertLiteral o atoms.dialect units else convertPattern o atoms units

/-- The conversion of an expression that is a text. -/
def convertText (o : Options) (atoms : Atoms) (text : String) : Except Failure Conversion :=
  convert o atoms (CodeUnit.encode text.toList)

theorem convert_literal {o : Options} (h : o.literal = true) (atoms : Atoms) (text : String) :
    (convertText o atoms text).map Conversion.pattern = .ok (atoms.dialect.escape text.toList) := by
  simp only [convertText, convert, if_pos h, convertLiteral, CodeUnit.decode_encode, Except.map,
    Conversion.pattern, Fragment.textOf_literal]

end XmlPattern
