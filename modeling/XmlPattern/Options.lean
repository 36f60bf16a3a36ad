import XmlPattern.Diagnostic

/-!
# Grammar variants and options

A pattern is written against one of four grammars: XML Schema 1.0 or 1.1, XPath 2.0 or 3.0. `Variant` tells them
apart and says what each allows. `Options` are chosen before a conversion and stay fixed during it; XPath chooses
them by a string of flags (`Options.ofFlags`).

- `ofFlags_nil`: no flags leave the default options.
-/

namespace XmlPattern

/-- The grammar a pattern is written against. -/
inductive Variant where
  | xsd10 | xsd11 | xpath20 | xpath30
  deriving DecidableEq, Repr, Inhabited

namespace Variant

/-- The XPath grammars have anchors and back-references. -/
def isXPath : Variant → Bool
  | xpath20 | xpath30 => true
  | xsd10 | xsd11 => false

/-- XPath 3.0 alone has groups that do not capture, and quoted patterns. -/
def isXPath30 (v : Variant) : Bool := v == xpath30

/-- A quantifier may be followed by `?`, which makes it lazy. -/
def allowsLazy (v : Variant) : Bool := v.isXPath

/-- An unknown block name is only warned about, and block names match loosely. -/
def isLenient : Variant → Bool
  | xsd11 | xpath30 => true
  | xsd10 | xpath20 => false

/-- A schema pattern describes whole values, so that it matches the whole text or not at all. -/
def isAnchored (v : Variant) : Bool := !v.isXPath

end Variant

/-- What is chosen before a conversion. -/
structure Options where
  variant : Variant := .xsd10
  /-- Blanks outside classes do not count. -/
  foldBlanks : Bool := false
  /-- Case does not count. -/
  caseBlind : Bool := false
  /-- Classes are always written out, never as a complement. -/
  expandComplements : Bool := false
  /-- The dot stands for line ends too. -/
  dotAll : Bool := false
  /-- The anchors also match at line ends within the text. -/
  multiLine : Bool := false
  /-- The pattern is quoted text and has no operators. -/
  literal : Bool := false
  /-- How deep groups may nest. -/
  maxDepth : Nat := 256
  deriving DecidableEq, Repr, Inhabited

namespace Options

/-- The default options of a variant. -/
def ofVariant (v : Variant) : Options where
  variant := v

/-- The same options with another limit of nesting. -/
abbrev withMaxDepth (o : Options) (limit : Nat) : Options := { o with maxDepth := limit }

/-- Takes one flag into account, if the variant has it. -/
def withFlag? (o : Options) : Char → Option Options
  | 's' => some { o with dotAll := true }
  | 'm' => some { o with multiLine := true }
  | 'i' => some { o with caseBlind := true }
  | 'x' => some { o with foldBlanks := true }
  | 'q' => if o.variant.isXPath30 then some { o with literal := true } else none
  | _ => none

/-- Takes flags into account in order, up to the first that the variant does not have. -/
def withFlags (o : Options) : List Char → Except Char Options
  | [] => .ok o
  | flag :: rest =>
    match o.withFlag? flag with
    | some o => o.withFlags rest
    | none => .error flag

/-- The options that a string of XPath flags chooses. -/
def ofFlags (v : Variant) (flags : String) : Except Failure Options :=
  match (ofVariant v).withFlags flags.toList with
  | .ok o => .ok o
  | .error flag => .error (.unknownFlag flag flags)

theorem ofFlags_nil (v : Variant) : ofFlags v "" = .ok (ofVariant v) := rfl

end Options

end XmlPattern
