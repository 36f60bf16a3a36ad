import XmlPattern.CharSet.Basic
import XmlPattern.CharSet.Run
import XmlPattern.Conversion
import XmlPattern.Cursor
import XmlPattern.Diagnostic
import XmlPattern.Dialect.CharClass
import XmlPattern.Dialect.Literal
import XmlPattern.Fragment
import XmlPattern.Native.Engine
import XmlPattern.Native.Matcher
import XmlPattern.Native.Reader
import XmlPattern.Native.Regex
import XmlPattern.Native.ScalarLexis
import XmlPattern.Native.Tree
import XmlPattern.Native.UnitLexis
import XmlPattern.Options
import XmlPattern.Proofs.Acceptance
import XmlPattern.Proofs.Agreement
import XmlPattern.Proofs.Anchoring
import XmlPattern.Proofs.AtomContract
import XmlPattern.Proofs.BackReferences
import XmlPattern.Proofs.Boundaries
import XmlPattern.Proofs.Bounds
import XmlPattern.Proofs.CaptureCount
import XmlPattern.Proofs.CaseClosure
import XmlPattern.Proofs.CharSet.Complement
import XmlPattern.Proofs.CharSet.Ranges
import XmlPattern.Proofs.CharSet.Seam
import XmlPattern.Proofs.ClassSets
import XmlPattern.Proofs.Composition
import XmlPattern.Proofs.CursorMoves
import XmlPattern.Proofs.DepthLimit
import XmlPattern.Proofs.Dialect.ScalarClass
import XmlPattern.Proofs.Dialect.UnitClass
import XmlPattern.Proofs.Escaping
import XmlPattern.Proofs.FixedPoint
import XmlPattern.Proofs.Folding
import XmlPattern.Proofs.Grammar.Captures
import XmlPattern.Proofs.Grammar.Concatenation
import XmlPattern.Proofs.Grammar.Denotation
import XmlPattern.Proofs.Grammar.Extension
import XmlPattern.Proofs.Grammar.Language
import XmlPattern.Proofs.Grammar.Legal
import XmlPattern.Proofs.Grammar.Openings
import XmlPattern.Proofs.Grammar.Places
import XmlPattern.Proofs.Grammar.Tree
import XmlPattern.Proofs.Grammar.Verbatim
import XmlPattern.Proofs.Native.Atoms
import XmlPattern.Proofs.Native.Blankless
import XmlPattern.Proofs.Native.Copied
import XmlPattern.Proofs.Native.Landmarks
import XmlPattern.Proofs.Native.Language
import XmlPattern.Proofs.Native.Locality
import XmlPattern.Proofs.Native.Matching
import XmlPattern.Proofs.Native.Reading
import XmlPattern.Proofs.Native.ScalarAtoms
import XmlPattern.Proofs.Native.ScalarLocality
import XmlPattern.Proofs.Native.Searching
import XmlPattern.Proofs.Native.Shape
import XmlPattern.Proofs.Native.UnitAtoms
import XmlPattern.Proofs.Native.Ways
import XmlPattern.Proofs.Native.Written
import XmlPattern.Proofs.Nesting
import XmlPattern.Proofs.Numbering
import XmlPattern.Proofs.PassThrough
import XmlPattern.Proofs.QuotedText
import XmlPattern.Proofs.Recognition
import XmlPattern.Proofs.Renderings
import XmlPattern.Proofs.ReversedRanges
import XmlPattern.Proofs.Scan.Alignment
import XmlPattern.Proofs.Scan.Atoms
import XmlPattern.Proofs.Scan.Brackets
import XmlPattern.Proofs.Scan.Broken
import XmlPattern.Proofs.Scan.Classes
import XmlPattern.Proofs.Scan.Copying
import XmlPattern.Proofs.Scan.Counting
import XmlPattern.Proofs.Scan.Course
import XmlPattern.Proofs.Scan.Depth
import XmlPattern.Proofs.Scan.Echo
import XmlPattern.Proofs.Scan.Embedding
import XmlPattern.Proofs.Scan.Ensures
import XmlPattern.Proofs.Scan.Escapes
import XmlPattern.Proofs.Scan.Event
import XmlPattern.Proofs.Scan.Failing
import XmlPattern.Proofs.Scan.Finds
import XmlPattern.Proofs.Scan.Folding
import XmlPattern.Proofs.Scan.Fuel
import XmlPattern.Proofs.Scan.Invariants
import XmlPattern.Proofs.Scan.Legible
import XmlPattern.Proofs.Scan.Leniency
import XmlPattern.Proofs.Scan.Lockstep
import XmlPattern.Proofs.Scan.Loops
import XmlPattern.Proofs.Scan.Orderly
import XmlPattern.Proofs.Scan.Parts
import XmlPattern.Proofs.Scan.Passage
import XmlPattern.Proofs.Scan.Patterns
import XmlPattern.Proofs.Scan.Quiet
import XmlPattern.Proofs.Scan.References
import XmlPattern.Proofs.Scan.Reversed
import XmlPattern.Proofs.Scan.Rewriting
import XmlPattern.Proofs.Scan.SameEnd
import XmlPattern.Proofs.Scan.Sharing
import XmlPattern.Proofs.Scan.Spelling
import XmlPattern.Proofs.Scan.Verbatim
import XmlPattern.Proofs.Scan.Warnings
import XmlPattern.Proofs.StableDiagnostics
import XmlPattern.Proofs.Structure
import XmlPattern.Proofs.Surrogates
import XmlPattern.Proofs.Text.Numeral
import XmlPattern.Proofs.Text.PairDescriptions
import XmlPattern.Proofs.Text.SurrogateCover
import XmlPattern.Proofs.Text.Unit
import XmlPattern.Proofs.Text.WellFormed
import XmlPattern.Proofs.Unicode.FoldGroups
import XmlPattern.Proofs.Unicode.NamedSets
import XmlPattern.Proofs.Variants
import XmlPattern.Proofs.Xml.BlockNames
import XmlPattern.Range
import XmlPattern.Scan
import XmlPattern.Scan.ClassExpr
import XmlPattern.Scan.Escape
import XmlPattern.Scan.Grammar
import XmlPattern.Scan.NativeAtom
import XmlPattern.Scan.Quantifier
import XmlPattern.Scan.SchemaAtom
import XmlPattern.Scan.State
import XmlPattern.Text.CodeUnit
import XmlPattern.Text.Numeral
import XmlPattern.Text.Rank
import XmlPattern.Text.SurrogateCover
import XmlPattern.Text.Utf8
import XmlPattern.Unicode.CaseFolding
import XmlPattern.Unicode.CaseFolding.Table
import XmlPattern.Unicode.Category
import XmlPattern.Unicode.Category.Letter
import XmlPattern.Unicode.Category.Mark
import XmlPattern.Unicode.Category.Number
import XmlPattern.Unicode.Category.Other
import XmlPattern.Unicode.Category.Punctuation
import XmlPattern.Unicode.Category.Symbol
import XmlPattern.Unicode.CodeTable
import XmlPattern.Xml.Block
import XmlPattern.Xml.Escape
