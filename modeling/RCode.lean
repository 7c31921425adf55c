import RCode.Text.CharTable
import RCode.Text.Letter
import RCode.Text.Digit
import RCode.Text.Printable
import RCode.Text.Quoted
import RCode.Double.Basic
import RCode.Double.Rounding
import RCode.Double.Shortest
import RCode.Double.Notation
import RCode.Double.Reading
import RCode.Double.Arithmetic
import RCode.Atom
import RCode.Node.Basic
import RCode.Node.Hash
import RCode.Node.Build
import RCode.Operator
import RCode.Token
import RCode.Token.Literal
import RCode.Token.Lexer
import RCode.Node.Parser
import RCode.Source
import RCode.Layout
import RCode.Node.Printer
import RCode.Builtin
import RCode.Value
import RCode.Call.Basic
import RCode.Call.Edit
import RCode.Call.Matching
import RCode.Value.Comparison
import RCode.Function
import RCode.Context
import RCode.Evaluation
import RCode.Expansion
import RCode.Node.Replacement
import RCode.Assignment
import RCode.Scope
import RCode.Deprecation
import RCode.Survey
import RCode.Workbench
import RCode.Proofs.Double.Bits
import RCode.Proofs.Token.Readable
import RCode.Proofs.Node.Derivation
import RCode.Proofs.Node.ParserDerivation
import RCode.Proofs.Node.Erasure
import RCode.Proofs.Node.Positions
import RCode.Proofs.Node.Grammar
import RCode.Proofs.Node.GrammarReading
import RCode.Proofs.Node.SpecialForm
import RCode.Proofs.Node.Writable
import RCode.Proofs.Node.Alike
import RCode.Proofs.Node.Rendering
import RCode.Proofs.Node.RenderingForms
import RCode.Proofs.Node.RenderingTrees
import RCode.Proofs.Node.ProgramReading
import RCode.Proofs.Node.Canonical
import RCode.Proofs.Node.Rereading
import RCode.Proofs.Double.Nearest
import RCode.Proofs.Double.Decimal
import RCode.Proofs.Text.Characters
import RCode.Proofs.Token.NumberText
import RCode.Proofs.Token.NumberReading
import RCode.Proofs.Token.QuotedReading
import RCode.Proofs.Token.WordReading
import RCode.Proofs.Token.LexemeReading
import RCode.Proofs.Node.Spacing
import RCode.Proofs.Node.GrammarSpacing
import RCode.Proofs.Token.WellFormed
import RCode.Proofs.Node.ParsedTrees
import RCode.Proofs.Node.RoundTrip
import RCode.Proofs.Reformatting
import RCode.Proofs.Evaluation.Isolation
import RCode.Proofs.Expansion.Quasiquotation
import RCode.Proofs.Expansion.PartialEvaluation
import RCode.Proofs.Node.Precedence
import RCode.Proofs.Scope.Globals
import RCode.Proofs.Concatenation
import RCode.Proofs.Token.Tiling
import RCode.Proofs.Node.Placement
import RCode.Proofs.LineBreaks
import RCode.Proofs.SourceErrors
import RCode.Proofs.Call.Standard
import RCode.Proofs.Call.NamedOrder
import RCode.Proofs.Node.OperatorNames
import RCode.Proofs.Expansion.Sharing
import RCode.Proofs.Expansion.Completeness
import RCode.Proofs.Value.WellFormed
import RCode.Proofs.Value.Functions
import RCode.Proofs.Evaluation.Faults
import RCode.Proofs.Expansion.Faults
import RCode.Proofs.Node.Traversal
import RCode.Proofs.Scope.Nameless
import RCode.Proofs.Analyses
import RCode.Proofs.Surveys
import RCode.Proofs.Scope.Constructs
import RCode.Proofs.Node.Arrangement
import RCode.Proofs.Node.SourceOrder
import RCode.Proofs.DeprecatedUses
import RCode.Proofs.Call.Modification
import RCode.Proofs.Evaluation.NestedBlocks
import RCode.Proofs.Node.Renaming
import RCode.Proofs.Node.Objects
import RCode.Proofs.Gaps
import RCode.Proofs.Call.Editing
import RCode.Proofs.Evaluation.ExactArithmetic
import RCode.Proofs.Value.Vectors
import RCode.Proofs.Node.Congruence
import RCode.Proofs.Node.CursorProgress
import RCode.Proofs.Token.SpellingReading
