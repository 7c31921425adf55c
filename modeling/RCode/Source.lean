import RCode.Node.Build
import RCode.Node.Parser
import RCode.Token.Lexer

/-!
# Source texts

A source is a text together with the name that error messages give it. Reading it yields a program,
the list of its top-level trees, or the first problem of the text.
-/

set_option autoImplicit false

namespace RCode

/-- A text with a name. -/
structure Source where
  text : String
  name : String := "<input>"

/-- Why a source cannot be read. -/
inductive SourceError where
  /-- The text cannot be split into tokens. -/
  | lexical (problem : LexicalProblem) (position : Position)
  /-- The tokens form no program. -/
  | malformed (problem : SyntaxProblem) (position : Position)
  /-- An argument is named by an empty text. -/
  | emptyArgumentName
  /-- The text holds some other number of expressions than one. -/
  | notOneExpression (count : Nat)

namespace SourceError

/-- A message with the place it is about. -/
def located (name : String) (p : Position) (message : String) : String :=
  name ++ ":" ++ p.text ++ ": " ++ message

/-- The message about a source with the given name. -/
def message (name : String) : SourceError → String
  | .lexical problem p => located name p problem.message
  | .malformed problem p => located name p problem.message
  | .emptyArgumentName => NodeError.message .emptyArgumentName
  | .notOneExpression count =>
    name ++ ": expected exactly one expression, found " ++ toString count

end SourceError

namespace Source

/-- A text in which every line ends with a line feed, whatever its lines ended with. -/
def withLineFeeds : List Char → List Char
  | '\r' :: '\n' :: rest => '\n' :: withLineFeeds rest
  | '\r' :: rest => '\n' :: withLineFeeds rest
  | c :: rest => c :: withLineFeeds rest
  | [] => []

/-- The content of a file as a source that is named after it. -/
def ofFile (path content : String) : Source :=
  ⟨String.ofList (withLineFeeds content.toList), path⟩

/-- The tokens of the source. -/
def tokens (s : Source) : Except SourceError TokenText :=
  (TokenText.ofText s.text).mapError fun (problem, p) => .lexical problem p

/-- A parse fault at its place in a text that ends at `stop`. -/
def faultError (stop : Position) : ParseFault → SourceError
  | .malformed problem place => .malformed problem (place.getD stop)
  | .emptyArgumentName => .emptyArgumentName

/-- The top-level trees of a list of tokens. -/
def programOf (t : TokenText) : Except SourceError (List Node) :=
  (Parser.program t.tokens).mapError (faultError t.stop)

/-- The top-level trees of the source. -/
def program (s : Source) : Except SourceError (List Node) :=
  s.tokens.bind programOf

/-- The tree of a source that holds exactly one expression. -/
def expression (s : Source) : Except SourceError Node := do
  match ← s.program with
  | [node] => return node
  | nodes => throw (.notOneExpression nodes.length)

end Source

end RCode
