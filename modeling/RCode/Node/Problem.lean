import RCode.Token

/-!
# Syntax problems

Why tokens do not form an expression.
-/

set_option autoImplicit false

namespace RCode

/-- What was found in place of the expected: a lexeme, or the end of the text. -/
abbrev Found := Option Lexeme

/-- What was found, as syntax errors describe it. -/
def Found.describe : Found → String
  | none => "end of input"
  | some l => l.describe

/-- A reason for which no expression can be read. -/
inductive SyntaxProblem where
  | unexpected (found : Found)
  /-- Something definite is missing. -/
  | expected (wanted : String) (found : Found)
  /-- What follows a member operator is no name. -/
  | notAMember (found : Found) (operator : String)
  | unclosedBlock
  | repeatedParameter (name : String)
  | afterParameter (found : Found)
  | afterArgument (found : Found)
  | emptyArgument
  | missingValue (name : String)
  /-- The right side of a pipe is no call, or a function definition. -/
  | pipeWithoutCall

namespace SyntaxProblem

def message : SyntaxProblem → String
  | .unexpected found => "Unexpected " ++ found.describe
  | .expected wanted found => "Expected " ++ wanted ++ ", got " ++ found.describe
  | .notAMember found operator =>
    "Unexpected " ++ found.describe ++ " after '" ++ operator ++ "'"
  | .unclosedBlock => "Unclosed '\x7b'"
  | .repeatedParameter name => "Repeated formal argument '" ++ name ++ "'"
  | .afterParameter found => "Expected ',' or ')', got " ++ found.describe
  | .afterArgument found => "Expected ',' or closing bracket, got " ++ found.describe
  | .emptyArgument => "Empty arguments are not supported"
  | .missingValue name => "Missing value for argument '" ++ name ++ "'"
  | .pipeWithoutCall => "The pipe operator requires a function call as RHS"

end SyntaxProblem

/-- Why parsing failed. -/
inductive ParseFault where
  /-- The tokens do not form an expression; the place is that of a token, or none at the end of the
  text. -/
  | malformed (problem : SyntaxProblem) (place : Option Position)
  /-- An argument is named by an empty text. -/
  | emptyArgumentName

end RCode
