import RCode.Text.Quoted

/-!
# Lexical problems

Why a text cannot be split into tokens.
-/

set_option autoImplicit false

namespace RCode

/-- A reason for which no token can be read. -/
inductive LexicalProblem where
  | unterminatedName
  | emptyName
  | unterminatedText
  | malformedRawText
  | unterminatedRawText
  | unterminatedEscape
  | unknownEscape (c : Char)
  /-- An escape by code point has no digits. -/
  | noHexDigits (c : Char)
  /-- The braces of an escape by code point are not closed. -/
  | unclosedEscape
  /-- An escape names a code point that no character has. -/
  | noSuchCharacter (codePoint : Nat)
  | invalidHexNumber
  /-- A hexadecimal number is too large for a double. -/
  | hexNumberTooLarge
  | invalidNumber (written : String)
  | complexNumber
  | afterNumber (c : Char)
  | unterminatedOperator
  | unexpected (c : Char)
deriving DecidableEq, Repr

namespace LexicalProblem

def message : LexicalProblem → String
  | .unterminatedName => "Unterminated backtick name"
  | .emptyName => "Empty backtick name"
  | .unterminatedText => "Unterminated string"
  | .malformedRawText => "Malformed raw string literal"
  | .unterminatedRawText => "Unterminated raw string"
  | .unterminatedEscape => "Unterminated escape sequence"
  | .unknownEscape c => "'\\" ++ c.toString ++ "' is an unrecognized escape"
  | .noHexDigits c => "'\\" ++ c.toString ++ "' used without hex digits"
  | .unclosedEscape => "Invalid \\u\x7bxxxx\x7d sequence"
  | .noSuchCharacter n => "no character has the code point " ++ toString n
  | .invalidHexNumber => "Invalid hex number"
  | .hexNumberTooLarge => "hexadecimal number too large"
  | .invalidNumber written => "Invalid number: " ++ written
  | .complexNumber => "Complex literals are not supported"
  | .afterNumber c => "Unexpected character " ++ Text.quoted c.toString ++ " after number"
  | .unterminatedOperator => "Unterminated %operator%"
  | .unexpected c => "Unexpected character " ++ Text.quoted c.toString

end LexicalProblem

/-- A problem together with the text from the place on where it lies. -/
structure LexicalFault where
  problem : LexicalProblem
  rest : List Char

end RCode
