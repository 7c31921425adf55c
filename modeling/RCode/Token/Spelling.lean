import RCode.Token.Lexer

/-!
# Spelling of lexemes

The text of a lexeme: names in backticks where they are not syntactic, texts in double quotes with
the escapes they need, whole doubles below 10¹⁵ without a point and all others by their shortest
digits.
-/

set_option autoImplicit false

namespace RCode

/-- The words that are no symbols, and the missing values, which are no syntactic names either. -/
def reservedWords : List String :=
  Keyword.all.map Keyword.spelling ++ NamedConstant.all.map NamedConstant.spelling ++
    ["NA", "NA_integer_", "NA_real_", "NA_character_"]

/-- The name can be written without backticks. -/
def isSyntacticName (name : String) : Bool :=
  match name.toList with
  | [] => false
  | c :: rest => name ∉ reservedWords && startsName c rest && (c :: rest).all Numeral.isNameChar

namespace Spelling

/-- A name as it is written, in backticks if it is not syntactic. -/
def name (s : String) : List Char :=
  if isSyntacticName s then s.toList
  else '`' :: s.toList.flatMap (fun c => if c = '\\' ∨ c = '`' then ['\\', c] else [c]) ++ ['`']

/-- A character as it is written in a text. -/
def textChar (c : Char) : List Char :=
  if c = '\\' ∨ c = '"' then ['\\', c]
  else if c = '\n' then ['\\', 'n']
  else if c = '\t' then ['\\', 't']
  else if c = '\r' then ['\\', 'r']
  else if c.toNat < 0x20 ∨ c.toNat = 0x7f then '\\' :: 'x' :: Text.hexadecimal 2 c.toNat
  else [c]

/-- A text in double quotes. -/
def text (s : String) : List Char :=
  '"' :: s.toList.flatMap textChar ++ ['"']

/-- The largest whole double written without a point, and one more. -/
def wholeLimit : Nat := 10 ^ 15

/-- The magnitude of a double as a literal; the literal has no sign. -/
def double (x : Float) : List Char :=
  let whole := (Double.truncate x).natAbs
  if Double.isIntegral x && whole < wholeLimit then Nat.toDigits 10 whole
  else Double.writeMagnitude (Double.magnitude x)

end Spelling

/-- The text of a lexeme. -/
def Lexeme.spelling : Lexeme → List Char
  | .leftParen => ['(']
  | .rightParen => [')']
  | .leftBrace => ['\x7b']
  | .rightBrace => ['\x7d']
  | .leftBracket => ['[']
  | .leftDouble => ['[', '[']
  | .rightBracket => [']']
  | .comma => [',']
  | .semicolon => [';']
  | .integer n => Nat.toDigits 10 n ++ ['L']
  | .double x => Spelling.double x
  | .text s => Spelling.text s
  | .constant c => c.spelling.toList
  | .symbol name => Spelling.name name
  | .keyword k => k.spelling.toList
  | .operator name => name.toList
  | .newline => ['\n']

end RCode
