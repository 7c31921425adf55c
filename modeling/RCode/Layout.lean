import RCode.Token.Spelling

/-!
# Laid out lexemes

A rendered tree is a row of lexemes with spaces and line breaks between them. How far a line is
indented is known only when the row is spelled, so a line break carries the depth of its line.
-/

set_option autoImplicit false

namespace RCode

/-- A lexeme, or what stands between two of them. -/
inductive Piece where
  | lexeme (value : Lexeme)
  | space
  | lineBreak (depth : Nat)

namespace Piece

/-- The same piece one level deeper. -/
def deepen : Piece → Piece
  | .lineBreak depth => .lineBreak (depth + 1)
  | p => p

/-- The text of a piece; each level of depth is one `indent`. -/
def spelling (indent : List Char) : Piece → List Char
  | .lexeme l => l.spelling
  | .space => [' ']
  | .lineBreak depth => '\n' :: (List.replicate depth indent).flatten

/-- An operator. -/
def operator (name : String) : Piece := .lexeme (.operator name)

/-- A symbol. -/
def symbol (name : String) : Piece := .lexeme (.symbol name)

/-- A keyword. -/
def keyword (k : Keyword) : Piece := .lexeme (.keyword k)

end Piece

/-- A row of lexemes with what stands between them. -/
abbrev Layout := List Piece

namespace Layout

/-- The text of a row. -/
def spelling (indent : List Char) (l : Layout) : List Char :=
  l.flatMap (Piece.spelling indent)

/-- The row one level deeper. -/
def deepen (l : Layout) : Layout :=
  l.map Piece.deepen

/-- The row in round brackets. -/
def inParens (l : Layout) : Layout :=
  .lexeme .leftParen :: l ++ [.lexeme .rightParen]

/-- The rows with a comma and a space after each but the last. -/
def commaSeparated : List Layout → Layout
  | [] => []
  | [l] => l
  | l :: rest => l ++ [.lexeme .comma, .space] ++ commaSeparated rest

/-- A name and its value. -/
def named (name : String) (l : Layout) : Layout :=
  [.symbol name, .space, .operator "=", .space] ++ l

end Layout

end RCode
