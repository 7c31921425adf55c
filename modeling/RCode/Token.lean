import RCode.Atom
import RCode.Position

/-!
# Tokens

A token is a lexeme with the position where it starts. The end of the text is not a token of its
own: a text is a list of tokens and the position where it stops.
-/

set_option autoImplicit false

namespace RCode

/-- The words with a meaning of their own. -/
inductive Keyword where
  | ifWord
  | elseWord
  | forWord
  | inWord
  | whileWord
  | repeatWord
  | functionWord
  | breakWord
  | nextWord
deriving DecidableEq, Repr

namespace Keyword

def spelling : Keyword → String
  | .ifWord => "if"
  | .elseWord => "else"
  | .forWord => "for"
  | .inWord => "in"
  | .whileWord => "while"
  | .repeatWord => "repeat"
  | .functionWord => "function"
  | .breakWord => "break"
  | .nextWord => "next"

/-- All keywords. -/
def all : List Keyword :=
  [.ifWord, .elseWord, .forWord, .inWord, .whileWord, .repeatWord, .functionWord, .breakWord,
    .nextWord]

/-- The keyword a word is. -/
def ofWord? (word : String) : Option Keyword :=
  all.find? fun k => k.spelling == word

end Keyword

/-- The constants written as words. -/
inductive NamedConstant where
  | yes
  | no
  | null
  | infinity
  | notANumber
deriving DecidableEq, Repr

namespace NamedConstant

def spelling : NamedConstant → String
  | .yes => "TRUE"
  | .no => "FALSE"
  | .null => "NULL"
  | .infinity => "Inf"
  | .notANumber => "NaN"

def value : NamedConstant → Atom
  | .yes => .logical true
  | .no => .logical false
  | .null => .null
  | .infinity => .double Double.infinity
  | .notANumber => .double Double.nan

/-- All named constants. -/
def all : List NamedConstant :=
  [.yes, .no, .null, .infinity, .notANumber]

/-- The constant a word is. -/
def ofWord? (word : String) : Option NamedConstant :=
  all.find? fun c => c.spelling == word

end NamedConstant

/-- A smallest meaningful piece of a text. -/
inductive Lexeme where
  | leftParen
  | rightParen
  | leftBrace
  | rightBrace
  | leftBracket
  /-- The opening `[[`. -/
  | leftDouble
  | rightBracket
  | comma
  | semicolon
  /-- A number with the suffix `L`. -/
  | integer (value : Nat)
  | double (value : Float)
  | text (value : String)
  | constant (value : NamedConstant)
  | symbol (name : String)
  | keyword (word : Keyword)
  | operator (name : String)
  /-- A run of line breaks. -/
  | newline

namespace Lexeme

/-- The kind of the lexeme as messages name it. -/
def kind : Lexeme → String
  | .leftParen => "LPAREN"
  | .rightParen => "RPAREN"
  | .leftBrace => "LBRACE"
  | .rightBrace => "RBRACE"
  | .leftBracket => "LBRACKET"
  | .leftDouble => "LBB"
  | .rightBracket => "RBRACKET"
  | .comma => "COMMA"
  | .semicolon => "SEMICOLON"
  | .integer _ => "NUMBER"
  | .double _ => "NUMBER"
  | .text _ => "STRING"
  | .constant _ => "CONSTANT"
  | .symbol _ => "SYMBOL"
  | .keyword _ => "KEYWORD"
  | .operator _ => "OPERATOR"
  | .newline => "NEWLINE"

/-- What the lexeme stands for: the value of a literal, the name or spelling of anything else. -/
def value : Lexeme → Atom
  | .leftParen => .text "("
  | .rightParen => .text ")"
  | .leftBrace => .text "\x7b"
  | .rightBrace => .text "\x7d"
  | .leftBracket => .text "["
  | .leftDouble => .text "[["
  | .rightBracket => .text "]"
  | .comma => .text ","
  | .semicolon => .text ";"
  | .integer n => .integer n
  | .double x => .double x
  | .text s => .text s
  | .constant c => c.value
  | .symbol name => .text name
  | .keyword k => .text k.spelling
  | .operator name => .text name
  | .newline => .text "\n"

/-- The lexeme as syntax errors describe it. -/
def describe : Lexeme → String
  | .newline => "end of line"
  | .text s => "string " ++ Text.quoted s
  | .integer n => "number " ++ (Atom.integer n).inspect
  | .double x => "number " ++ (Atom.double x).inspect
  | .constant .null => "CONSTANT"
  | l =>
    match l.value with
    | .text s => "'" ++ s ++ "'"
    | a => "'" ++ a.inspect ++ "'"

end Lexeme

/-- A lexeme and where it starts. -/
structure Token where
  lexeme : Lexeme
  position : Position

namespace Token

/-- A token as messages show it, from its kind, its value and its position. -/
def inspectWith (kind : String) (value : Atom) (p : Position) : String :=
  "Token(" ++ kind ++ ", " ++ value.inspect ++ ", " ++ p.text ++ ")"

/-- The token as messages show it. -/
def inspect (t : Token) : String :=
  inspectWith t.lexeme.kind t.lexeme.value t.position

end Token

/-- The tokens of a text and the position where the text ends. -/
structure TokenText where
  tokens : List Token
  stop : Position

end RCode
