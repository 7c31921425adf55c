import RCode.Node.Build
import RCode.Node.Parser

/-!
# Parsing with a cursor

The functions of the parser take tokens and return those that they leave over, so that none of
them can go back, run past the end or forget where it is. Here the tokens are cells of a row that is
never cut, with one more cell for the end behind them. A cursor moves along the row, the regions
that it is in are on a stack, and both are changed in place. Nothing in the definitions says that a
run comes to an end, stays in the row or leaves the stack as it was: each call inside of another
takes one from the fuel, a run that uses up its fuel is `none`, and to look outside of the row or at
the top of an empty stack is a fault.

That such runs read what the parser reads is shown in `RCode.Proofs.Node.CursorReading`, and that
they end and leave the stack as it was in `RCode.Proofs.Node.CursorProgress`.
-/

set_option autoImplicit false

namespace RCode

/-- The cells of a row of tokens: the tokens, and the end. -/
def TokenText.cells (text : TokenText) : List (Option Token) :=
  text.tokens.map some ++ [none]

/-- A cell of a row of tokens and the regions around it, the innermost first. -/
structure Cursor where
  place : Nat
  regions : List Region

namespace Cursor

/-- Why a run stops without a result. -/
inductive Fault where
  | malformed (problem : SyntaxProblem) (position : Position)
  /-- A node cannot be built. -/
  | refused (reason : NodeError)
  /-- What is no operator was taken for one. -/
  | noOperator
  /-- A cell outside of the row was looked at. -/
  | outside
  /-- The stack of regions was empty. -/
  | noRegion

/-- A fault of the parser, whose place is the end of the text if it lies at no token. -/
def Fault.ofParse (stop : Position) : ParseFault → Fault
  | .malformed problem place => .malformed problem (place.getD stop)
  | .emptyArgumentName => .refused .emptyArgumentName

/-- Steps of a cursor, which may fail or run out of fuel. -/
abbrev Run := StateT Cursor (ExceptT Fault Option)

/-- Steps that are not done, as no fuel is left for them. -/
def exhausted {α : Type} : Run α :=
  fun _ => ExceptT.mk none

/-- What is built, unless it is refused. -/
def build {α : Type} : Except NodeError α → Run α
  | .ok a => pure a
  | .error e => throw (.refused e)

/-- The innermost region. -/
def region : Run Region := do
  match (← get).regions with
  | r :: _ => return r
  | [] => throw .noRegion

/-- Goes into a region. -/
def enter (r : Region) : Run Unit :=
  modify fun c => { c with regions := r :: c.regions }

/-- Leaves the innermost region. -/
def leave : Run Unit := do
  let c ← get
  match c.regions with
  | _ :: outer => set { c with regions := outer }
  | [] => throw .noRegion

/-- The lexeme is a line break. -/
def isBreak : Lexeme → Bool
  | .newline => true
  | _ => false

/-- The lexeme separates statements. -/
def isSeparator : Lexeme → Bool
  | .newline => true
  | .semicolon => true
  | _ => false

/-- A statement of a block ends before the lexeme. -/
def endsStatement : Lexeme → Bool
  | .newline => true
  | .semicolon => true
  | .rightBrace => true
  | _ => false

def isRightBrace : Lexeme → Bool
  | .rightBrace => true
  | _ => false

def isComma : Lexeme → Bool
  | .comma => true
  | _ => false

def isAssign : Lexeme → Bool
  | .operator "=" => true
  | _ => false

def isElse : Lexeme → Bool
  | .keyword .elseWord => true
  | _ => false

/-- The lexeme in a cell passes the test; the end passes none. -/
def holds (test : Lexeme → Bool) (token : Option Token) : Bool :=
  token.any fun t => test t.lexeme

variable (text : TokenText)

/-- The content of a cell. -/
def cell (i : Nat) : Run (Option Token) :=
  match text.cells[i]? with
  | some c => pure c
  | none => throw .outside

/-- The next cell from `i` on that does not pass the test. -/
def past (skipped : Lexeme → Bool) (i : Nat) : Run Nat :=
  match h : text.cells[i]? with
  | none => throw .outside
  | some token => if holds skipped token then past skipped (i + 1) else return i
termination_by text.cells.length - i
decreasing_by
  have := (List.getElem?_eq_some_iff.mp h).1
  omega

/-- Moves behind the cells that pass the test. -/
def skip (skipped : Lexeme → Bool) : Run Unit := do
  let c ← get
  let i ← past text skipped c.place
  set { c with place := i }

def skipBreaks : Run Unit :=
  skip text isBreak

def skipSeparators : Run Unit :=
  skip text isSeparator

/-- The cell at the cursor. Inside brackets the cursor first moves behind line breaks. -/
def peek : Run (Option Token) := do
  match ← region with
  | .bracket => do
    skipBreaks text
    cell text (← get).place
  | _ => cell text (← get).place

/-- Takes the cell at the cursor. The cursor stays at the last cell. -/
def advance : Run (Option Token) := do
  let token ← peek text
  let c ← get
  if c.place + 1 < text.cells.length then
    set { c with place := c.place + 1 }
    return token
  else return token

/-- Where the content of a cell stands in the text. -/
def position (token : Option Token) : Position :=
  token.elim text.stop Token.position

/-- A problem with a cell. -/
def fail {α : Type} (problem : Found → SyntaxProblem) (token : Option Token) : Run α :=
  throw (.malformed (problem (token.map Token.lexeme)) (position text token))

/-- Takes a cell whose lexeme has to pass the test. -/
def expect (wanted : String) (accepts : Lexeme → Bool) : Run (Option Token) := do
  let token ← peek text
  if holds accepts token then advance text
  else fail text (.expected wanted) token

/-- Takes a symbol; its name and its place. -/
def expectSymbol : Run (String × Position) := do
  match ← peek text with
  | some ⟨.symbol name, p⟩ => do
    let _ ← advance text
    return (name, p)
  | token => fail text (.expected "SYMBOL") token

/-- The cell in which an `else` is looked for. At the top level a line break ends the `if` before
any `else`. -/
def beforeElse : Run Nat := do
  let c ← get
  match ← region with
  | .top => return c.place
  | _ => past text isBreak c.place

/-- Moves to an `else` that continues an `if`, and says whether there is one. -/
def atElse : Run Bool := do
  let i ← beforeElse text
  let token ← cell text i
  if holds isElse token then
    modify fun c => { c with place := i }
    return true
  else return false

/-- The cell behind the one at the cursor, line breaks apart, is an `=`. -/
def nameFollows : Run Bool := do
  let c ← get
  let i ← past text isBreak (c.place + 1)
  let token ← cell text i
  return holds isAssign token

/-- The name of a named argument that starts with `token`. -/
def argumentName? (token : Option Token) : Run (Option String) := do
  match token.map Token.lexeme with
  | some (.symbol name) => do
    let named ← nameFollows text
    return if named then some name else none
  | some (.text name) => do
    let named ← nameFollows text
    return if named then some name else none
  | _ => return none

/-- The member named after `$`, `@` or `::`. -/
def member (operator : String) : Run Node := do
  skipBreaks text
  match ← advance text with
  | some ⟨.symbol name, p⟩ => build (Node.ofName name p)
  | some ⟨.text s, p⟩ => return .constant (.text s) p
  | token => fail text (.notAMember · operator) token

mutual

/-- An expression whose operators all bind tighter than `power`. -/
def expression (fuel : Nat) (power : Int) : Run Node :=
  match fuel with
  | 0 => exhausted
  | fuel + 1 => do
    let token ← advance text
    let left ← operand fuel token
    operators fuel power left

/-- The operators that follow a left operand and bind tighter than `power`. -/
def operators (fuel : Nat) (power : Int) (left : Node) : Run Node :=
  match fuel with
  | 0 => exhausted
  | fuel + 1 => do
    let token ← peek text
    if token.elim 0 (fun t => Parser.leftPower t.lexeme) ≤ power then return left
    else do
      let _ ← advance text
      let left ← operatorForm fuel token left
      operators fuel power left

/-- The operand that starts with `token`, which has been taken. -/
def operand (fuel : Nat) (token : Option Token) : Run Node :=
  match fuel with
  | 0 => exhausted
  | fuel + 1 =>
    match token with
    | none => fail text .unexpected none
    | some t =>
      match t.lexeme with
      | .integer n => build (Node.ofAtom (.integer n) t.position)
      | .double x => build (Node.ofAtom (.double x) t.position)
      | .text s => build (Node.ofAtom (.text s) t.position)
      | .constant c => build (Node.ofAtom c.value t.position)
      | .symbol name => build (Node.ofName name t.position)
      | .operator name =>
        match Operator.prefix? name with
        | none => fail text .unexpected token
        | some power => do
          skipBreaks text
          let inner ← expression fuel power
          return Parser.keywordCall name t.position [inner]
      | .leftParen => do
        enter .bracket
        let inner ← expression fuel 0
        let _ ← expect text "RPAREN" (· matches .rightParen)
        leave
        return Parser.keywordCall "(" t.position [inner]
      | .leftBrace => block fuel t
      | .keyword .ifWord => conditional fuel t
      | .keyword .whileWord => whileLoop fuel t
      | .keyword .forWord => forLoop fuel t
      | .keyword .repeatWord => do
        skipBreaks text
        let body ← expression fuel 0
        return Parser.keywordCall "repeat" t.position [body]
      | .keyword .functionWord => definition fuel t
      | .keyword .breakWord => return Parser.keywordCall "break" t.position []
      | .keyword .nextWord => return Parser.keywordCall "next" t.position []
      | _ => fail text .unexpected token

/-- The block that starts with the brace `t`. -/
def block (fuel : Nat) (t : Token) : Run Node :=
  match fuel with
  | 0 => exhausted
  | fuel + 1 => do
    enter .block
    let body ← statements fuel t.position
    let _ ← expect text "RBRACE" isRightBrace
    leave
    return Parser.keywordCall "\x7b" t.position body

/-- The statements of a block up to its closing brace; `opening` is the place of the opening one. -/
def statements (fuel : Nat) (opening : Position) : Run (List Node) :=
  match fuel with
  | 0 => exhausted
  | fuel + 1 => do
    skipSeparators text
    let current ← peek text
    if holds isRightBrace current then return []
    else if current.isNone then throw (.malformed .unclosedBlock opening)
    else do
      let statement ← expression fuel 0
      let current ← peek text
      if holds endsStatement current then do
        let more ← statements fuel opening
        return statement :: more
      else fail text .unexpected current

/-- The condition of `if` and `while`, in round brackets. -/
def condition (fuel : Nat) : Run Node :=
  match fuel with
  | 0 => exhausted
  | fuel + 1 => do
    let _ ← expect text "LPAREN" (· matches .leftParen)
    enter .bracket
    let node ← expression fuel 0
    let _ ← expect text "RPAREN" (· matches .rightParen)
    leave
    return node

/-- The `if` that starts with `t`. -/
def conditional (fuel : Nat) (t : Token) : Run Node :=
  match fuel with
  | 0 => exhausted
  | fuel + 1 => do
    let condition ← condition fuel
    skipBreaks text
    let body ← expression fuel 0
    if ← atElse text then do
      let _ ← advance text
      skipBreaks text
      let other ← expression fuel 0
      return Parser.keywordCall "if" t.position [condition, body, other]
    else return Parser.keywordCall "if" t.position [condition, body]

/-- The `while` that starts with `t`. -/
def whileLoop (fuel : Nat) (t : Token) : Run Node :=
  match fuel with
  | 0 => exhausted
  | fuel + 1 => do
    let condition ← condition fuel
    skipBreaks text
    let body ← expression fuel 0
    return Parser.keywordCall "while" t.position [condition, body]

/-- The `for` that starts with `t`. -/
def forLoop (fuel : Nat) (t : Token) : Run Node :=
  match fuel with
  | 0 => exhausted
  | fuel + 1 => do
    let _ ← expect text "LPAREN" (· matches .leftParen)
    enter .bracket
    let (name, p) ← expectSymbol text
    let _ ← expect text "'in'" (· matches .keyword .inWord)
    let sequence ← expression fuel 0
    let _ ← expect text "RPAREN" (· matches .rightParen)
    leave
    skipBreaks text
    let body ← expression fuel 0
    let loopName ← build (Node.ofName name p)
    return Parser.keywordCall "for" t.position [loopName, sequence, body]

/-- The function definition that starts with `t`. -/
def definition (fuel : Nat) (t : Token) : Run Node :=
  match fuel with
  | 0 => exhausted
  | fuel + 1 => do
    let opening ← expect text "LPAREN" (· matches .leftParen)
    enter .bracket
    let items ← parameters fuel
    leave
    skipBreaks text
    let body ← expression fuel 0
    return Parser.keywordCall "function" t.position [.params items (position text opening), body]

/-- The parameters of a function definition up to and including the closing bracket. -/
def parameters (fuel : Nat) : Run (List (Param Node)) :=
  match fuel with
  | 0 => exhausted
  | fuel + 1 => do
    let token ← peek text
    if holds Parser.Closing.paren.accepts token then do
      let _ ← advance text
      return []
    else parameterList fuel []

/-- At least one parameter, and those after it; the names in `seen` came before. -/
def parameterList (fuel : Nat) (seen : List String) : Run (List (Param Node)) :=
  match fuel with
  | 0 => exhausted
  | fuel + 1 => do
    let (name, p) ← expectSymbol text
    if name ∈ seen then throw (.malformed (.repeatedParameter name) p)
    else do
      let default ← parameterDefault fuel
      let item ← build (Param.build name default)
      let separator ← advance text
      if holds Parser.Closing.paren.accepts separator then return [item]
      else if holds isComma separator then do
        let more ← parameterList fuel (name :: seen)
        return item :: more
      else fail text .afterParameter separator

/-- The default of a parameter, if an `=` follows its name. -/
def parameterDefault (fuel : Nat) : Run Node :=
  match fuel with
  | 0 => exhausted
  | fuel + 1 => do
    let token ← peek text
    if holds isAssign token then do
      let _ ← advance text
      expression fuel Operator.assignPower
    else return .missing

/-- What `token`, which has been taken, makes of its left operand and the cells after it. -/
def operatorForm (fuel : Nat) (token : Option Token) (left : Node) : Run Node :=
  match fuel with
  | 0 => exhausted
  | fuel + 1 =>
    match token with
    | none => throw (.refused .emptySymbol)
    | some t =>
      match t.lexeme with
      | .leftParen => do
        let args ← arguments fuel .paren
        return .call left args left.position
      | .leftBracket => do
        let args ← arguments fuel .bracket
        return .call (.symbol "[" t.position) (⟨none, left⟩ :: args) left.position
      | .leftDouble => do
        let args ← arguments fuel .bracket
        let _ ← expect text "RBRACKET" (· matches .rightBracket)
        return .call (.symbol "[[" t.position) (⟨none, left⟩ :: args) left.position
      | l =>
        match l.value with
        | .text name => infixForm fuel name t.position left
        | _ => throw (.refused .emptySymbol)

/-- What the operator `name` at `p` makes of its left operand and the cells after it. -/
def infixForm (fuel : Nat) (name : String) (p : Position) (left : Node) : Run Node :=
  match fuel with
  | 0 => exhausted
  | fuel + 1 => do
    let head ← build (Node.ofName name p)
    if name = "$" ∨ name = "@" ∨ ((name = "::" ∨ name = ":::") ∧ Parser.isNamespace left) then do
      let right ← member text name
      return .call head [⟨none, left⟩, ⟨none, right⟩] left.position
    else if name = "::" ∨ name = ":::" then
      throw (.malformed (.unexpected (some (.operator name))) p)
    else
      match Operator.binary? name with
      | none => throw .noOperator
      | some binding => do
        skipBreaks text
        let right ← expression fuel
          (if binding.rightAssociative then binding.power - 1 else binding.power)
        match Parser.combine name p left right with
        | .ok node => return node
        | .error fault => throw (.ofParse text.stop fault)

/-- The arguments of a call up to and including the closing bracket. -/
def arguments (fuel : Nat) (closing : Parser.Closing) : Run (List (Arg Node)) :=
  match fuel with
  | 0 => exhausted
  | fuel + 1 => do
    enter .bracket
    let token ← peek text
    if holds closing.accepts token then do
      let _ ← advance text
      leave
      return []
    else do
      let args ← argumentList fuel closing
      leave
      return args

/-- At least one argument, and those after it. -/
def argumentList (fuel : Nat) (closing : Parser.Closing) : Run (List (Arg Node)) :=
  match fuel with
  | 0 => exhausted
  | fuel + 1 => do
    let arg ← argument fuel closing
    let separator ← advance text
    if holds closing.accepts separator then return [arg]
    else if holds isComma separator then do
      let more ← argumentList fuel closing
      return arg :: more
    else fail text .afterArgument separator

/-- One argument with its name, if it has one. -/
def argument (fuel : Nat) (closing : Parser.Closing) : Run (Arg Node) :=
  match fuel with
  | 0 => exhausted
  | fuel + 1 => do
    let token ← peek text
    if holds closing.endsArgument token then fail text (fun _ => .emptyArgument) token
    else
      match ← argumentName? text token with
      | none => do
        let value ← expression fuel 0
        return ⟨none, value⟩
      | some name => do
        let _ ← advance text
        let _ ← advance text
        let following ← peek text
        if holds closing.endsArgument following then
          fail text (fun _ => .missingValue name) following
        else do
          let value ← expression fuel Operator.assignPower
          build (if name = "" then .error .emptyArgumentName else .ok ⟨some name, value⟩)

end

/-- Every top-level expression from the cursor on. -/
def program (fuel : Nat) : Run (List Node) :=
  match fuel with
  | 0 => exhausted
  | fuel + 1 => do
    skipSeparators text
    let token ← peek text
    if token.isNone then return []
    else do
      let node ← expression text fuel 0
      let token ← peek text
      if token.isNone || holds isSeparator token then do
        let more ← program fuel
        return node :: more
      else fail text .unexpected token

end Cursor

end RCode
