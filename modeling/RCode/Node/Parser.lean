import RCode.Node.Basic
import RCode.Node.Problem
import RCode.Operator

/-!
# From tokens to trees

Operators are resolved by their powers: `expression` reads operators that bind tighter than a given
power and leaves the others to its caller. Control flow becomes calls of the keyword, `x |> f(y)`
becomes `f(x, y)`, and rightward assignment becomes leftward assignment.

Line breaks end an expression at the top level and inside braces, and mean nothing inside round and
square brackets; the `Region` says which. The end of the text is the end of the token list. Every
function returns the tokens it left over, with a proof that they are fewer than it was given, or no
more; that is why the recursion ends.
-/

set_option autoImplicit false

namespace RCode

/-- What encloses an expression, and so decides what line breaks mean. -/
inductive Region where
  | top
  | block
  | bracket
deriving DecidableEq, Repr

namespace Parser

abbrev Tokens := List Token

/-- Tokens fewer than the given ones. -/
abbrev Fewer (ts : Tokens) := { rest : Tokens // rest.length < ts.length }

/-- Tokens no more than the given ones. -/
abbrev NoMore (ts : Tokens) := { rest : Tokens // rest.length ≤ ts.length }

/-- The tokens after the line breaks at their start. -/
def skipBreaks : Tokens → Tokens
  | ⟨.newline, _⟩ :: rest => skipBreaks rest
  | ts => ts

/-- The tokens after the line breaks and semicolons at their start. -/
def skipSeparators : Tokens → Tokens
  | ⟨.newline, _⟩ :: rest => skipSeparators rest
  | ⟨.semicolon, _⟩ :: rest => skipSeparators rest
  | ts => ts

theorem skipBreaks_length (ts : Tokens) : (skipBreaks ts).length ≤ ts.length := by
  fun_induction skipBreaks ts with
  | case1 p rest ih => exact Nat.le_succ_of_le ih
  | case2 => exact Nat.le_refl _

theorem skipSeparators_length (ts : Tokens) : (skipSeparators ts).length ≤ ts.length := by
  fun_induction skipSeparators ts with
  | case1 p rest ih => exact Nat.le_succ_of_le ih
  | case2 p rest ih => exact Nat.le_succ_of_le ih
  | case3 => exact Nat.le_refl _

/-- The tokens as a region sees them: inside brackets line breaks are not seen. -/
def visible (region : Region) (ts : Tokens) : Tokens :=
  match region with
  | .bracket => skipBreaks ts
  | _ => ts

theorem visible_length (region : Region) (ts : Tokens) :
    (visible region ts).length ≤ ts.length := by
  cases region
  · exact Nat.le_refl _
  · exact Nat.le_refl _
  · exact skipBreaks_length ts

theorem visible_cons_length {region : Region} {ts rest : Tokens} {t : Token}
    (h : visible region ts = t :: rest) : rest.length < ts.length := by
  have := visible_length region ts
  rw [h] at this
  exact this

/-- The first token and where it stands. -/
def found (ts : Tokens) : Found :=
  ts.head?.map Token.lexeme

/-- A problem with the first of the tokens. -/
def problemAt {α : Type} (ts : Tokens) (problem : SyntaxProblem) : Except ParseFault α :=
  .error (.malformed problem (ts.head?.map Token.position))

/-- The first token is of no use here. -/
def unexpected {α : Type} (ts : Tokens) : Except ParseFault α :=
  problemAt ts (.unexpected (found ts))

/-- The tokens after one that has to be there. -/
def expect (region : Region) (wanted : String) (accepts : Lexeme → Bool) (ts : Tokens) :
    Except ParseFault (Fewer ts) :=
  match h : visible region ts with
  | t :: rest =>
    if accepts t.lexeme then .ok ⟨rest, visible_cons_length h⟩
    else problemAt (t :: rest) (.expected wanted (some t.lexeme))
  | [] => problemAt [] (.expected wanted none)

/-- The name and the place of a symbol that has to be there, and the tokens after it. -/
def expectSymbol (ts : Tokens) : Except ParseFault (String × Position × Fewer ts) :=
  match h : visible .bracket ts with
  | ⟨.symbol name, p⟩ :: rest => .ok (name, p, ⟨rest, visible_cons_length h⟩)
  | ts' => problemAt ts' (.expected "SYMBOL" (found ts'))

/-- The brackets that end a list of arguments. -/
inductive Closing where
  | paren
  | bracket
deriving DecidableEq, Repr

/-- The lexeme is the closing bracket. -/
def Closing.accepts : Closing → Lexeme → Bool
  | .paren, .rightParen => true
  | .bracket, .rightBracket => true
  | _, _ => false

/-- The lexeme ends an argument: a comma or the closing bracket. -/
def Closing.endsArgument (closing : Closing) : Lexeme → Bool
  | .comma => true
  | l => closing.accepts l

/-- The power with which a lexeme binds what stands before it; 0 if it does not. -/
def leftPower : Lexeme → Nat
  | .operator name => (Operator.binary? name).elim 0 Operator.Binding.power
  | .leftParen => Operator.postfixPower
  | .leftBracket => Operator.postfixPower
  | .leftDouble => Operator.postfixPower
  | _ => 0

/-- The name of a named argument that starts with `t`, and the tokens after its `=`. -/
def argumentName? (t : Token) (rest : Tokens) : Option (String × NoMore rest) :=
  match h : skipBreaks rest with
  | ⟨.operator "=", _⟩ :: after =>
    have fits : after.length ≤ rest.length := by
      have := skipBreaks_length rest
      rw [h] at this
      exact Nat.le_of_succ_le this
    match t.lexeme with
    | .symbol name => some (name, ⟨after, fits⟩)
    | .text name => some (name, ⟨after, fits⟩)
    | _ => none
  | _ => none

/-- The tokens after an `else` that continues an `if`. At the top level a line break ends the `if`
before any `else`. -/
def elseBranch? (region : Region) (ts : Tokens) : Option (Fewer ts) :=
  match h : (if region = .top then ts else skipBreaks ts) with
  | ⟨.keyword .elseWord, _⟩ :: rest =>
    some ⟨rest, by
      have : (if region = .top then ts else skipBreaks ts).length ≤ ts.length := by
        split
        · exact Nat.le_refl _
        · exact skipBreaks_length ts
      rw [h] at this
      exact this⟩
  | _ => none

/-- The member named after `$`, `@` or `::`. -/
def member (operator : String) (ts : Tokens) : Except ParseFault (Node × Fewer ts) :=
  match h : skipBreaks ts with
  | ⟨.symbol name, p⟩ :: rest => .ok (.symbol name p, ⟨rest, fits h⟩)
  | ⟨.text s, p⟩ :: rest => .ok (.constant (.text s) p, ⟨rest, fits h⟩)
  | ts' => problemAt ts' (.notAMember (found ts') operator)
where
  /-- One token fewer is left. -/
  fits {ts rest : Tokens} {t : Token} (h : skipBreaks ts = t :: rest) :
      rest.length < ts.length := by
    have := skipBreaks_length ts
    rw [h] at this
    exact this

/-- The left side of `::` is a name or a text. -/
def isNamespace : Node → Bool
  | .symbol _ _ => true
  | .constant (.text _) _ => true
  | _ => false

/-- The call a binary operator at `p` makes of its operands. -/
def combine (operator : String) (p : Position) (left right : Node) : Except ParseFault Node :=
  let call (head : String) (args : List Node) : Node :=
    .call (.symbol head p) (args.map fun a => ⟨none, a⟩) left.position
  if operator = "->" then .ok (call "<-" [right, left])
  else if operator = "->>" then .ok (call "<<-" [right, left])
  else if operator = "|>" then
    match right with
    | .call head args q =>
      if right.isCallTo ["function"] then .error (.malformed .pipeWithoutCall (some p))
      else .ok (.call head (⟨none, left⟩ :: args) q)
    | _ => .error (.malformed .pipeWithoutCall (some p))
  else .ok (call operator [left, right])

/-- A top-level expression ends here: at a line break, a semicolon or the end of the text. -/
def endsExpression : Tokens → Bool
  | [] => true
  | t :: _ => t.lexeme matches .newline | .semicolon

/-- A statement of a block ends here: at a line break, a semicolon or the closing brace. -/
def endsStatement : Tokens → Bool
  | [] => false
  | t :: _ => t.lexeme matches .newline | .semicolon | .rightBrace

/-- A call of a keyword, at the place of the keyword. -/
def keywordCall (word : String) (p : Position) (args : List Node) : Node :=
  .call (.symbol word p) (args.map fun a => ⟨none, a⟩) p

mutual

/-- An expression whose operators all bind tighter than `power`. -/
def expression (region : Region) (power : Nat) (ts : Tokens) :
    Except ParseFault (Node × Fewer ts) :=
  match h : visible region ts with
  | [] => unexpected []
  | t :: rest => do
    have hlt := visible_cons_length h
    let (left, ⟨rest, _⟩) ← operand region t rest
    let (node, ⟨rest, _⟩) ← operators region power left rest
    return (node, ⟨rest, by omega⟩)
termination_by 5 * ts.length

/-- The operators that follow a left operand and bind tighter than `power`. -/
def operators (region : Region) (power : Nat) (left : Node) (ts : Tokens) :
    Except ParseFault (Node × NoMore ts) :=
  match h : visible region ts with
  | [] => .ok (left, ⟨[], Nat.zero_le _⟩)
  | t :: rest =>
    have hlt := visible_cons_length h
    if leftPower t.lexeme ≤ power then .ok (left, ⟨t :: rest, hlt⟩)
    else do
      let (left, ⟨rest, _⟩) ← operatorForm region t left rest
      let (node, ⟨rest, _⟩) ← operators region power left rest
      return (node, ⟨rest, by omega⟩)
termination_by 5 * ts.length

/-- The operand that starts with `t`. -/
def operand (region : Region) (t : Token) (ts : Tokens) : Except ParseFault (Node × NoMore ts) :=
  have hskip := skipBreaks_length ts
  match t.lexeme with
  | .integer n => .ok (.constant (.integer n) t.position, ⟨ts, Nat.le_refl _⟩)
  | .double x => .ok (.constant (.double x) t.position, ⟨ts, Nat.le_refl _⟩)
  | .text s => .ok (.constant (.text s) t.position, ⟨ts, Nat.le_refl _⟩)
  | .constant c => .ok (.constant c.value t.position, ⟨ts, Nat.le_refl _⟩)
  | .symbol name => .ok (.symbol name t.position, ⟨ts, Nat.le_refl _⟩)
  | .operator name =>
    match Operator.prefix? name with
    | none => unexpected (t :: ts)
    | some power => do
      let (inner, ⟨rest, _⟩) ← expression region power (skipBreaks ts)
      return (keywordCall name t.position [inner], ⟨rest, by omega⟩)
  | .leftParen => do
    let (inner, ⟨rest, _⟩) ← expression .bracket 0 ts
    let ⟨rest, _⟩ ← expect .bracket "RPAREN" (· matches .rightParen) rest
    return (keywordCall "(" t.position [inner], ⟨rest, by omega⟩)
  | .leftBrace => do
    let (body, ⟨rest, _⟩) ← statements t.position ts
    return (keywordCall "\x7b" t.position body, ⟨rest, by omega⟩)
  | .keyword .ifWord => do
    let (condition, ⟨rest, _⟩) ← condition region ts
    have := skipBreaks_length rest
    let (body, ⟨rest, _⟩) ← expression region 0 (skipBreaks rest)
    match elseBranch? region rest with
    | none => return (keywordCall "if" t.position [condition, body], ⟨rest, by omega⟩)
    | some ⟨rest, _⟩ =>
      have := skipBreaks_length rest
      let (other, ⟨rest, _⟩) ← expression region 0 (skipBreaks rest)
      return (keywordCall "if" t.position [condition, body, other], ⟨rest, by omega⟩)
  | .keyword .whileWord => do
    let (condition, ⟨rest, _⟩) ← condition region ts
    have := skipBreaks_length rest
    let (body, ⟨rest, _⟩) ← expression region 0 (skipBreaks rest)
    return (keywordCall "while" t.position [condition, body], ⟨rest, by omega⟩)
  | .keyword .forWord => do
    let ⟨rest, _⟩ ← expect region "LPAREN" (· matches .leftParen) ts
    let (name, p, ⟨rest, _⟩) ← expectSymbol rest
    let ⟨rest, _⟩ ← expect .bracket "'in'" (· matches .keyword .inWord) rest
    let (sequence, ⟨rest, _⟩) ← expression .bracket 0 rest
    let ⟨rest, _⟩ ← expect .bracket "RPAREN" (· matches .rightParen) rest
    have := skipBreaks_length rest
    let (body, ⟨rest, _⟩) ← expression region 0 (skipBreaks rest)
    return (keywordCall "for" t.position [.symbol name p, sequence, body], ⟨rest, by omega⟩)
  | .keyword .repeatWord => do
    let (body, ⟨rest, _⟩) ← expression region 0 (skipBreaks ts)
    return (keywordCall "repeat" t.position [body], ⟨rest, by omega⟩)
  | .keyword .functionWord => do
    let p := (visible region ts).head?.elim .nowhere Token.position
    let ⟨rest, _⟩ ← expect region "LPAREN" (· matches .leftParen) ts
    let (items, ⟨rest, _⟩) ← parameters rest
    have := skipBreaks_length rest
    let (body, ⟨rest, _⟩) ← expression region 0 (skipBreaks rest)
    return (keywordCall "function" t.position [.params items p, body], ⟨rest, by omega⟩)
  | .keyword .breakWord => .ok (keywordCall "break" t.position [], ⟨ts, Nat.le_refl _⟩)
  | .keyword .nextWord => .ok (keywordCall "next" t.position [], ⟨ts, Nat.le_refl _⟩)
  | _ => unexpected (t :: ts)
termination_by 5 * ts.length + 4

/-- The condition of `if` and `while`, in round brackets. -/
def condition (region : Region) (ts : Tokens) : Except ParseFault (Node × Fewer ts) := do
  let ⟨rest, _⟩ ← expect region "LPAREN" (· matches .leftParen) ts
  let (node, ⟨rest, _⟩) ← expression .bracket 0 rest
  let ⟨rest, _⟩ ← expect .bracket "RPAREN" (· matches .rightParen) rest
  return (node, ⟨rest, by omega⟩)
termination_by 5 * ts.length + 1

/-- The statements of a block up to and including its closing brace; `opening` is the place of the
opening one. -/
def statements (opening : Position) (ts : Tokens) : Except ParseFault (List Node × Fewer ts) :=
  have hskip := skipSeparators_length ts
  match h : skipSeparators ts with
  | [] => .error (.malformed .unclosedBlock (some opening))
  | ⟨.rightBrace, _⟩ :: rest => .ok ([], ⟨rest, by rw [h] at hskip; exact hskip⟩)
  | t :: rest => do
    have hlength : (t :: rest).length ≤ ts.length := by rw [h] at hskip; exact hskip
    have hrest : rest.length + 1 ≤ ts.length := hlength
    let (statement, ⟨rest, _⟩) ← expression .block 0 (t :: rest)
    if endsStatement rest then
      let (more, ⟨rest, _⟩) ← statements opening rest
      return (statement :: more, ⟨rest, by omega⟩)
    else unexpected rest
termination_by 5 * ts.length + 1

/-- The parameters of a function definition up to and including the closing bracket. -/
def parameters (ts : Tokens) : Except ParseFault (List (Param Node) × Fewer ts) :=
  match h : visible .bracket ts with
  | ⟨.rightParen, _⟩ :: rest => .ok ([], ⟨rest, visible_cons_length h⟩)
  | _ => parameterList [] ts
termination_by 5 * ts.length + 2

/-- At least one parameter, and those after it; the names in `seen` came before. -/
def parameterList (seen : List String) (ts : Tokens) :
    Except ParseFault (List (Param Node) × Fewer ts) := do
  let (name, p, ⟨rest, _⟩) ← expectSymbol ts
  if name ∈ seen then throw (.malformed (.repeatedParameter name) (some p))
  let (default, ⟨rest, _⟩) ← parameterDefault rest
  match h : visible .bracket rest with
  | ⟨.rightParen, _⟩ :: after =>
    have := visible_cons_length h
    return ([⟨name, default⟩], ⟨after, by omega⟩)
  | ⟨.comma, _⟩ :: after =>
    have := visible_cons_length h
    let (more, ⟨rest, _⟩) ← parameterList (name :: seen) after
    return (⟨name, default⟩ :: more, ⟨rest, by omega⟩)
  | other => problemAt other (.afterParameter (found other))
termination_by 5 * ts.length + 1

/-- The default of a parameter, if an `=` follows its name. -/
def parameterDefault (ts : Tokens) : Except ParseFault (Node × NoMore ts) :=
  match h : visible .bracket ts with
  | ⟨.operator "=", _⟩ :: rest => do
    have := visible_cons_length h
    let (default, ⟨rest, _⟩) ← expression .bracket Operator.assignPower rest
    return (default, ⟨rest, by omega⟩)
  | _ => .ok (.missing, ⟨ts, Nat.le_refl _⟩)
termination_by 5 * ts.length + 1

/-- What the operator or bracket `t` makes of its left operand and the tokens after it. -/
def operatorForm (region : Region) (t : Token) (left : Node) (ts : Tokens) :
    Except ParseFault (Node × NoMore ts) :=
  match t.lexeme with
  | .leftParen => do
    let (args, ⟨rest, _⟩) ← arguments .paren ts
    return (.call left args left.position, ⟨rest, by omega⟩)
  | .leftBracket => do
    let (args, ⟨rest, _⟩) ← arguments .bracket ts
    return (.call (.symbol "[" t.position) (⟨none, left⟩ :: args) left.position,
      ⟨rest, by omega⟩)
  | .leftDouble => do
    let (args, ⟨rest, _⟩) ← arguments .bracket ts
    let ⟨rest, _⟩ ← expect region "RBRACKET" (· matches .rightBracket) rest
    return (.call (.symbol "[[" t.position) (⟨none, left⟩ :: args) left.position,
      ⟨rest, by omega⟩)
  | .operator name =>
    if name = "$" ∨ name = "@" ∨ ((name = "::" ∨ name = ":::") ∧ isNamespace left) then do
      let (right, ⟨rest, _⟩) ← member name ts
      return (.call (.symbol name t.position) [⟨none, left⟩, ⟨none, right⟩] left.position,
        ⟨rest, by omega⟩)
    else if name = "::" ∨ name = ":::" then unexpected (t :: ts)
    else
      match Operator.binary? name with
      | none => unexpected (t :: ts)
      | some binding => do
        have := skipBreaks_length ts
        let power := if binding.rightAssociative then binding.power - 1 else binding.power
        let (right, ⟨rest, _⟩) ← expression region power (skipBreaks ts)
        let node ← combine name t.position left right
        return (node, ⟨rest, by omega⟩)
  | _ => unexpected (t :: ts)
termination_by 5 * ts.length + 4

/-- The arguments of a call up to and including the closing bracket. -/
def arguments (closing : Closing) (ts : Tokens) :
    Except ParseFault (List (Arg Node) × Fewer ts) :=
  match h : visible .bracket ts with
  | [] => unexpected []
  | t :: rest =>
    if closing.accepts t.lexeme then .ok ([], ⟨rest, visible_cons_length h⟩)
    else argumentList closing ts
termination_by 5 * ts.length + 3

/-- At least one argument, and those after it. -/
def argumentList (closing : Closing) (ts : Tokens) :
    Except ParseFault (List (Arg Node) × Fewer ts) := do
  let (arg, ⟨rest, _⟩) ← argument closing ts
  match h : visible .bracket rest with
  | [] => problemAt [] (.afterArgument none)
  | t :: after =>
    have := visible_cons_length h
    if closing.accepts t.lexeme then return ([arg], ⟨after, by omega⟩)
    else if t.lexeme matches .comma then
      let (more, ⟨rest, _⟩) ← argumentList closing after
      return (arg :: more, ⟨rest, by omega⟩)
    else problemAt (t :: after) (.afterArgument (some t.lexeme))
termination_by 5 * ts.length + 2

/-- One argument with its name, if it has one. -/
def argument (closing : Closing) (ts : Tokens) : Except ParseFault (Arg Node × Fewer ts) :=
  match h : visible .bracket ts with
  | [] => unexpected []
  | t :: rest =>
    have := visible_cons_length h
    if closing.endsArgument t.lexeme then problemAt (t :: rest) .emptyArgument
    else
      match argumentName? t rest with
      | none => do
        let (value, rest) ← expression .bracket 0 ts
        return (⟨none, value⟩, rest)
      | some (name, ⟨after, _⟩) =>
        if (found (visible .bracket after)).any closing.endsArgument then
          problemAt (visible .bracket after) (.missingValue name)
        else do
          let (value, ⟨rest, _⟩) ← expression .bracket Operator.assignPower after
          if name = "" then throw .emptyArgumentName
          return (⟨some name, value⟩, ⟨rest, by omega⟩)
termination_by 5 * ts.length + 1

end

/-- Every top-level expression of a list of tokens. -/
def program (ts : Tokens) : Except ParseFault (List Node) :=
  have hskip := skipSeparators_length ts
  match h : skipSeparators ts with
  | [] => .ok []
  | t :: rest => do
    have hlength : (t :: rest).length ≤ ts.length := by rw [h] at hskip; exact hskip
    let (node, ⟨rest, _⟩) ← expression .top 0 (t :: rest)
    if endsExpression rest then return node :: (← program rest)
    else unexpected rest
termination_by ts.length

end Parser

end RCode
