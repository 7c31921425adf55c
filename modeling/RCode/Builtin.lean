/-!
# Functions

The functions a name can be bound to: the operators and functions of the base environment, the tools
that take and give trees, and those that a caller brings along. What the first two kinds do is
defined in `RCode.Function`; the others are known by what they give (`Host`).
-/

set_option autoImplicit false

namespace RCode

/-- A function of the base environment or a tool. -/
inductive Builtin where
  | add
  | subtract
  | multiply
  | divide
  | power
  | modulo
  | floorDivide
  | equal
  | notEqual
  | less
  | greater
  | lessEqual
  | greaterEqual
  | negation
  | conjunction
  | conjunctionTwice
  | disjunction
  | disjunctionTwice
  | combine
  | list
  | paste
  | pasteTight
  | length
  | sum
  | asName
  | parseExpression
  | buildCall
  | makeSymbol
  | quoteValue
  | renderNode
deriving DecidableEq, Repr

namespace Builtin

/-- The functions of the base environment under their names. -/
def base : List (String × Builtin) := [
  ("+", .add), ("-", .subtract), ("*", .multiply), ("/", .divide), ("^", .power),
  ("%%", .modulo), ("%/%", .floorDivide),
  ("==", .equal), ("!=", .notEqual), ("<", .less), (">", .greater), ("<=", .lessEqual),
  (">=", .greaterEqual),
  ("!", .negation), ("&", .conjunction), ("&&", .conjunctionTwice), ("|", .disjunction),
  ("||", .disjunctionTwice),
  ("c", .combine), ("list", .list), ("paste", .paste), ("paste0", .pasteTight),
  ("length", .length), ("sum", .sum), ("as.name", .asName), ("as.symbol", .asName)]

/-- The functions on trees under their names. -/
def tools : List (String × Builtin) := [
  ("parse_expr", .parseExpression), ("call", .buildCall), ("sym", .makeSymbol),
  ("node", .quoteValue), ("render", .renderNode)]

/-- The function with a name. -/
def ofName? (name : String) : Option Builtin :=
  (base ++ tools).lookup name

/-- The type of the function as messages name it. -/
def kind : Builtin → String
  | .multiply | .equal | .notEqual | .less | .greater | .lessEqual | .greaterEqual | .negation =>
    "builtin_function_or_method"
  | .asName => "type"
  | _ => "function"

/-- The function as messages show it, without the place where it is kept. -/
def inspect : Builtin → String
  | .add => "<function _plus>"
  | .subtract => "<function _minus>"
  | .multiply => "<built-in function mul>"
  | .divide => "<function _divide>"
  | .power => "<function _power>"
  | .modulo => "<function _modulo>"
  | .floorDivide => "<function _int_divide>"
  | .equal => "<built-in function eq>"
  | .notEqual => "<built-in function ne>"
  | .less => "<built-in function lt>"
  | .greater => "<built-in function gt>"
  | .lessEqual => "<built-in function le>"
  | .greaterEqual => "<built-in function ge>"
  | .negation => "<built-in function not_>"
  | .conjunction | .conjunctionTwice | .disjunction | .disjunctionTwice => "<function <lambda>>"
  | .combine => "<function _c>"
  | .list => "<function _list>"
  | .paste => "<function _paste>"
  | .pasteTight => "<function _paste0>"
  | .length => "<function _length>"
  | .sum => "<function _sum>"
  | .asName => "<class 'rexpr.parser.ast_nodes.Symbol'>"
  | .parseExpression => "<function parse_expr>"
  | .buildCall => "<function call>"
  | .makeSymbol => "<function sym>"
  | .quoteValue => "<function quote>"
  | .renderNode => "<function render>"

end Builtin

/-- A function that a caller brings along, with a number of its own. -/
structure Foreign where
  number : Nat
  /-- The type of the function as messages name it. -/
  kind : String := "function"
  /-- The function as messages show it. -/
  shown : String
deriving DecidableEq, Repr

/-- A function value. -/
inductive Callable where
  | builtin (f : Builtin)
  | foreign (f : Foreign)
deriving DecidableEq, Repr

namespace Callable

/-- The type of the function as messages name it. -/
def kind : Callable → String
  | .builtin f => f.kind
  | .foreign f => f.kind

/-- The function as messages show it. -/
def inspect : Callable → String
  | .builtin f => f.inspect
  | .foreign f => f.shown

end Callable

end RCode
