import RCode.Context
import RCode.Function
import RCode.Host

/-!
# Evaluation

Trees are evaluated in a context, which is only ever read. Constants stand for themselves, symbols
for what they are bound to, and calls apply functions to the values of their arguments, except for
the calls of some names, which have rules of their own (`Form`). Loops and definitions of functions
are not evaluated. The rest of the world is a host, and each part of a tree has its own
(`Host.under`).

Assignments need a block around them. The outermost block starts a private frame on top of the
context, the blocks inside it share that frame, and it is gone when the block ends. Evaluation
passes the frame along: `none` stands for the outside of all blocks.
-/

set_option autoImplicit false

namespace RCode

/-- Why a condition is neither true nor false. -/
inductive ConditionProblem where
  | severalItems
  | empty
  | notANumber
  | text
deriving DecidableEq, Repr

namespace ConditionProblem

def message : ConditionProblem → String
  | .severalItems => "the condition has length other than 1"
  | .empty => "argument is of length zero"
  | .notANumber => "missing value where TRUE/FALSE needed"
  | .text => "argument is not interpretable as logical"

end ConditionProblem

/-- Why a tree has no value. -/
inductive EvalError where
  | unbound (name : String)
  | missingArgument
  | parameterList
  /-- A form has some other number of arguments than the expected one. -/
  | wrongCount (form : String) (expected count : Nat)
  /-- A conditional has neither two nor three arguments. -/
  | wrongConditional (count : Nat)
  /-- An assignment to the frame around. -/
  | outwardAssignment
  /-- A loop, a jump or a definition of a function. -/
  | unsupported (form : String)
  | outsideBlock
  /-- An assignment to anything but a name. -/
  | notAName
  /-- An assignment to the empty name. -/
  | emptyName
  | notAFunction (shown : String)
  /-- Something that is called is no function and has no text, so that no message can show it. -/
  | unwritable
  | condition (problem : ConditionProblem)
  /-- A function cannot be applied to the values of its arguments, as the text explains. -/
  | failedCall (name : String) (cause : Failure) (text : String)
  /-- A function of the caller has raised an error of this library, by its class. -/
  | raised (kind message : String)
  /-- A function met a value without a tree. -/
  | literal (e : NodeError)
  /-- A function met a text that cannot be read. -/
  | unreadable (name : String) (e : SourceError)

namespace EvalError

def message : EvalError → String
  | .unbound name => "object '" ++ name ++ "' not found"
  | .missingArgument => "argument is missing, with no default"
  | .parameterList => "a parameter list cannot be evaluated on its own"
  | .wrongCount form expected count =>
    "'" ++ form ++ "' takes " ++ toString expected ++ " argument(s), got " ++ toString count
  | .wrongConditional count => "'if' takes 2 or 3 arguments, got " ++ toString count
  | .outwardAssignment => "'<<-' would modify an enclosing context"
  | .unsupported form => "'" ++ form ++ "' cannot be evaluated here"
  | .outsideBlock => "assignment is only allowed inside a block"
  | .notAName => "only plain names can be assigned to"
  | .emptyName => NodeError.message .emptySymbol
  | .notAFunction shown => "attempt to apply non-function " ++ shown
  | .unwritable => NodeError.message .unwritable
  | .condition problem => problem.message
  | .failedCall name _ text => "error in " ++ name ++ "(): " ++ text
  | .raised _ message => message
  | .literal e => e.message
  | .unreadable name e => e.message name

/-- The error of a call of `name` whose function fails; `words` explain a cause. -/
def ofFunction (name : String) (words : Failure → String) : FunctionError → EvalError
  | .failure cause => .failedCall name cause (words cause)
  | .refused e => .failedCall name .wrongValue e.message
  | .literal e => .literal e
  | .unreadable source e => .unreadable source e

/-- The error of a call of `name` whose function, one of the caller, raises an error. -/
def ofRaised (name : String) : Raised → EvalError
  | .own kind message => .raised kind message
  | .other kind message => .failedCall name (.other kind) message

end EvalError

/-- A kind of calls that are no applications of functions. -/
inductive Form where
  /-- The argument itself, unevaluated. -/
  | quotation
  | group
  | block
  | assignment
  | outwardAssignment
  | conditional
  | unsupported
deriving DecidableEq, Repr

namespace Form

/-- The names of the forms. -/
def table : List (String × Form) := [
  ("quote", .quotation), ("(", .group), ("\x7b", .block), ("<-", .assignment), ("=", .assignment),
  ("<<-", .outwardAssignment), ("if", .conditional), ("function", .unsupported),
  ("for", .unsupported), ("while", .unsupported), ("repeat", .unsupported),
  ("break", .unsupported), ("next", .unsupported)]

/-- The form with a name. -/
def ofName? (name : String) : Option Form :=
  table.lookup name

end Form

/-- Whether a value is true as a condition. -/
def Value.condition (v : Value) : Except ConditionProblem Bool :=
  match v with
  | .list [item] => single item
  | .list _ => .error .severalItems
  | v => single v
where
  /-- Whether a value that counts as one thing is true. -/
  single : Value → Except ConditionProblem Bool
    | .atom .null => .error .empty
    | .atom (.text _) => .error .text
    | .atom (.double x) => if Double.isNaN x then .error .notANumber else .ok (!Double.isZero x)
    | .atom (.nan _) => .error .notANumber
    | v => .ok v.truth

namespace Evaluation

/-- The private frame of the blocks around, or none outside of all blocks. -/
abbrev Locals := Option Frame

/-- What names mean where the private frame, if any, lies on top of the context. -/
def scope (c : Context) (locals : Locals) : Context :=
  locals.elim c c.child

/-- The name that a target of an assignment stands for. -/
def targetName (n : Node) : Except EvalError String :=
  match n.targetName? with
  | some name => if name = "" then .error .emptyName else .ok name
  | none => .error .notAName

/-- The values of the arguments without names. -/
def positional (args : List (Arg Value)) : List Value :=
  args.filterMap fun a => if a.name.isNone then some a.value else none

/-- The values of the arguments with names. Of those with one name the last one counts. -/
def named (args : List (Arg Value)) : List (Entry Value) :=
  Entry.distinct (args.filterMap fun a => a.name.map fun name => ⟨name, a.value⟩)

/-- Applies the function that a call names to the values of its arguments. -/
def applyFunction (h : Host) (name : String) (f : Callable) (args : List (Arg Value)) :
    Except EvalError Value :=
  match f with
  | .builtin f =>
    (f.apply h.workspace (positional args) (named args)).mapError
      (EvalError.ofFunction name (h.words f (positional args) (named args)))
  | .foreign f =>
    (h.call f (h.object []) (positional args) (named args)).mapError (EvalError.ofRaised name)

mutual

/-- The value of a tree, and the private frame after it. -/
def eval (h : Host) (c : Context) (locals : Locals) : Node → Except EvalError (Value × Locals)
  | .constant a _ => .ok (.atom a, locals)
  | .symbol name _ =>
    match (scope c locals).lookup? name with
    | some v => .ok (v, locals)
    | none => .error (.unbound name)
  | .missing => .error .missingArgument
  | .params _ _ => .error .parameterList
  | .call head args _ =>
    match head.name?.bind Form.ofName?, args with
    | some .quotation, [a] => .ok (.node a.value, locals)
    | some .group, [a] => eval (h.arguments 0) c locals a.value
    | some .block, args =>
      match locals with
      | some frame => evalBlock h.arguments c (some frame) .null args
      | none => (evalBlock h.arguments c (some []) .null args).map fun (v, _) => (v, none)
    | some .assignment, [target, a] =>
      match locals with
      | none => .error .outsideBlock
      | some frame => do
        let name ← targetName target.value
        let (v, locals) ← eval (h.arguments 1) c (some frame) a.value
        return (v, locals.map fun frame => Entry.put frame name v)
    | some .outwardAssignment, _ => .error .outwardAssignment
    | some .conditional, [test, yes] => do
      let (v, locals) ← eval (h.arguments 0) c locals test.value
      if ← v.condition.mapError .condition then eval (h.arguments 1) c locals yes.value
      else return (.null, locals)
    | some .conditional, [test, yes, no] => do
      let (v, locals) ← eval (h.arguments 0) c locals test.value
      if ← v.condition.mapError .condition then eval (h.arguments 1) c locals yes.value
      else eval (h.arguments 2) c locals no.value
    | some .conditional, args => .error (.wrongConditional args.length)
    | some .unsupported, _ => .error (.unsupported (head.name?.getD ""))
    | some .assignment, args => .error (.wrongCount (head.name?.getD "") 2 args.length)
    | some _, args => .error (.wrongCount (head.name?.getD "") 1 args.length)
    | none, args => do
      let (f, locals) ← eval (h.under 0) c locals head
      match f with
      | .function f =>
        let (values, locals) ← evalArgs h.arguments c locals args
        return (← applyFunction h (head.name?.getD "function") f values, locals)
      | v => throw (v.shown?.elim .unwritable .notAFunction)

/-- The values of arguments, from left to right; `hs` are their hosts. -/
def evalArgs (hs : Nat → Host) (c : Context) (locals : Locals) :
    List (Arg Node) → Except EvalError (List (Arg Value) × Locals)
  | [] => .ok ([], locals)
  | a :: rest => do
    let (v, locals) ← eval (hs 0) c locals a.value
    let (vs, locals) ← evalArgs (fun i => hs (i + 1)) c locals rest
    return (⟨a.name, v⟩ :: vs, locals)

/-- The value of the last statement, or `last` if there is none; `hs` are the hosts of the
statements. -/
def evalBlock (hs : Nat → Host) (c : Context) (locals : Locals) (last : Value) :
    List (Arg Node) → Except EvalError (Value × Locals)
  | [] => .ok (last, locals)
  | a :: rest => do
    let (v, locals) ← eval (hs 0) c locals a.value
    evalBlock (fun i => hs (i + 1)) c locals v rest

end

end Evaluation

/-- The value of a tree in a context. -/
def Node.evaluate (n : Node) (h : Host) (c : Context) : Except EvalError Value :=
  (Evaluation.eval h c none n).map Prod.fst

end RCode
