import RCode.Call.Basic
import RCode.Node.Printer
import RCode.Source
import RCode.Value.Comparison
import RCode.Value.Vector

/-!
# Applying functions

Every function takes values by place and by name. `Signature.bind` assigns them to the parameters of
functions that have a fixed number of them; the operators that have no parameter names take values
by place only.
-/

set_option autoImplicit false

namespace RCode

/-- Why an application fails. -/
inductive FunctionError where
  /-- The function cannot be applied to these values. -/
  | failure (cause : Failure)
  /-- A part does not fit the node that it is to be put in. -/
  | refused (e : NodeError)
  /-- A value has no tree. -/
  | literal (e : NodeError)
  /-- A text given to be parsed cannot be read. -/
  | unreadable (name : String) (e : SourceError)

namespace FunctionError

/-- The error of a node that cannot be built: a value without a tree, or a value not allowed. -/
def ofNode : NodeError → FunctionError
  | .integerOutOfRange n => .literal (.integerOutOfRange n)
  | .notAtomic kind shown => .literal (.notAtomic kind shown)
  | .sequence n => .literal (.sequence n)
  | .unquotable kind shown => .literal (.unquotable kind shown)
  | e => .refused e

/-- The error of a text that cannot be read. A number too large, a character that does not exist, an
argument without a name and a name of the text that cannot be written are failures of the function,
not of the text. -/
def ofSource (name : Option String) : SourceError → FunctionError
  | .lexical .hexNumberTooLarge _ => .failure .outOfRange
  | .lexical (.noSuchCharacter n) _ =>
    .failure (if n < 2 ^ 31 then .wrongValue else .outOfRange)
  | .emptyArgumentName => .refused .emptyArgumentName
  | e => name.elim (.refused .unwritable) fun name => .unreadable name e

end FunctionError

/-- The result of an application. -/
abbrev Applied := Except FunctionError Value

/-- The named parameters of a function; those of `places` can also be given by place. -/
structure Signature where
  places : List String
  onlyNamed : List String := []

namespace Signature

/-- The values given to a function. -/
structure Given where
  positional : List Value
  named : List (Entry Value)

/-- The value of a parameter: the one in its place or under its name. -/
def value? (s : Signature) (g : Given) (name : String) : Option Value :=
  ((s.places.idxOf? name).bind fun i => g.positional[i]?).or (Entry.find? g.named name)

/-- No value is left over and no parameter gets two. -/
def accepts (s : Signature) (g : Given) : Bool :=
  g.positional.length ≤ s.places.length &&
    g.named.all fun e =>
      e.name ∈ s.onlyNamed || e.name ∈ s.places.drop g.positional.length

/-- Runs a function on the values of its parameters. -/
def bind {α : Type} (s : Signature) (g : Given)
    (body : (String → Option Value) → Except FunctionError α) : Except FunctionError α :=
  if s.accepts g then body (s.value? g) else .error (.failure .wrongType)

end Signature

namespace Application

open Signature

/-- The value a parameter must have. -/
def need (v : Option Value) : Applied :=
  match v with
  | some v => .ok v
  | none => .error (.failure .wrongType)

/-- A failure of an operation on values is one of the function. -/
def lift {α : Type} (x : Except Failure α) : Except FunctionError α :=
  x.mapError .failure

/-- An operation on two values, `a` and `b`. -/
def binary (op : Value → Value → Except Failure Value) (g : Given) : Applied :=
  bind ⟨["a", "b"], []⟩ g fun v => do lift (op (← need (v "a")) (← need (v "b")))

/-- An operation on two values without names. -/
def positionalBinary (op : Value → Value → Except Failure Value) (g : Given) : Applied :=
  match g with
  | ⟨[a, b], []⟩ => lift (op a b)
  | _ => .error (.failure .wrongType)

/-- An operation on two values, or on one if the second is missing or NULL. -/
def signed (one : Value → Except Failure Value) (two : Value → Value → Except Failure Value)
    (g : Given) : Applied :=
  bind ⟨["a", "b"], []⟩ g fun v => do
    let a ← need (v "a")
    let b := (v "b").getD .null
    if b.isNull then lift (one a) else lift (two a b)

/-- An operation on any number of values without names. -/
def variadic (op : List Value → Except Failure Value) (g : Given) : Applied :=
  if g.named.isEmpty then lift (op g.positional) else .error (.failure .wrongType)

/-- The coordinate that a value gives to a symbol. Any value will do. -/
def coordinate : Option Value → Coordinate
  | none => 0
  | some (.atom (.integer n)) => .number n
  | some (.atom (.text s)) => .other (s != "") (some s)
  | some v => .other v.truth v.shown?

/-- A built node as a result. -/
def built (x : Except NodeError Node) : Applied :=
  match x with
  | .ok n => .ok (.node n)
  | .error e => .error (.ofNode e)

/-- The symbol with a name, at a position. -/
def symbolOf (name : Value) (p : Position) : Applied :=
  match name with
  | .atom (.text s) => built (Node.ofName s p)
  | _ => .error (.refused .emptySymbol)

/-- The tree of a text that is one expression. -/
def parsedText (text : String) (name : Option String) : Applied :=
  match Source.expression ⟨text, name.getD ""⟩ with
  | .ok n => .ok (.node n)
  | .error e => .error (.ofSource name e)

/-- The name that error messages give to a text, if it can be written. -/
def sourceName? : Value → Option String
  | .atom (.text s) => some s
  | v => v.shown?

/-- The tree of a value that is the text of one expression; what is empty counts as empty text. -/
def parsed (text : Value) (name : Option String) : Applied :=
  match text with
  | .atom (.text s) => parsedText s name
  | .list [] => parsedText "" name
  | .dict [] => parsedText "" name
  | .dict _ => .error (.failure .noSuchKey)
  | _ => .error (.failure .wrongType)

/-- A call of a head with values as arguments. The head can be given by name. -/
def called (g : Given) : Applied :=
  let build (head : Value) (values : List Value) (named : List (Entry Value)) : Applied :=
    built ((Call.ofValues head values named).map Call.toNode)
  match g.positional, Entry.find? g.named "head" with
  | head :: values, none => build head values g.named
  | [], some head => build head [] (g.named.filter (·.name ≠ "head"))
  | _, _ => .error (.failure .wrongType)

end Application

namespace Builtin

open Signature Application

/-- The result of a function for the given values. -/
def apply (f : Builtin) (w : Workspace) (positional : List Value) (named : List (Entry Value)) :
    Applied :=
  let g : Given := ⟨positional, named⟩
  match f with
  | .add => signed Value.plus (Value.add w) g
  | .subtract => signed (Value.minus w) (Value.subtract w) g
  | .multiply => positionalBinary (Value.multiply w) g
  | .divide => binary (Value.divide w) g
  | .power => binary (Value.power w) g
  | .modulo => binary (Value.modulo w) g
  | .floorDivide => binary (Value.floorDivide w) g
  | .equal => positionalBinary (fun a b => .ok (.logical (a.equal b))) g
  | .notEqual => positionalBinary (fun a b => .ok (.logical (!a.equal b))) g
  | .less => positionalBinary (fun a b => (Value.compareBy .less a b).map .logical) g
  | .greater => positionalBinary (fun a b => (Value.compareBy .greater a b).map .logical) g
  | .lessEqual => positionalBinary (fun a b => (Value.compareBy .lessEqual a b).map .logical) g
  | .greaterEqual =>
    positionalBinary (fun a b => (Value.compareBy .greaterEqual a b).map .logical) g
  | .negation =>
    match g with
    | ⟨[a], []⟩ => .ok (.logical !a.truth)
    | _ => .error (.failure .wrongType)
  | .conjunction | .conjunctionTwice =>
    binary (fun a b => .ok (.logical (a.truth && b.truth))) g
  | .disjunction | .disjunctionTwice =>
    binary (fun a b => .ok (.logical (a.truth || b.truth))) g
  | .combine => variadic (fun values => .ok (Value.combine values)) g
  | .list =>
    .ok (if positional.isEmpty && !named.isEmpty then .dict named
      else .list (positional ++ named.map Entry.value))
  | .paste =>
    if named.all (·.name == "sep") then
      match (Entry.find? named "sep").getD (.text " ") with
      | .atom (.text separator) => lift (Value.paste separator positional)
      | _ => .error (.failure .lacksOperation)
    else .error (.failure .wrongType)
  | .pasteTight => variadic (Value.paste "") g
  | .length => bind ⟨["value"], []⟩ g fun v => do return .integer (← need (v "value")).length
  | .sum => variadic (Value.sum w) g
  | .asName =>
    bind ⟨["name"], ["line", "column"]⟩ g fun v => do
      symbolOf (← need (v "name")) ⟨coordinate (v "line"), coordinate (v "column")⟩
  | .parseExpression =>
    bind ⟨["text", "filename"], []⟩ g fun v => do
      parsed (← need (v "text")) (sourceName? ((v "filename").getD (.text "<input>")))
  | .buildCall => called g
  | .makeSymbol => bind ⟨["name"], []⟩ g fun v => do symbolOf (← need (v "name")) .nowhere
  | .quoteValue =>
    bind ⟨["value"], []⟩ g fun v => do
      built (← need (v "value")).quote
  | .renderNode =>
    bind ⟨["node"], []⟩ g fun v => do
      match ← need (v "node") with
      | .node n => return .text n.render
      | _ => throw (.failure .lacksOperation)

end Builtin

end RCode
