import RCode.Evaluation
import RCode.Node.Traversal

/-!
# Expanding marked parts of trees

A quoted tree can hold parts that are to be evaluated. An escape, written `.(e)`, stands for the
tree of the value of `e`; a splice, written `..(e)`, stands for several arguments of the call around
it, one for each item of the value of `e`. Every other node stays as it is.

The operand of a marker is evaluated at the place of the marker.
-/

set_option autoImplicit false

namespace RCode

/-- The names that mark the parts to be evaluated; splices can be turned off. -/
structure Markers where
  escape : String := "."
  splice : Option String := some ".."

namespace Markers

/-- A call with this head is an escape, whatever its arguments. -/
def isEscape (m : Markers) (head : Node) : Bool :=
  head.name? == some m.escape

/-- A call with this head is a splice, whatever its arguments. -/
def isSplice (m : Markers) (head : Node) : Bool :=
  m.splice.isSome && head.name? == m.splice

/-- The names of the markers. -/
def names (m : Markers) : List String :=
  m.escape :: m.splice.toList

end Markers

/-- Why a marker is malformed. -/
inductive MarkerProblem where
  /-- A splice is no argument of a call. -/
  | misplacedSplice (splice : String)
  /-- An escape gives a head that no call can have. -/
  | unusableHead (escape : String) (head : Node)
  /-- A marker gives the missing argument. -/
  | missingArgument
  /-- A splice stands for the value of a named argument. -/
  | namedSplice (splice name : String)
  /-- A marker has some other number of arguments than one. -/
  | wrongCount (marker : String) (count : Nat)
  /-- The argument of a marker is named. -/
  | namedOperand (marker name : String)

namespace MarkerProblem

def message : MarkerProblem → String
  | .misplacedSplice splice => splice ++ "() may only be used as a call argument"
  | .unusableHead escape head =>
    escape ++ "() gave " ++ head.inspect ++ ", which cannot be the head of a call"
  | .missingArgument => "the missing argument cannot be inserted as a call argument"
  | .namedSplice splice name => splice ++ "() cannot be given a name ('" ++ name ++ "')"
  | .wrongCount marker count =>
    marker ++ "() takes exactly one argument, got " ++ toString count
  | .namedOperand marker name =>
    "the argument of " ++ marker ++ "() cannot be named ('" ++ name ++ "')"

end MarkerProblem

/-- Why an expansion fails. -/
inductive ExpansionError where
  | malformed (problem : MarkerProblem) (position : Position)
  /-- A marker is malformed, and its position cannot be written. -/
  | unwritable
  /-- A marked part has no value. -/
  | evaluation (e : EvalError)
  /-- The value of a marked part has no tree. -/
  | node (e : NodeError)

namespace ExpansionError

/-- The error of a malformed marker at a position, which the message shows if it is set. -/
def ofMarker (problem : MarkerProblem) (p : Position) : ExpansionError :=
  if p.line.isSet ∧ p.text? = none then .unwritable else .malformed problem p

/-- A place, where there is one. -/
def place (p : Position) : String :=
  if p.line.isSet then
    " (line " ++ p.line.text?.getD "" ++ ", column " ++ p.column.text?.getD "" ++ ")"
  else ""

def message : ExpansionError → String
  | .malformed problem p => problem.message ++ place p
  | .unwritable => Text.tooLong
  | .evaluation e => e.message
  | .node e => e.message

end ExpansionError

namespace Expansion

/-- Where an expanded tree goes. -/
inductive Site where
  /-- The root of a tree, or the default of a parameter. -/
  | free
  | head
  | argument
deriving DecidableEq, Repr

/-- A new head, inserted at a position. -/
def checkHead (m : Markers) (p : Position) (head : Node) : Except ExpansionError Node :=
  if head.isMissing || head.isParams then .error (.ofMarker (.unusableHead m.escape head) p)
  else .ok head

/-- A new value of an argument, inserted at a position. -/
def checkArgument (p : Position) (value : Node) : Except ExpansionError Node :=
  if value.isMissing then .error (.ofMarker .missingArgument p) else .ok value

/-- The check of a tree that is inserted at a site, for what stood at `p`. -/
def Site.check (m : Markers) (p : Position) : Site → Node → Except ExpansionError Node
  | .free, n => .ok n
  | .head, n => checkHead m p n
  | .argument, n => checkArgument p n

/-! ## Markers -/

/-- The only argument of a marker. -/
def operand (marker : String) (p : Position) : List (Arg Node) → Except ExpansionError Node
  | [⟨none, value⟩] => .ok value
  | [⟨some name, _⟩] => .error (.ofMarker (.namedOperand marker name) p)
  | args => .error (.ofMarker (.wrongCount marker args.length) p)

/-- The value of the argument of a marker. -/
def operandValue (h : Host) (c : Context) (marker : String) (p : Position)
    (args : List (Arg Node)) : Except ExpansionError Value := do
  let n ← operand marker p args
  (n.evaluate h c).mapError .evaluation

/-- The tree that an escape stands for. -/
def unquote (m : Markers) (h : Host) (c : Context) (args : List (Arg Node)) (p : Position) :
    Except ExpansionError Node := do
  let v ← operandValue h c m.escape p args
  v.quote.mapError .node

/-- An argument with a value, inserted at a position. -/
def insertedArg (p : Position) (name : Option String) (v : Value) :
    Except ExpansionError (Arg Node) := do
  let value ← checkArgument p (← v.quote.mapError .node)
  (Arg.build name value).mapError .node

/-- The values that a splice inserts, one argument for each, with the names of the arguments: those of
a list are unnamed, those of a list with names are named, NULL gives none, and every other value
stands for itself. -/
def spliceItems : Value → List (Option String × Value)
  | .dict entries => entries.map fun e => (some e.name, e.value)
  | .list items => items.map fun v => (none, v)
  | .atom .null => []
  | v => [(none, v)]

/-- The arguments that a splice stands for. -/
def splicedArgs (h : Host) (c : Context) (splice : String) (args : List (Arg Node))
    (p : Position) : Except ExpansionError (List (Arg Node)) := do
  let v ← operandValue h c splice p args
  (spliceItems v).mapM fun (name, item) => insertedArg p name item

/-- The name, arguments and position of a splice. -/
def splice? (m : Markers) : Node → Option (String × List (Arg Node) × Position)
  | .call head args p =>
    if m.isSplice head then m.splice.map fun name => (name, args, p) else none
  | _ => none

/-- The arguments that a splice among arguments stands for, which has a name of its own or not. -/
def unsplice (h : Host) (c : Context) (name : Option String) (splice : String)
    (args : List (Arg Node)) (p : Position) : Except ExpansionError (List (Arg Node)) :=
  match name with
  | some name => .error (.ofMarker (.namedSplice splice name) p)
  | none => splicedArgs h c splice args p

/-! ## Trees -/

mutual

/-- The tree with its markers expanded, for its site. Only what an escape gives must be checked: all
else in the tree has its place already. -/
def expandAt (m : Markers) (h : Host) (c : Context) (site : Site) :
    Node → Except ExpansionError Node
  | .call head args p =>
    if m.isEscape head then do site.check m p (← unquote m h c args p)
    else if m.isSplice head then .error (.ofMarker (.misplacedSplice (m.splice.getD "")) p)
    else do
      let head' ← expandAt m (h.under 0) c .head head
      let args' ← expandArgs m h.arguments c args
      return .call head' args' p
  | .params items p => do return .params (← expandParams m h.arguments c items) p
  | n => .ok n

/-- The arguments with their markers expanded, from left to right. -/
def expandArgs (m : Markers) (hs : Nat → Host) (c : Context) :
    List (Arg Node) → Except ExpansionError (List (Arg Node))
  | [] => .ok []
  | a :: rest => do
    let new ←
      match splice? m a.value with
      | some (splice, args, p) => unsplice (hs 0) c a.name splice args p
      | none => (expandAt m (hs 0) c .argument a.value).map fun value => [⟨a.name, value⟩]
    let rest' ← expandArgs m (fun i => hs (i + 1)) c rest
    return new ++ rest'

/-- The parameters with the markers in their defaults expanded, in order. -/
def expandParams (m : Markers) (hs : Nat → Host) (c : Context) :
    List (Param Node) → Except ExpansionError (List (Param Node))
  | [] => .ok []
  | q :: rest => do
    let default' ← expandAt m (hs 0) c .free q.default
    let rest' ← expandParams m (fun i => hs (i + 1)) c rest
    return ⟨q.name, default'⟩ :: rest'

end

end Expansion

namespace Node

/-- The tree with its markers expanded. -/
def expand (n : Node) (h : Host) (c : Context) (m : Markers := {}) : Except ExpansionError Node :=
  Expansion.expandAt m h c .free n

/-- The tree has an escape or a splice. -/
def hasMarkers (n : Node) (m : Markers := {}) : Bool :=
  n.any (isCallTo m.names)

end Node

end RCode
