import RCode.Atom
import RCode.Position

/-!
# Expression trees

A tree has five kinds of nodes: constants, symbols, the missing-argument marker, calls and parameter
lists. Operators and control flow are calls too: `a + b` is a call of the symbol `+`. The positions
say where a node was read; equality ignores them (`Node.same`).

Trees are plain data. What a tree has to satisfy to be well formed is a predicate
(`Node.WellFormed`), and the functions that build nodes from arbitrary parts check it.
-/

set_option autoImplicit false

namespace RCode

/-- An argument of a call: a value with an optional name. -/
structure Arg (α : Type) where
  name : Option String
  value : α

/-- A formal parameter with its default; the missing marker is no default. -/
structure Param (α : Type) where
  name : String
  default : α

/-- An expression tree. -/
inductive Node where
  /-- A literal value. -/
  | constant (value : Atom) (position : Position)
  /-- A name. -/
  | symbol (name : String) (position : Position)
  /-- The omitted argument. -/
  | missing
  /-- The application of a head to arguments. -/
  | call (head : Node) (args : List (Arg Node)) (position : Position)
  /-- The formal parameters of a function definition. -/
  | params (items : List (Param Node)) (position : Position)

instance : Inhabited Node := ⟨.missing⟩

namespace Node

/-- Where the node was read. -/
def position : Node → Position
  | .constant _ p => p
  | .symbol _ p => p
  | .missing => .nowhere
  | .call _ _ p => p
  | .params _ p => p

/-- The name of a symbol. -/
def name? : Node → Option String
  | .symbol name _ => some name
  | _ => none

/-- The name that an assignment to the node is about: a text stands for the symbol of that name. -/
def targetName? : Node → Option String
  | .symbol name _ => some name
  | .constant (.text name) _ => some name
  | _ => none

def isMissing : Node → Bool
  | .missing => true
  | _ => false

def isParams : Node → Bool
  | .params _ _ => true
  | _ => false

/-- The node is a call whose head is a symbol with one of the names. -/
def isCallTo (names : List String) : Node → Bool
  | .call (.symbol name _) _ _ => name ∈ names
  | _ => false

/-- The name of the called function, when the head is a symbol. -/
def callName? : Node → Option String
  | .call head _ _ => head.name?
  | _ => none

/-- The direct children: the head and the argument values of a call, the defaults of a parameter
list. -/
def children : Node → List Node
  | .call head args _ => head :: args.map Arg.value
  | .params items _ => items.map Param.default
  | _ => []

/-- What kind of node this is, in the words of the language. -/
def typeName : Node → String
  | .constant _ _ => "constant"
  | .symbol _ _ => "symbol"
  | .missing => "missing"
  | .call _ _ _ => "call"
  | .params _ _ => "pairlist"

/-! ## Equality up to positions -/

mutual

/-- The same tree, wherever it was read. -/
def same : Node → Node → Bool
  | .constant a _, .constant b _ => a.same b
  | .symbol m _, .symbol n _ => m == n
  | .missing, .missing => true
  | .call head args _, .call head' args' _ => head.same head' && sameArgs args args'
  | .params items _, .params items' _ => sameParams items items'
  | _, _ => false

/-- The same arguments under the same names. -/
def sameArgs : List (Arg Node) → List (Arg Node) → Bool
  | [], [] => true
  | a :: as, b :: bs => a.name == b.name && a.value.same b.value && sameArgs as bs
  | _, _ => false

/-- The same parameters with the same defaults. -/
def sameParams : List (Param Node) → List (Param Node) → Bool
  | [], [] => true
  | p :: ps, q :: qs => p.name == q.name && p.default.same q.default && sameParams ps qs
  | _, _ => false

end

/-- The same program, tree by tree. -/
def sameProgram : List Node → List Node → Bool
  | [], [] => true
  | a :: as, b :: bs => a.same b && sameProgram as bs
  | _, _ => false

/-! ## Well-formed trees -/

mutual

/-- Literals are in range, names are not empty, heads are neither missing nor parameters, arguments
are not missing, and the parameters of a list differ. -/
def WellFormed : Node → Prop
  | .constant a _ => a.isLiteral = true
  | .symbol name _ => name ≠ ""
  | .missing => True
  | .call head args _ =>
    head.isMissing = false ∧ head.isParams = false ∧ head.WellFormed ∧ WellFormedArgs args
  | .params items _ => (items.map Param.name).Nodup ∧ WellFormedParams items

/-- Every argument has a name that is not empty or none, and a well-formed value. -/
def WellFormedArgs : List (Arg Node) → Prop
  | [] => True
  | a :: rest =>
    a.name ≠ some "" ∧ a.value.isMissing = false ∧ a.value.WellFormed ∧ WellFormedArgs rest

/-- Every parameter has a name that is not empty and a well-formed default. -/
def WellFormedParams : List (Param Node) → Prop
  | [] => True
  | p :: rest => p.name ≠ "" ∧ p.default.WellFormed ∧ WellFormedParams rest

end

/-! ## Text of nodes in messages -/

mutual

/-- The node as messages show it. -/
def inspect : Node → String
  | .constant a _ => "Constant(" ++ a.inspect ++ ")"
  | .symbol name _ => "Symbol(" ++ Text.quoted name ++ ")"
  | .missing => "MISSING"
  | .call head args _ =>
    "Call(" ++ head.inspect ++ ", [" ++ ", ".intercalate (inspectArgs args) ++ "])"
  | .params items _ => "ParamList([" ++ ", ".intercalate (inspectParams items) ++ "])"

/-- The arguments as messages show them. -/
def inspectArgs : List (Arg Node) → List String
  | [] => []
  | a :: rest =>
    (match a.name with
      | none => a.value.inspect
      | some name => name ++ "=" ++ a.value.inspect) :: inspectArgs rest

/-- The parameters as messages show them. -/
def inspectParams : List (Param Node) → List String
  | [] => []
  | p :: rest =>
    (if p.default.isMissing then p.name else p.name ++ "=" ++ p.default.inspect) ::
      inspectParams rest

end

/-- The class of the node as messages name it. -/
def kind : Node → String
  | .constant _ _ => "Constant"
  | .symbol _ _ => "Symbol"
  | .missing => "MissingArg"
  | .call _ _ _ => "Call"
  | .params _ _ => "ParamList"

end Node

end RCode
