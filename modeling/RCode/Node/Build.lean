import RCode.Node.Basic

/-!
# Building nodes

Nodes are built from arbitrary parts by functions that refuse what would not be well formed, with
the reason.
-/

set_option autoImplicit false

namespace RCode

/-- Why a node cannot be built. -/
inductive NodeError where
  /-- A symbol has an empty name. -/
  | emptySymbol
  /-- An argument has an empty name. -/
  | emptyArgumentName
  /-- A parameter has an empty name. -/
  | emptyParameterName
  /-- Two parameters have the same name. -/
  | repeatedParameter (name : String)
  /-- An argument is the missing marker. -/
  | missingArgument
  /-- A head is the missing marker or a parameter list. -/
  | unusableHead (head : Node)
  /-- An integer is out of range. -/
  | integerOutOfRange (value : Int)
  /-- A value that is no atom is to be a constant. -/
  | notAtomic (kind shown : String)
  /-- A list of any length but one is to be a node. -/
  | sequence (length : Nat)
  /-- A value without a node form is to be a node. -/
  | unquotable (kind shown : String)
  /-- A value that is to be a node has no text, so that no message can show it. -/
  | unwritable

namespace NodeError

def message : NodeError → String
  | .emptySymbol => "symbol name must be a non-empty string"
  | .emptyArgumentName => "argument name must be None or a non-empty string"
  | .emptyParameterName => "parameter name must be a non-empty string"
  | .repeatedParameter name => "repeated formal argument '" ++ name ++ "'"
  | .missingArgument => "call arguments cannot hold the missing-argument marker"
  | .unusableHead head => head.inspect ++ " cannot be the head of a call"
  | .integerOutOfRange value =>
    "integer " ++ toString value ++ " is outside the R integer range"
  | .notAtomic kind shown =>
    "cannot represent " ++ kind ++ " value " ++ shown ++ " as a constant"
  | .sequence length =>
    "a sequence of length " ++ toString length ++
      " cannot be a constant; build it with a call such as c(...)"
  | .unquotable kind shown => "cannot represent " ++ kind ++ " value " ++ shown ++ " as a node"
  | .unwritable => Text.tooLong

end NodeError

/-- An argument; its name is not empty and its value not missing. -/
def Arg.build (name : Option String) (value : Node) : Except NodeError (Arg Node) :=
  if name = some "" then .error .emptyArgumentName
  else if value.isMissing then .error .missingArgument
  else .ok ⟨name, value⟩

/-- A parameter; its name is not empty. -/
def Param.build (name : String) (default : Node) : Except NodeError (Param Node) :=
  if name = "" then .error .emptyParameterName else .ok ⟨name, default⟩

namespace Node

/-- A constant; an integer is in range. -/
def ofAtom (value : Atom) (position : Position) : Except NodeError Node :=
  match value with
  | .integer n =>
    if n.natAbs ≤ Atom.integerLimit then .ok (.constant value position)
    else .error (if value.isWritable then .integerOutOfRange n else .unwritable)
  | _ => .ok (.constant value position)

/-- A symbol; its name is not empty. -/
def ofName (name : String) (position : Position) : Except NodeError Node :=
  if name = "" then .error .emptySymbol else .ok (.symbol name position)

/-- A call; its head is neither missing nor a parameter list. -/
def ofCall (head : Node) (args : List (Arg Node)) (position : Position) : Except NodeError Node :=
  if head.isMissing || head.isParams then .error (.unusableHead head)
  else .ok (.call head args position)

/-- The first name that occurred before. -/
def firstRepeated? (seen : List String) : List String → Option String
  | [] => none
  | name :: rest => if name ∈ seen then some name else firstRepeated? (name :: seen) rest

/-- A parameter list; its names differ. -/
def ofParams (items : List (Param Node)) (position : Position) : Except NodeError Node :=
  match firstRepeated? [] (items.map Param.name) with
  | some name => .error (.repeatedParameter name)
  | none => .ok (.params items position)

end Node

end RCode
