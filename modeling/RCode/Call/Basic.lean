import RCode.Value

/-!
# Calls

A call seen on its own, apart from the other kinds of nodes: its head, its arguments and where it
was read. Arguments are found by name, where the first of that name counts, and by index from either
end.
-/

set_option autoImplicit false

namespace RCode

/-- The application of a head to arguments. -/
structure Call where
  head : Node
  args : List (Arg Node)
  position : Position

/-- The call a node is. -/
def Node.call? : Node → Option Call
  | .call head args p => some ⟨head, args, p⟩
  | _ => none

namespace Call

/-- The call as a node. -/
def toNode (c : Call) : Node :=
  .call c.head c.args c.position

/-- The names of the arguments, in order. -/
def names (c : Call) : List (Option String) :=
  c.args.map Arg.name

/-- The values of the unnamed arguments, in order. -/
def positional (c : Call) : List Node :=
  (c.args.filter fun a => a.name.isNone).map Arg.value

/-- The value of the first argument with a name. -/
def get? (c : Call) (name : String) : Option Node :=
  (c.args.find? fun a => a.name = some name).map Arg.value

/-- The named arguments; of several with one name only the first. -/
def named (c : Call) : List (Entry Node) :=
  go [] c.args
where
  /-- The named arguments whose names are not among those seen. -/
  go (seen : List String) : List (Arg Node) → List (Entry Node)
    | [] => []
    | a :: rest =>
      match a.name with
      | some name => if name ∈ seen then go seen rest else ⟨name, a.value⟩ :: go (name :: seen) rest
      | none => go seen rest

/-! ## Building calls -/

/-- A call; its head is neither missing nor a parameter list. -/
def build (head : Node) (args : List (Arg Node)) (position : Position) : Except NodeError Call :=
  if head.isMissing || head.isParams then .error (.unusableHead head)
  else .ok ⟨head, args, position⟩

/-- Arguments from values: first the unnamed ones, then the named ones. -/
def quoteArgs (values : List Value) (named : List (Entry Value)) :
    Except NodeError (List (Arg Node)) := do
  let unnamed ← values.mapM fun v => do Arg.build none (← v.quote)
  let named ← named.mapM fun e => do Arg.build (some e.name) (← e.value.quote)
  return unnamed ++ named

/-- A call of a head with values as arguments. A text as head is the name of a function; everything
else stands for its tree. -/
def ofValues (head : Value) (values : List Value) (named : List (Entry Value)) :
    Except NodeError Call := do
  let head ←
    match head with
    | .atom (.text name) => Node.ofName name .nowhere
    | v => v.quote
  build head (← quoteArgs values named) .nowhere

/-- The definition of a function with the given parameters and body. -/
def ofFunction (items : List (Param Node)) (body : Value) : Except NodeError Call := do
  let items ← items.mapM fun p => Param.build p.name p.default
  let params ← Node.ofParams items .nowhere
  let body ← Arg.build none (← body.quote)
  build (.symbol "function" .nowhere) [⟨none, params⟩, body] .nowhere

end Call

end RCode
