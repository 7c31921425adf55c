import RCode.NameSet
import RCode.Node.Basic
import RCode.Operator

/-!
# Assigned names

The names that a program assigns to. Only assignments to symbols count: `x$a <- 1` assigns to
nothing here. Assigned values are searched too, so `a <- b <- 1` assigns to both names.
-/

set_option autoImplicit false

namespace RCode.Node

/-- The symbol that a call assigns to, by its head and arguments. -/
def assignedName? (head : Node) (args : List (Arg Node)) : Option String :=
  match head, args with
  | .symbol name _, [target, _] => if name ∈ Operator.assignments then target.value.name? else none
  | _, _ => none

mutual

/-- The names assigned to in the tree, in order. -/
def assignedNames : Node → List String
  | .call head args _ =>
    match assignedName? head args, args with
    | some name, [_, value] => name :: assignedNames value.value
    | _, args => assignedNames head ++ assignedNamesArgs args
  | .params items _ => assignedNamesParams items
  | _ => []

/-- The names assigned to in the values of arguments. -/
def assignedNamesArgs : List (Arg Node) → List String
  | [] => []
  | a :: rest => assignedNames a.value ++ assignedNamesArgs rest

/-- The names assigned to in the defaults of parameters. -/
def assignedNamesParams : List (Param Node) → List String
  | [] => []
  | p :: rest => assignedNames p.default ++ assignedNamesParams rest

end

/-- The set of names assigned to in the tree. -/
def assigned (n : Node) : List String :=
  sortedNames n.assignedNames

/-- The set of names assigned to in a program. -/
def programAssigned (nodes : List Node) : List String :=
  sortedNames (nodes.flatMap assignedNames)

end RCode.Node
