import RCode.Node.Build

/-!
# Replacing symbols

Replacement rebuilds only the nodes on the way to a replaced symbol. Its result says so: it is
`none` where the tree stays as it is. Rebuilt nodes keep their positions.
-/

set_option autoImplicit false

namespace RCode.Node

mutual

/-- The tree with another node for each symbol of a name, or none if there is no such symbol. -/
def replaceSymbol? (name : String) (new : Node) : Node → Option Node
  | .symbol s _ => if s = name then some new else none
  | .call head args p =>
    match replaceSymbol? name new head, replaceSymbolArgs? name new args with
    | none, none => none
    | head', args' => some (.call (head'.getD head) (args'.getD args) p)
  | .params items p => (replaceSymbolParams? name new items).map fun items => .params items p
  | _ => none

/-- The arguments with another node for each symbol of a name in their values. -/
def replaceSymbolArgs? (name : String) (new : Node) : List (Arg Node) → Option (List (Arg Node))
  | [] => none
  | a :: rest =>
    match replaceSymbol? name new a.value, replaceSymbolArgs? name new rest with
    | none, none => none
    | value', rest' => some (⟨a.name, value'.getD a.value⟩ :: rest'.getD rest)

/-- The parameters with another node for each symbol of a name in their defaults. -/
def replaceSymbolParams? (name : String) (new : Node) :
    List (Param Node) → Option (List (Param Node))
  | [] => none
  | p :: rest =>
    match replaceSymbol? name new p.default, replaceSymbolParams? name new rest with
    | none, none => none
    | default', rest' => some (⟨p.name, default'.getD p.default⟩ :: rest'.getD rest)

end

/-- The tree with symbols of one name renamed to another, or none if there are no such symbols. The
new symbols have no position. -/
def rename? (old new : String) (n : Node) : Except NodeError (Option Node) :=
  match replaceSymbol? old (.symbol new .nowhere) n with
  | none => .ok none
  | some n => if new = "" then .error .emptySymbol else .ok (some n)

end RCode.Node
