import RCode.Node.Basic

/-!
# Trees of objects

The nodes of a tree, and the arguments and parameters that hold them, are objects. An object can be
told from all others by its identity, a number, however alike they are. Walks that transform a tree
compare identities, one level after the other, and build an object again only if one of its parts is
another one.
-/

set_option autoImplicit false

namespace RCode

/-- An argument or a parameter as an object. -/
structure Slot (γ α : Type) where
  id : Nat
  name : γ
  value : α

/-- A node as an object. An identity is a number, and it may occur several times in a tree. -/
inductive Object where
  | constant (id : Nat) (a : Atom) (position : Position)
  | symbol (id : Nat) (name : String) (position : Position)
  | missing (id : Nat)
  | call (id : Nat) (head : Object) (args : List (Slot (Option String) Object))
    (position : Position)
  | params (id : Nat) (items : List (Slot String Object)) (position : Position)

namespace Object

/-- The identity of the object. -/
def id : Object → Nat
  | .constant i _ _ => i
  | .symbol i _ _ => i
  | .missing i => i
  | .call i _ _ _ => i
  | .params i _ _ => i

mutual

/-- The tree that the object stands for. -/
def node : Object → Node
  | .constant _ a p => .constant a p
  | .symbol _ name p => .symbol name p
  | .missing _ => .missing
  | .call _ head args p => .call head.node (nodeArgs args) p
  | .params _ items p => .params (nodeParams items) p

def nodeArgs : List (Slot (Option String) Object) → List (Arg Node)
  | [] => []
  | a :: rest => ⟨a.name, a.value.node⟩ :: nodeArgs rest

def nodeParams : List (Slot String Object) → List (Param Node)
  | [] => []
  | q :: rest => ⟨q.name, q.value.node⟩ :: nodeParams rest

end

mutual

/-- The identities of the object and of all that it consists of. -/
def ids : Object → List Nat
  | .call i head args _ => i :: (head.ids ++ idsArgs args)
  | .params i items _ => i :: idsParams items
  | o => [o.id]

def idsArgs : List (Slot (Option String) Object) → List Nat
  | [] => []
  | a :: rest => a.id :: (a.value.ids ++ idsArgs rest)

def idsParams : List (Slot String Object) → List Nat
  | [] => []
  | q :: rest => q.id :: (q.value.ids ++ idsParams rest)

end

/-- The slot with a value in it, which is a new slot if the value is another object. -/
def refill {γ : Type} (next : Nat) (s : Slot γ Object) (value : Object) : Slot γ Object × Nat :=
  if value.id = s.value.id then (s, next) else (⟨next, s.name, value⟩, next + 1)

mutual

/-- A tree as new objects, with identities from `next` on, and the next identity that is free. -/
def ofNode (next : Nat) : Node → Object × Nat
  | .constant a p => (.constant next a p, next + 1)
  | .symbol name p => (.symbol next name p, next + 1)
  | .missing => (.missing next, next + 1)
  | .call head args p =>
    let (head', next) := ofNode next head
    let (args', next) := ofArgs next args
    (.call next head' args' p, next + 1)
  | .params items p =>
    let (items', next) := ofParams next items
    (.params next items' p, next + 1)

def ofArgs (next : Nat) : List (Arg Node) → List (Slot (Option String) Object) × Nat
  | [] => ([], next)
  | a :: rest =>
    let (value, next) := ofNode next a.value
    let (rest', next) := ofArgs (next + 1) rest
    (⟨next, a.name, value⟩ :: rest', next)

def ofParams (next : Nat) : List (Param Node) → List (Slot String Object) × Nat
  | [] => ([], next)
  | q :: rest =>
    let (value, next) := ofNode next q.default
    let (rest', next) := ofParams (next + 1) rest
    (⟨next, q.name, value⟩ :: rest', next)

end

end Object

end RCode
