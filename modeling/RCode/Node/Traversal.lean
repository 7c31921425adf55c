import RCode.Node.Basic

/-!
# Traversals

The nodes of a tree come in one order, in which each node stands before its children: the head of a
call before its arguments, and the defaults of a parameter list from left to right. `preorder` lists
them, `count` counts them, `symbolNames` and `symbolsNamed` select symbols, and `any` and `search`
test them until one passes. Parameter lists and missing arguments are never tested.
-/

set_option autoImplicit false

namespace RCode.Node

mutual

/-- Every node of the tree, each before its children. -/
def preorder : Node → List Node
  | .call head args p => .call head args p :: (preorder head ++ preorderArgs args)
  | .params items p => .params items p :: preorderParams items
  | n => [n]

/-- The nodes of the values of arguments. -/
def preorderArgs : List (Arg Node) → List Node
  | [] => []
  | a :: rest => preorder a.value ++ preorderArgs rest

/-- The nodes of the defaults of parameters. -/
def preorderParams : List (Param Node) → List Node
  | [] => []
  | p :: rest => preorder p.default ++ preorderParams rest

end

mutual

/-- How many nodes the tree has. -/
def count : Node → Nat
  | .call head args _ => 1 + (count head + countArgs args)
  | .params items _ => 1 + countParams items
  | _ => 1

/-- How many nodes the values of arguments have. -/
def countArgs : List (Arg Node) → Nat
  | [] => 0
  | a :: rest => count a.value + countArgs rest

/-- How many nodes the defaults of parameters have. -/
def countParams : List (Param Node) → Nat
  | [] => 0
  | p :: rest => count p.default + countParams rest

end

mutual

/-- The names of the symbols in the tree. -/
def symbolNames : Node → List String
  | .symbol name _ => [name]
  | .call head args _ => symbolNames head ++ symbolNamesArgs args
  | .params items _ => symbolNamesParams items
  | _ => []

/-- The names of the symbols in the values of arguments. -/
def symbolNamesArgs : List (Arg Node) → List String
  | [] => []
  | a :: rest => symbolNames a.value ++ symbolNamesArgs rest

/-- The names of the symbols in the defaults of parameters. -/
def symbolNamesParams : List (Param Node) → List String
  | [] => []
  | p :: rest => symbolNames p.default ++ symbolNamesParams rest

end

mutual

/-- The symbols in the tree whose names are among the given ones. -/
def symbolsNamed (names : List String) : Node → List Node
  | .symbol name p => if name ∈ names then [.symbol name p] else []
  | .call head args _ => symbolsNamed names head ++ symbolsNamedArgs names args
  | .params items _ => symbolsNamedParams names items
  | _ => []

/-- The symbols with given names in the values of arguments. -/
def symbolsNamedArgs (names : List String) : List (Arg Node) → List Node
  | [] => []
  | a :: rest => symbolsNamed names a.value ++ symbolsNamedArgs names rest

/-- The symbols with given names in the defaults of parameters. -/
def symbolsNamedParams (names : List String) : List (Param Node) → List Node
  | [] => []
  | p :: rest => symbolsNamed names p.default ++ symbolsNamedParams names rest

end

/-! ## Tests -/

mutual

/-- A node of the tree passes the test. -/
def any (test : Node → Bool) : Node → Bool
  | .call head args p => test (.call head args p) || any test head || anyArgs test args
  | .params items _ => anyParams test items
  | .missing => false
  | n => test n

/-- A node of the values of arguments passes the test. -/
def anyArgs (test : Node → Bool) : List (Arg Node) → Bool
  | [] => false
  | a :: rest => any test a.value || anyArgs test rest

/-- A node of the defaults of parameters passes the test. -/
def anyParams (test : Node → Bool) : List (Param Node) → Bool
  | [] => false
  | p :: rest => any test p.default || anyParams test rest

end

/-- The course of a search: the nodes tested, and whether the last one passed. -/
structure Search where
  found : Bool
  tested : List Node

namespace Search

/-- A search that tests nothing. -/
def none : Search := ⟨false, []⟩

/-- One test. -/
def one (test : Node → Bool) (n : Node) : Search :=
  ⟨test n, [n]⟩

/-- A search, and another one if it finds nothing. -/
def andThen (first second : Search) : Search :=
  if first.found then first else ⟨second.found, first.tested ++ second.tested⟩

end Search

mutual

/-- Tests the nodes of the tree until one passes. -/
def search (test : Node → Bool) : Node → Search
  | .call head args p =>
    ((Search.one test (.call head args p)).andThen (search test head)).andThen
      (searchArgs test args)
  | .params items _ => searchParams test items
  | .missing => Search.none
  | n => Search.one test n

/-- Tests the nodes of the values of arguments. -/
def searchArgs (test : Node → Bool) : List (Arg Node) → Search
  | [] => Search.none
  | a :: rest => (search test a.value).andThen (searchArgs test rest)

/-- Tests the nodes of the defaults of parameters. -/
def searchParams (test : Node → Bool) : List (Param Node) → Search
  | [] => Search.none
  | p :: rest => (search test p.default).andThen (searchParams test rest)

end

/-- The node is a symbol or a text constant with a name. -/
def isNamed (name : String) : Node → Bool
  | .symbol s _ => s = name
  | .constant (.text s) _ => s = name
  | _ => false

end RCode.Node
