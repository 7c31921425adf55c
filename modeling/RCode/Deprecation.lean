import RCode.Node.Traversal

/-!
# Deprecated names

Some names are old spellings of constants: `T` and `F` are variables that mean `TRUE` and `FALSE`
only as long as nobody binds them. A use of such a name is a symbol anywhere in a tree, heads of
calls included.
-/

set_option autoImplicit false

namespace RCode

namespace Deprecation

/-- The names that are deprecated unless others are given. -/
def aliases : List String := ["T", "F"]

/-- What to write instead of a deprecated name. -/
def replacement? (name : String) : Option String :=
  [("T", "TRUE"), ("F", "FALSE")].lookup name

/-- The warning about a use of a name. -/
def warning (sourceName name : String) (p : Position) : String :=
  sourceName ++ ":" ++ p.text ++ ": '" ++ name ++ "' is deprecated" ++
    ((replacement? name).map (", use " ++ ·)).getD ""

end Deprecation

/-- The tree uses one of the names. -/
def Node.uses (names : List String) (n : Node) : Bool :=
  n.any fun m => m.name?.any (· ∈ names)

/-- The uses of the names in a program, in order. -/
def Node.programUses (names : List String) (nodes : List Node) : List Node :=
  nodes.flatMap (Node.symbolsNamed names)

end RCode
