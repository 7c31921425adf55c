import RCode.Node.Basic

/-!
# Hashes of trees

A hash is a number that equal things have in common. The hash of a number is the rest of its
division by a large prime, so that a double and an integer of the same value have the same one. The
hashes of texts and of types differ from run to run, and so may the way in which the hashes of a row
are put together; they are given (`Hashing`). The hash of a tree is made of those of its parts.
Positions have no part in it, and all NaN have one hash.
-/

set_option autoImplicit false

namespace RCode

/-- What the hashes of a run depend on. -/
structure Hashing where
  /-- The hash of NULL. -/
  null : Int
  text : String → Int
  /-- The hash of the type with a name. -/
  type : String → Int
  /-- The hash of a row of things with the given hashes. -/
  row : List Int → Int

namespace Hashing

/-- The prime by which numbers are divided. -/
def modulus : Nat := 2 ^ 61 - 1

/-- The hash of infinity. -/
def infinity : Int := 314159

/-- The hash of an integer: the rest of its division, with the sign of the integer. The hash -1 is
reserved for failures. -/
def integer (z : Int) : Int :=
  let rest := z.tmod modulus
  if rest = -1 then -2 else rest

/-- The hash of a double that is no NaN. Powers of two repeat after 61 steps, so that a unit of
2⁻¹⁰⁷⁴ counts as 2²⁴. -/
def double (x : Float) : Int :=
  if Double.isInfinite x then (if Double.isNegative x then -infinity else infinity)
  else integer (Double.signedUnits x * (2 ^ 24 : Nat))

/-- The hash of the value of an atom. A text stands in for NaN, which has no hash of its own. -/
def value (h : Hashing) : Atom → Int
  | .null => h.null
  | .logical b => integer (if b then 1 else 0)
  | .integer n => integer n
  | .double x => if Double.isNaN x then h.text "nan" else double x
  | .nan _ => h.text "nan"
  | .text s => h.text s

/-- The hash of a constant, of which its type is a part. -/
def constant (h : Hashing) (a : Atom) : Int :=
  h.row [h.type "Constant", h.type a.kind, h.value a]

end Hashing

namespace Node

mutual

/-- The hash of the tree. -/
def hash (h : Hashing) : Node → Int
  | .constant a _ => h.constant a
  | .symbol name _ => h.row [h.text name]
  | .missing => h.row []
  | .call head args _ => h.row [hash h head, h.row (hashArgs h args)]
  | .params items _ => h.row [h.row (hashParams h items)]

/-- The hashes of arguments. -/
def hashArgs (h : Hashing) : List (Arg Node) → List Int
  | [] => []
  | a :: rest => h.row [a.name.elim h.null h.text, hash h a.value] :: hashArgs h rest

/-- The hashes of parameters. -/
def hashParams (h : Hashing) : List (Param Node) → List Int
  | [] => []
  | p :: rest => h.row [h.text p.name, hash h p.default] :: hashParams h rest

end

end Node

end RCode
