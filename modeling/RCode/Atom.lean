import RCode.Double.Notation
import RCode.Text.Quoted

/-!
# Atoms

An atom is a single value that stands for itself: NULL, a logical, an integer, a double or a text.

A NaN is equal to nothing, itself included, but lists take the same NaN for equal to itself. So it
matters which NaN an atom is: that of the literal, that of the library, which some functions give,
one that was there before, or one that a function has made.
-/

set_option autoImplicit false

namespace RCode

/-- The way from the root of a tree to a part of it: the number of a child, the number of a child of
that child, and so on. -/
abbrev Place := List Nat

/-- Which NaN, apart from the one of the literal. -/
inductive Identity where
  | library
  | given (number : Nat)
  /-- One of those that the call at a place makes. -/
  | made (place : Place) (number : Nat)
deriving DecidableEq, Repr

/-- A value without parts. -/
inductive Atom where
  | null
  | logical (value : Bool)
  | integer (value : Int)
  /-- A double. If it is a NaN, it is the one of the literal. -/
  | double (value : Float)
  /-- Any other NaN. -/
  | nan (identity : Identity)
  | text (value : String)

namespace Atom

/-- The same atom: of the same type and of the same value. All NaN are the same, and zero has no
sign. -/
def same : Atom → Atom → Bool
  | .null, .null => true
  | .logical a, .logical b => a == b
  | .integer a, .integer b => a == b
  | .double x, .double y => Double.same x y
  | .double x, .nan _ => Double.isNaN x
  | .nan _, .double y => Double.isNaN y
  | .nan _, .nan _ => true
  | .text s, .text t => s == t
  | _, _ => false

/-- The atoms are one NaN. -/
def isSameNaN : Atom → Atom → Bool
  | .double x, .double y => Double.isNaN x && Double.isNaN y
  | .nan i, .nan j => i == j
  | _, _ => false

/-- The atom as messages show it. -/
def inspect : Atom → String
  | .null => "None"
  | .logical true => "True"
  | .logical false => "False"
  | .integer n => toString n
  | .double x => Double.write x
  | .nan _ => Double.write Double.nan
  | .text s => Text.quoted s

/-- The type of the atom as messages name it. -/
def kind : Atom → String
  | .null => "NoneType"
  | .logical _ => "bool"
  | .integer _ => "int"
  | .double _ => "float"
  | .nan _ => "float"
  | .text _ => "str"

/-- The largest integer of the language; its negative is the smallest. -/
def integerLimit : Nat := 2 ^ 31 - 1

/-- The atom can stand in a tree: an integer must be in range. -/
def isLiteral : Atom → Bool
  | .integer n => n.natAbs ≤ integerLimit
  | _ => true

/-- The atom has a text: it is no integer that is too long. -/
def isWritable : Atom → Bool
  | .integer n => Text.isShort n
  | _ => true

end Atom

instance : Inhabited Atom := ⟨.null⟩

end RCode
