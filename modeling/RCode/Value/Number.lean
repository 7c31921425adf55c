import RCode.Double.Arithmetic
import RCode.Value

/-!
# Values as numbers

Numbers are integers without bound and doubles; logicals count as 0 and 1. Operations on integers
are exact, except that division is of doubles. Where one operand is a double, the other becomes one
too, which fails if it is too large. A NaN that an operation makes is a new one.
-/

set_option autoImplicit false

namespace RCode

/-- Why a function cannot be applied to values. -/
inductive Failure where
  /-- A value has the wrong type, or there are too few or too many values. -/
  | wrongType
  /-- A value has the right type and is not allowed. -/
  | wrongValue
  /-- A value lacks the operation asked of it. -/
  | lacksOperation
  /-- A number is too large. -/
  | outOfRange
  /-- The result is too large. -/
  | outOfMemory
  /-- There is nothing under a key. -/
  | noSuchKey
  /-- A function of a caller has failed in its own way. -/
  | other (kind : String)
deriving DecidableEq, Repr

/-- What a function works with. -/
structure Workspace where
  /-- More characters or items than this cannot be kept. -/
  memory : Nat
  /-- Which NaN those are that the function makes. -/
  object : Nat → Identity

/-- A number, exact or rounded. -/
inductive Number where
  | integer (n : Int)
  | double (x : Float)

namespace Number

/-- The number as a new value. -/
def toValue (w : Workspace) : Number → Value
  | .integer n => .integer n
  | .double x => if Double.isNaN x then .atom (.nan (w.object 0)) else .double x

/-- The number as a double; an integer can be too large for one. -/
def toDouble : Number → Except Failure Float
  | .integer n =>
    match Double.ofInt? n with
    | some x => .ok x
    | none => .error .outOfRange
  | .double x => .ok x

/-- The number is zero. -/
def isZero : Number → Bool
  | .integer n => n == 0
  | .double x => Double.isZero x

/-- The number is NaN. -/
def isNaN : Number → Bool
  | .integer _ => false
  | .double x => Double.isNaN x

/-- Numerical order, without rounding; NaN compares with nothing. -/
def compare? : Number → Number → Option Ordering
  | .integer a, .integer b => some (compare a b)
  | .integer a, .double y => Double.compareInt? a y
  | .double x, .integer b => (Double.compareInt? b x).map Ordering.swap
  | .double x, .double y => Double.compare? x y

/-- An operation that is exact on integers and rounded on doubles. -/
def lift (exact : Int → Int → Int) (rounded : Float → Float → Float) :
    Number → Number → Except Failure Number
  | .integer a, .integer b => .ok (.integer (exact a b))
  | a, b => do return .double (rounded (← a.toDouble) (← b.toDouble))

/-- The quotient; the divisor is not zero. -/
def quotient : Number → Number → Except Failure Number
  | .integer a, .integer b =>
    match Double.ofQuotient? a b with
    | some x => .ok (.double x)
    | none => .error .outOfRange
  | a, b => do return .double ((← a.toDouble) / (← b.toDouble))

end Number

namespace Value

/-- The number a value is. -/
def number? : Value → Option Number
  | .atom (.logical b) => some (.integer (if b then 1 else 0))
  | .atom (.integer n) => some (.integer n)
  | .atom (.double x) => some (.double x)
  | .atom (.nan _) => some (.double Double.nan)
  | _ => none

/-- The number a value has to be. -/
def toNumber (v : Value) : Except Failure Number :=
  match v.number? with
  | some n => .ok n
  | none => .error .wrongType

/-- The integer a value has to be where something is counted. -/
def toCount (v : Value) : Except Failure Int :=
  match v.number? with
  | some (.integer n) => .ok n
  | _ => .error .wrongType

/-- The value is the number zero. -/
def isZero (v : Value) : Bool :=
  v.number?.any Number.isZero

/-- An operation on two numbers. -/
def numeric (w : Workspace) (op : Number → Number → Except Failure Number) (a b : Value) :
    Except Failure Value := do
  return (← op (← a.toNumber) (← b.toNumber)).toValue w

end Value

end RCode
