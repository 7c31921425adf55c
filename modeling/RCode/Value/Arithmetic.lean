import RCode.Double.Reading
import RCode.Value.Template

/-!
# Arithmetic on values

The operators on numbers. Powers are of doubles, and so are quotients that are not rounded. Division
by zero gives an infinity or the NaN of the library. Texts and lists can be joined by `+` and
repeated by `*`, and a text before `%%` is a template.
-/

set_option autoImplicit false

namespace RCode.Value

/-! ## Sums and products -/

/-- The number without change, as an integer if it was a logical. -/
def plus (a : Value) : Except Failure Value := do
  match ← a.toNumber with
  | .integer n => return .integer n
  | .double _ => return a

/-- The number with the opposite sign. -/
def minus (w : Workspace) (a : Value) : Except Failure Value := do
  match ← a.toNumber with
  | .integer n => return .integer (-n)
  | .double x => return (Number.double (-x)).toValue w

/-- The sum of two numbers; two texts or two lists are joined. -/
def add (w : Workspace) : Value → Value → Except Failure Value
  | .atom (.text s), .atom (.text t) => .ok (.text (s ++ t))
  | .list as, .list bs => .ok (.list (as ++ bs))
  | a, b => numeric w (Number.lift (· + ·) (· + ·)) a b

/-- The difference of two numbers. -/
def subtract (w : Workspace) (a b : Value) : Except Failure Value :=
  numeric w (Number.lift (· - ·) (· - ·)) a b

/-- How many times something of a given size is repeated; negative counts mean never. -/
def repetitions (w : Workspace) (size : Nat) (count : Int) (tooLong : Failure) :
    Except Failure Nat :=
  if count < -countLimit ∨ countLimit ≤ count then .error .outOfRange
  else if countLimit ≤ size * count then .error tooLong
  else if w.memory < size * count.toNat then .error .outOfMemory
  else if size = 0 then .ok 0
  else .ok count.toNat

/-- The text repeated. -/
def repeatText (w : Workspace) (s : String) (count : Value) : Except Failure Value := do
  let n ← repetitions w s.length (← count.toCount) .outOfRange
  return .text (String.join (List.replicate n s))

/-- The list repeated. -/
def repeatList (w : Workspace) (items : List Value) (count : Value) : Except Failure Value := do
  let n ← repetitions w items.length (← count.toCount) .outOfMemory
  return .list (List.replicate n items).flatten

/-- The product of two numbers; a text or a list is repeated. -/
def multiply (w : Workspace) : Value → Value → Except Failure Value
  | .atom (.text s), count => repeatText w s count
  | .list items, count => repeatList w items count
  | count, .atom (.text s) => repeatText w s count
  | count, .list items => repeatList w items count
  | a, b => numeric w (Number.lift (· * ·) (· * ·)) a b

/-! ## Division -/

/-- The sign of a number as a double: 1 or -1. -/
def signOf : Number → Float
  | .integer n => if n < 0 then -1 else 1
  | .double x => if Double.isNegative x then -1 else 1

/-- A number divided by a zero: NaN if it is zero or NaN itself, else an infinity. -/
def divideByZero (a b : Value) : Except Failure Value := do
  let dividend ← a.toNumber
  if dividend.isZero || dividend.isNaN then return .atom (.nan .library)
  let _ ← dividend.toDouble
  let divisor ← b.toNumber
  return .double (Double.infinity * signOf dividend * signOf divisor)

/-- The quotient of two numbers, a double. -/
def divide (w : Workspace) (a b : Value) : Except Failure Value :=
  if b.isZero then divideByZero a b else numeric w Number.quotient a b

/-- The quotient of two numbers rounded toward minus infinity. -/
def floorDivide (w : Workspace) (a b : Value) : Except Failure Value :=
  if b.isZero then divideByZero a b
  else numeric w (Number.lift Int.fdiv Double.floorDiv) a b

/-- The remainder that goes with the rounded quotient; of a division by zero it is NaN. A text is a
template for the value on the right. -/
def modulo (w : Workspace) (a b : Value) : Except Failure Value :=
  if b.isZero then .ok (.atom (.nan .library))
  else
    match a with
    | .atom (.text s) => (Template.fill w s b).map .text
    | a => numeric w (Number.lift Int.fmod Double.floorMod) a b

/-! ## Powers -/

/-- The double a value is or, being a text, is the writing of. -/
def toDouble (v : Value) : Except Failure Float :=
  match v with
  | .atom (.text s) =>
    match Double.read? s.toList with
    | some x => .ok x
    | none => .error .wrongValue
  | _ => do (← v.toNumber).toDouble

/-- A power, as a double. Where a number below zero has none, the result is the NaN of the
library. -/
def power (w : Workspace) (a b : Value) : Except Failure Value := do
  let base ← a.toDouble
  let exponent ← b.toDouble
  let result := Double.power base exponent
  if Double.isNaN result && !Double.isNaN base && !Double.isNaN exponent then
    return .atom (.nan .library)
  return (Number.double result).toValue w

end RCode.Value
