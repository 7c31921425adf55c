import RCode.Double.Rounding

/-!
# Shortest digits

The decimal digits of a double are the fewest that read back as the same double, and of those the
nearest to its value, the even one of two equally near. For one digit, two digits and so on up to
seventeen the two neighbours of the value on that decimal grid are tried; the first grid with one
that reads back wins.
-/

set_option autoImplicit false

namespace RCode.Double

/-- The decimal number `digits * 10 ^ exponent`. -/
structure Decimal where
  digits : Nat
  exponent : Int
deriving DecidableEq, Repr

/-- The decimal place in which all candidate digits of all doubles are whole numbers. -/
def finestPlace : Nat := 341

/-- The decimal number `n * 10 ^ (k - finestPlace)` reads back as the magnitude `m`. -/
def readsBack (m n k : Nat) : Bool :=
  nearest (n * 10 ^ k) (10 ^ finestPlace) == m

/-- Of the neighbours `low` and `low + 1` whichever is accepted, the nearer if both are. The value
between them is as far from `low` as `rest` is from zero, and they are `width` apart. -/
def nearer? (accepts : Nat → Bool) (low rest width : Nat) : Option Nat :=
  match accepts low, accepts (low + 1) with
  | true, true =>
    if 2 * rest < width then some low
    else if width < 2 * rest then some (low + 1)
    else some (low + low % 2)
  | true, false => some low
  | false, true => some (low + 1)
  | false, false => none

/-- The value `total / one`, in the finest place, as a multiple of `10 ^ k` that reads back as `m`:
rounded down or up. -/
def candidate? (m total k : Nat) : Option Nat :=
  nearer? (fun n => readsBack m n k) (total / (one * 10 ^ k)) (total % (one * 10 ^ k))
    (one * 10 ^ k)

/-- Moves the zeros at the end of the digits into the exponent. -/
def stripZeros (digits : Nat) (exponent : Int) : Decimal :=
  if h : digits ≠ 0 ∧ digits % 10 = 0 then stripZeros (digits / 10) (exponent + 1)
  else ⟨digits, exponent⟩
termination_by digits
decreasing_by exact Nat.div_lt_self (by omega) (by omega)

/-- The decimal number on the grid of multiples of `10 ^ k` in the finest place that reads back as
`m`. -/
def onGrid? (m total k : Nat) : Option Decimal :=
  (candidate? m total k).map fun digits => stripZeros digits (k - (finestPlace : Int))

/-- The decimal number of the fewest digits, at most seventeen, that reads back as a magnitude. -/
def rounded? (m : Nat) : Option Decimal :=
  let total := units m * 10 ^ finestPlace
  let places := (Nat.toDigits 10 (total / one)).length
  (List.range' 1 17).findSome? fun count => onGrid? m total (places - count)

/-- The exact value of a magnitude: half a binary place is five decimal ones. -/
def exactDecimal (m : Nat) : Decimal :=
  stripZeros (units m * 5 ^ unitPlaces) (-(unitPlaces : Int))

/-- The shortest decimal number that reads back as a magnitude; should no grid up to seventeen
digits hold one, the exact value. -/
def shortest (m : Nat) : Decimal :=
  (rounded? m).getD (exactDecimal m)

end RCode.Double
