import RCode.Double.Rounding

/-!
# Floor division, remainder and powers

The remainder of two doubles is exact and has the sign of the divisor; the quotient that goes with
it is rounded toward minus infinity. Powers follow the conventions for zero, infinite and NaN
operands: anything to the power 0 is 1, a negative base needs a whole exponent, and what is too large
is an infinity.
-/

set_option autoImplicit false

namespace RCode.Double

/-- The value of `x` with the sign of `y`. -/
def withSignOf (x y : Float) : Float :=
  ofMagnitude (isNegative y) (magnitude x)

/-- The remainder of the division toward zero; it has the sign of `x` and is exact. -/
def remainder (x y : Float) : Float :=
  if isNaN x || isNaN y || isInfinite x || isZero y then nan
  else if isInfinite y then x
  else ofMagnitude (isNegative x) (nearest (units (magnitude x) % units (magnitude y)) one)

/-- The remainder of the division toward minus infinity; it has the sign of `y`, which is not
zero. -/
def floorMod (x y : Float) : Float :=
  let r := remainder x y
  if isZero r then withSignOf r y
  else if (y < 0) != (r < 0) then r + y
  else r

/-- The quotient rounded toward minus infinity; `y` is not zero. -/
def floorDiv (x y : Float) : Float :=
  let r := remainder x y
  let q := (x - r) / y
  let q := if !isZero r && (y < 0) != (r < 0) then q - 1 else q
  if isZero q then withSignOf q (x / y)
  else
    let whole := q.floor
    if 0.5 < q - whole then whole + 1 else whole

/-- A finite double that is an odd whole number. -/
def isOdd (x : Float) : Bool :=
  isIntegral x && truncate x % 2 == 1

/-- `x` to the power `y`. -/
def power (x y : Float) : Float :=
  let size := absolute x
  if isZero y then 1
  else if isNaN x then x
  else if isNaN y then if x == 1 then 1 else y
  else if isInfinite y then
    if size == 1 then 1 else if (0 < y) == (1 < size) then infinity else 0
  else if isInfinite x then
    if 0 < y then if isOdd y then x else infinity
    else if isOdd y then withSignOf 0 x else 0
  else if isZero x then
    if y < 0 then if isOdd y then withSignOf infinity x else infinity
    else if isOdd y then x else 0
  else if x < 0 then
    let r := size.pow y
    if isIntegral y then if isOdd y then -r else r
    else if isInfinite r then infinity
    else nan
  else x.pow y

end RCode.Double
