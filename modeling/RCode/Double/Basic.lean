/-!
# Doubles

The numbers of the language are IEEE 754 binary64. A finite double is a whole number of *units* of
2⁻¹⁰⁷⁴, so that every exact question about doubles (their order, their digits, their remainder) is a
question about natural numbers. `magnitude` is the bit pattern without the sign; it grows with the
absolute value, from 0 for zero to `infiniteMagnitude` for infinity, and lies above that for NaN.
-/

set_option autoImplicit false

namespace RCode.Double

/-- Powers of natural numbers are the built-in ones, whatever other powers are in scope. -/
@[default_instance 20000]
instance (priority := 20000) natPow : Pow Nat Nat := instPowNat

/-- The bit pattern without the sign bit. -/
def magnitude (x : Float) : Nat :=
  x.toBits.toNat % 2 ^ 63

/-- The sign bit is set. -/
def isNegative (x : Float) : Bool :=
  2 ^ 63 ≤ x.toBits.toNat

/-- The magnitude of infinity. -/
def infiniteMagnitude : Nat :=
  2047 * 2 ^ 52

/-- The double with a given sign and magnitude. -/
def ofMagnitude (negative : Bool) (m : Nat) : Float :=
  Float.ofBits (UInt64.ofNat (if negative then 2 ^ 63 + m else m))

/-- The double without its sign. -/
def absolute (x : Float) : Float :=
  ofMagnitude false (magnitude x)

def isNaN (x : Float) : Bool :=
  infiniteMagnitude < magnitude x

def isInfinite (x : Float) : Bool :=
  magnitude x == infiniteMagnitude

def isFinite (x : Float) : Bool :=
  magnitude x < infiniteMagnitude

/-- The double is 0.0 or -0.0. -/
def isZero (x : Float) : Bool :=
  magnitude x == 0

def nan : Float := ofMagnitude false (infiniteMagnitude + 2 ^ 51)

def infinity : Float := ofMagnitude false infiniteMagnitude

/-! ## Exact values -/

/-- How far the significand of a magnitude is shifted to count units. -/
def shift (m : Nat) : Nat :=
  m / 2 ^ 52 - 1

/-- The significand of a magnitude: at most 53 bits, the hidden one included. -/
def significand (m : Nat) : Nat :=
  m - shift m * 2 ^ 52

/-- The exact value of a magnitude, counted in units of 2⁻¹⁰⁷⁴. -/
def units (m : Nat) : Nat :=
  significand m * 2 ^ shift m

/-- The exact value of a finite double, counted in units of 2⁻¹⁰⁷⁴. -/
def signedUnits (x : Float) : Int :=
  if isNegative x then -(units (magnitude x) : Int) else units (magnitude x)

/-- The binary places after the point that a unit stands in. -/
def unitPlaces : Nat := 1074

/-- The number of units in one. -/
def one : Nat := 2 ^ unitPlaces

/-- A finite double without a fractional part. -/
def isIntegral (x : Float) : Bool :=
  isFinite x && units (magnitude x) % one == 0

/-- The whole part of a finite double, toward zero. -/
def truncate (x : Float) : Int :=
  let whole := units (magnitude x) / one
  if isNegative x then -(whole : Int) else whole

/-! ## Order -/

/-- A key in the order of the values; both zeros have the same. -/
def orderKey (x : Float) : Int :=
  if isNegative x then -(magnitude x : Int) else magnitude x

/-- Numerical order; NaN compares with nothing. -/
def compare? (x y : Float) : Option Ordering :=
  if isNaN x || isNaN y then none else some (compare (orderKey x) (orderKey y))

/-- Numerical order of an integer and a double, without rounding. -/
def compareInt? (n : Int) (x : Float) : Option Ordering :=
  if isNaN x then none
  else if isInfinite x then some (if isNegative x then .gt else .lt)
  else some (compare (n * one) (signedUnits x))

/-- The same number, where NaN is one number and zero has no sign. -/
def same (x y : Float) : Bool :=
  if isNaN x then isNaN y else !isNaN y && orderKey x == orderKey y

end RCode.Double
