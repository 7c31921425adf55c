import RCode.Double.Basic

/-!
# Rounding to the nearest double

A ratio of natural numbers is brought to units, and its significand is rounded to the nearest whole
number, a half to the even neighbour. The carry of a significand that rounds up to 2⁵³ moves into
the exponent by itself, since the magnitude is `shift * 2⁵² + significand`.
-/

set_option autoImplicit false

namespace RCode.Double

/-- The whole number nearest to `n / d`, the even one of two equally near. -/
def roundDiv (n d : Nat) : Nat :=
  let q := n / d
  let r := n % d
  if 2 * r < d then q else if d < 2 * r then q + 1 else q + q % 2

/-- The magnitude of the double nearest to `n / d`; infinite from halfway to 2¹⁰²⁴ on. -/
def nearest (n d : Nat) : Nat :=
  let total := n * one
  let s := Nat.log2 (total / d) - 52
  min (s * 2 ^ 52 + roundDiv total (d * 2 ^ s)) infiniteMagnitude

/-- The double nearest to an integer, if there is one in range. -/
def ofInt? (n : Int) : Option Float :=
  let m := nearest n.natAbs 1
  if m = infiniteMagnitude then none else some (ofMagnitude (n < 0) m)

/-- The double nearest to the quotient of two integers, if it is in range. The divisor is not zero;
a zero quotient has the sign the operands give it. -/
def ofQuotient? (a b : Int) : Option Float :=
  let m := nearest a.natAbs b.natAbs
  if m = infiniteMagnitude then none else some (ofMagnitude (decide (a < 0) != decide (b < 0)) m)

end RCode.Double
