import RCode.Double.Shortest

/-!
# Doubles with a given number of digits

A finite double is written with some number of places after the point, or with some number of
significant digits and an exponent. Its exact value is rounded, a half to the even digit. These
texts are those of magnitudes, so that no sign is part of them.
-/

set_option autoImplicit false

namespace RCode.Double

/-- The decimal digits of `n`, filled up with zeros to `width`. -/
def filledDigits (width n : Nat) : List Char :=
  let digits := Nat.toDigits 10 n
  List.replicate (width - digits.length) '0' ++ digits

/-- The point and the digits after it. If there are none, the point stands only where it is kept. -/
def fraction (pointed : Bool) (digits : List Char) : List Char :=
  if digits.isEmpty && !pointed then [] else '.' :: digits

/-- A magnitude with some places after the point. -/
def writeFixed (m places : Nat) (pointed : Bool) : List Char :=
  let digits := filledDigits (places + 1) (roundDiv (units m * 10 ^ places) one)
  let whole := digits.length - places
  digits.take whole ++ fraction pointed (digits.drop whole)

/-- A magnitude rounded to `count` digits, the first of which is zero only for zero, and the decimal
exponent of the first one. -/
def significant (m count : Nat) : List Char × Int :=
  if m = 0 then (List.replicate count '0', 0)
  else
    let exact := exactDecimal m
    let length := (Nat.toDigits 10 exact.digits).length
    let exponent := exact.exponent + length - 1
    let rounded := roundDiv (exact.digits * 10 ^ (count - length)) (10 ^ (length - count))
    -- rounding up can bring one more digit, a zero at the end
    if rounded < 10 ^ count then (Nat.toDigits 10 rounded, exponent)
    else ((Nat.toDigits 10 rounded).take count, exponent + 1)

/-- An exponent of at least two digits with its sign. -/
def exponentText (exponent : Int) : List Char :=
  'e' :: (if exponent < 0 then '-' else '+') :: filledDigits 2 exponent.natAbs

/-- A magnitude with one digit before the point and some after it, and an exponent. -/
def writeScientific (m places : Nat) (pointed : Bool) : List Char :=
  let (digits, exponent) := significant m (places + 1)
  digits.take 1 ++ fraction pointed (digits.drop 1) ++ exponentText exponent

/-- A magnitude with at most `count` significant digits, with an exponent where it is below -4 or
from `count` on. Zeros at the end of the places stand only where they are kept. -/
def writeGeneral (m count : Nat) (kept : Bool) : List Char :=
  let count := max count 1
  let (digits, exponent) := significant m count
  let places (after : List Char) : List Char :=
    fraction kept (if kept then after else (after.reverse.dropWhile (· == '0')).reverse)
  if exponent < -4 ∨ count ≤ exponent then
    digits.take 1 ++ places (digits.drop 1) ++ exponentText exponent
  else if exponent < 0 then
    '0' :: places (List.replicate (exponent.natAbs - 1) '0' ++ digits)
  else digits.take (exponent.toNat + 1) ++ places (digits.drop (exponent.toNat + 1))

end RCode.Double
