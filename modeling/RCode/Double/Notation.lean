import RCode.Double.Shortest

/-!
# Written doubles

The text of a double: its shortest digits, in positional notation with at least one digit after the
point, or with an exponent of at least two digits when the decimal exponent is below -4 or from 16
on. Infinity and NaN are `inf` and `nan`.
-/

set_option autoImplicit false

namespace RCode.Double

/-- Where positional notation ends and how exponents are written. -/
structure Layout where
  /-- The least decimal exponent written positionally. -/
  least : Int
  /-- The greatest decimal exponent written positionally. -/
  greatest : Int
  /-- Exponents have at least this many digits. -/
  exponentDigits : Nat

/-- The layout of all numbers in this library. -/
def standardLayout : Layout :=
  ⟨-4, 15, 2⟩

/-- The digits with a point after the first `before` of them, zeros filling the empty places and at
least one digit on either side. -/
def positional (digits : List Char) (before : Int) : List Char :=
  if before ≤ 0 then
    '0' :: '.' :: List.replicate before.natAbs '0' ++ digits
  else
    let whole := digits.take before.toNat
    let fraction := digits.drop before.toNat
    whole ++ List.replicate (before.toNat - digits.length) '0' ++
      '.' :: (if fraction.isEmpty then ['0'] else fraction)

/-- The digits with a point after the first, and the exponent. -/
def withExponent (layout : Layout) (digits : List Char) (exponent : Int) : List Char :=
  let written := Nat.toDigits 10 exponent.natAbs
  let mantissa :=
    match digits with
    | first :: second :: rest => first :: '.' :: second :: rest
    | short => short
  mantissa ++ 'e' :: (if exponent < 0 then '-' else '+') ::
    List.replicate (layout.exponentDigits - written.length) '0' ++ written

/-- A decimal number in a layout. -/
def Decimal.write (layout : Layout) (d : Decimal) : List Char :=
  let digits := Nat.toDigits 10 d.digits
  let exponent := d.exponent + digits.length - 1
  if layout.least ≤ exponent ∧ exponent ≤ layout.greatest then positional digits (exponent + 1)
  else withExponent layout digits exponent

/-- The text of a magnitude. -/
def writeMagnitude (m : Nat) : List Char :=
  if infiniteMagnitude < m then ['n', 'a', 'n']
  else if m = infiniteMagnitude then ['i', 'n', 'f']
  else if m = 0 then ['0', '.', '0']
  else (shortest m).write standardLayout

/-- The text of a double; NaN has no sign. -/
def write (x : Float) : String :=
  let digits := writeMagnitude (magnitude x)
  String.ofList (if isNegative x && !isNaN x then '-' :: digits else digits)

end RCode.Double
