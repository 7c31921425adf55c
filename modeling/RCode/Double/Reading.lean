import RCode.Double.Rounding
import RCode.Text.Digit

/-!
# Reading doubles

A written number is an optional sign and either a word (`inf`, `infinity`, `nan`, in any case) or
decimal digits of any script with an optional point and an optional exponent, blanks around it
ignored. A single underscore may stand between two digits. The number read is the double nearest to
the decimal value.
-/

set_option autoImplicit false

namespace RCode.Double

/-- The natural number with the given decimal digits, most significant first. -/
def ofDigits (digits : List Nat) : Nat :=
  digits.foldl (fun n d => 10 * n + d) 0

/-- The magnitude nearest to `digits * 10 ^ exponent`. Numbers beyond the range of doubles by far
are settled by their decimal exponent alone. -/
def ofDecimal (digits : Nat) (exponent : Int) : Nat :=
  let places := (Nat.toDigits 10 digits).length + exponent
  if digits = 0 ∨ places < -330 then 0
  else if 310 < places then infiniteMagnitude
  else if 0 ≤ exponent then nearest (digits * 10 ^ exponent.toNat) 1
  else nearest digits (10 ^ exponent.natAbs)

/-- The text goes on with a decimal digit. -/
def startsWithDigit : List Char → Bool
  | [] => false
  | c :: _ => (Text.decimalValue? c).isSome

/-- The decimal digits at the start of a text, and the text after them. -/
def digitRun (afterDigit : Bool) : List Char → List Nat × List Char
  | [] => ([], [])
  | c :: rest =>
    match Text.decimalValue? c with
    | some d =>
      let (ds, after) := digitRun true rest
      (d :: ds, after)
    | none =>
      if afterDigit && c == '_' && startsWithDigit rest then digitRun false rest
      else ([], c :: rest)

/-- The characters ignored around a number. -/
def isMargin (c : Char) : Bool :=
  let n := c.toNat
  (9 ≤ n && n ≤ 13) || n == 0x20 || n == 0x85 || n == 0xa0 || n == 0x1680 ||
    (0x2000 ≤ n && n ≤ 0x200a) || n == 0x2028 || n == 0x2029 || n == 0x202f || n == 0x205f ||
    n == 0x3000

/-- The text without the margins. -/
def trimMargins (cs : List Char) : List Char :=
  ((cs.dropWhile isMargin).reverse.dropWhile isMargin).reverse

/-- Splits off a sign; `true` is minus. -/
def signOf : List Char → Bool × List Char
  | '-' :: rest => (true, rest)
  | '+' :: rest => (false, rest)
  | cs => (false, cs)

/-- The exponent after the digits, up to the end of the text; none written is 0. -/
def readExponent? : List Char → Option Int
  | [] => some 0
  | e :: rest =>
    if e = 'e' ∨ e = 'E' then
      let (negative, written) := signOf rest
      match digitRun false written with
      | (d :: ds, []) =>
        let size := ofDigits (d :: ds)
        some (if negative then -(size : Int) else size)
      | _ => none
    else none

/-- The digits after a point, if one starts here, and the text after them. -/
def fractionRun : List Char → List Nat × List Char
  | '.' :: rest => digitRun false rest
  | cs => ([], cs)

/-- The magnitude of an unsigned decimal number. -/
def readDecimal? (cs : List Char) : Option Nat := do
  let (whole, afterWhole) := digitRun false cs
  let (fraction, afterFraction) := fractionRun afterWhole
  if whole.isEmpty && fraction.isEmpty then none
  else
    let exponent ← readExponent? afterFraction
    some (ofDecimal (ofDigits (whole ++ fraction)) (exponent - fraction.length))

/-- The magnitude a word stands for. -/
def readWord? (cs : List Char) : Option Nat :=
  let word := String.ofList (cs.map Char.toLower)
  if word = "inf" ∨ word = "infinity" then some infiniteMagnitude
  else if word = "nan" then some (infiniteMagnitude + 2 ^ 51)
  else none

/-- The double a text stands for, if it is a written number. -/
def read? (cs : List Char) : Option Float :=
  let (negative, unsigned) := signOf (trimMargins cs)
  ((readDecimal? unsigned).or (readWord? unsigned)).map (ofMagnitude negative)

end RCode.Double
