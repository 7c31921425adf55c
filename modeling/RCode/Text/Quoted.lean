import RCode.Text.Printable

/-!
# Quoted text

Text as messages show it: between single quotes, or between double quotes when it holds a single
quote and no double one. The quote in use, the backslash and the characters that cannot be printed
are escaped, the latter by their code point. Integers are written in decimal digits, unless there are
too many of them.
-/

set_option autoImplicit false

namespace RCode.Text

/-- The lower-case hexadecimal digits of `n`, filled up with zeros to `width`. -/
def hexadecimal (width n : Nat) : List Char :=
  let digits := Nat.toDigits 16 n
  List.replicate (width - digits.length) '0' ++ digits

/-- A character that cannot be printed, named by its code point. -/
def escapeCodePoint (c : Char) : List Char :=
  if c.toNat ≤ 0xff then '\\' :: 'x' :: hexadecimal 2 c.toNat
  else if c.toNat ≤ 0xffff then '\\' :: 'u' :: hexadecimal 4 c.toNat
  else '\\' :: 'U' :: hexadecimal 8 c.toNat

/-- One character of a quoted text. -/
def quotedChar (quote c : Char) : List Char :=
  if c = quote ∨ c = '\\' then ['\\', c]
  else if c = '\n' then ['\\', 'n']
  else if c = '\r' then ['\\', 'r']
  else if c = '\t' then ['\\', 't']
  else if isPrintable c then [c]
  else escapeCodePoint c

/-- The text between quotes, as messages show it. -/
def quoted (text : String) : String :=
  let cs := text.toList
  let quote := if '\'' ∈ cs ∧ '"' ∉ cs then '"' else '\''
  String.ofList (quote :: cs.flatMap (quotedChar quote) ++ [quote])

/-- A character in characters of ASCII: any other one is named by its code point. -/
def asciiChar (c : Char) : List Char :=
  if c.toNat < 128 then [c] else escapeCodePoint c

/-! ## Long integers -/

/-- Integers with more digits than this are not written. -/
def digitLimit : Nat := 4300

/-- The integer is written: it has not too many digits. -/
def isShort (n : Int) : Bool :=
  n.natAbs < Nat.pow 10 digitLimit

theorem isShort_of_lt {n : Int} {count : Nat} (h : n.natAbs < Nat.pow 10 count)
    (hcount : count ≤ digitLimit) : isShort n = true := by
  unfold isShort
  generalize digitLimit = limit at hcount
  exact decide_eq_true (Nat.lt_of_lt_of_le h (Nat.pow_le_pow_right (by decide) hcount))

/-- The message about an integer that is not written. -/
def tooLong : String :=
  "Exceeds the limit (4300 digits) for integer string conversion; use sys.set_int_max_str_digits() " ++
    "to increase the limit"

end RCode.Text
