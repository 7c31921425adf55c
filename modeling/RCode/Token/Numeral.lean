import RCode.Double.Reading
import RCode.Token
import RCode.Token.Literal

/-!
# Numbers in a text

A number is hexadecimal (`0x1F`) or decimal with an optional point and exponent. The suffix `L`
makes a whole number in the range of integers an integer. Digits of any script are taken into the
number; it is only then that those without a decimal value are refused.
-/

set_option autoImplicit false

namespace RCode.Numeral

/-- The characters a name may go on with. -/
def isNameChar (c : Char) : Bool :=
  Text.isAlphanumeric c || c == '.' || c == '_'

/-- The characters of a written exponent, sign included, if one starts here. -/
def exponentRun : List Char → List Char
  | e :: sign :: rest =>
    if e = 'e' ∨ e = 'E' then
      if Text.isDigit sign then e :: sign :: rest.takeWhile Text.isDigit
      else if (sign = '+' ∨ sign = '-') ∧ rest.head?.any Text.isDigit then
        e :: sign :: rest.takeWhile Text.isDigit
      else []
    else []
  | _ => []

/-- The characters of a written decimal number. -/
def decimalRun (cs : List Char) : List Char :=
  let whole := cs.takeWhile Text.isDigit
  let mantissa :=
    match cs.drop whole.length with
    | '.' :: rest => whole ++ '.' :: rest.takeWhile Text.isDigit
    | _ => whole
  mantissa ++ exponentRun (cs.drop mantissa.length)

/-- A double without a fractional part in the range of integers, as an integer. -/
def toInteger? (x : Float) : Option Nat :=
  if Double.isIntegral x && (Double.truncate x).natAbs ≤ Atom.integerLimit then
    some (Double.truncate x).natAbs
  else none

/-- The value of a hexadecimal number, from its digits. -/
def hexadecimal (start : List Char) (digits : List Nat) : Except LexicalFault Float :=
  if digits.isEmpty then .error ⟨.invalidHexNumber, start⟩
  else
    match Double.ofInt? (Literal.ofHexDigits digits) with
    | some x => .ok x
    | none => .error ⟨.hexNumberTooLarge, start⟩

/-- The value of the number without its suffix, and the text after it. -/
def unsuffixed (cs : List Char) : Except LexicalFault (Float × List Char) :=
  match cs with
  | '0' :: x :: rest =>
    if x = 'x' ∨ x = 'X' then
      let (digits, after) := Literal.hexRun rest.length rest
      (hexadecimal cs digits).map fun value => (value, after)
    else decimal cs
  | _ => decimal cs
where
  /-- The value of a decimal number, and the text after it. -/
  decimal (cs : List Char) : Except LexicalFault (Float × List Char) :=
    let written := decimalRun cs
    match Double.read? written with
    | some value => .ok (value, cs.drop written.length)
    | none => .error ⟨.invalidNumber (String.ofList written), cs⟩

theorem read?_nil : Double.read? [] = none := by
  decide +kernel

theorem decimal_length {cs : List Char} {r : Float × List Char}
    (h : unsuffixed.decimal cs = .ok r) : r.2.length < cs.length := by
  unfold unsuffixed.decimal at h
  dsimp only at h
  split at h
  · next value hvalue =>
    cases h
    cases hrun : decimalRun cs with
    | nil => rw [hrun, read?_nil] at hvalue; cases hvalue
    | cons c written =>
      cases cs with
      | nil => cases hrun
      | cons d rest => simp only [List.length_drop, List.length_cons]; omega
  · cases h

theorem unsuffixed_length {cs : List Char} {r : Float × List Char}
    (h : unsuffixed cs = .ok r) : r.2.length < cs.length := by
  unfold unsuffixed at h
  split at h
  · next x rest =>
    split at h
    · obtain ⟨value, _, rfl⟩ := Literal.map_eq_ok h
      have := Literal.hexRun_length rest.length rest
      simp only [List.length_cons]
      omega
    · exact decimal_length h
  · exact decimal_length h

/-- The lexeme of a number with its suffix, and the text after it. -/
def suffixed (start : List Char) (value : Float) (cs : List Char) :
    Except LexicalFault (Lexeme × List Char) :=
  match cs with
  | 'L' :: rest =>
    match toInteger? value with
    | some n => .ok (.integer n, rest)
    | none => .ok (.double value, rest)
  | 'i' :: _ => .error ⟨.complexNumber, start⟩
  | _ => .ok (.double value, cs)

theorem suffixed_length {start : List Char} {value : Float} {cs : List Char}
    {r : Lexeme × List Char} (h : suffixed start value cs = .ok r) :
    r.2.length ≤ cs.length := by
  unfold suffixed at h
  split at h
  · split at h <;> cases h <;> exact Nat.le_succ _
  · cases h
  · cases h; exact Nat.le_refl _

/-- The number at the start of a text. A name may not follow it directly. -/
def read (cs : List Char) : Except LexicalFault (Lexeme × List Char) :=
  match unsuffixed cs with
  | .error e => .error e
  | .ok (value, rest) =>
    match suffixed cs value rest with
    | .error e => .error e
    | .ok (lexeme, after) =>
      match after.head?.filter isNameChar with
      | some c => .error ⟨.afterNumber c, after⟩
      | none => .ok (lexeme, after)

theorem read_length {cs : List Char} {r : Lexeme × List Char} (h : read cs = .ok r) :
    r.2.length < cs.length := by
  unfold read at h
  split at h
  · cases h
  · next value rest hvalue =>
    split at h
    · cases h
    · next lexeme after hlexeme =>
      split at h
      · cases h
      · cases h
        exact Nat.lt_of_le_of_lt (suffixed_length hlexeme) (unsuffixed_length hvalue)

end RCode.Numeral
