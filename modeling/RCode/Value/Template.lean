import RCode.Double.Fixed
import RCode.Value.Number

/-!
# Templates

A text before `%%` is a template. Each of its slots starts with a percent sign and says how the
value after `%%` is to be written: `%5.1f` as a double in five places, `%(a)s` as the text of the
entry `a`. Two percent signs stand for one.

`demands` reads what a template asks for, one thing after the other, and `fill` meets the demands in
this order: the first one that cannot be met is why the template is not filled.
-/

set_option autoImplicit false

namespace RCode.Template

/-- How the value of a slot is written. -/
inductive Conversion where
  /-- A text as it is, any other value as messages show it. -/
  | plain
  /-- As messages show it. -/
  | shown
  /-- As messages show it, in characters of ASCII. -/
  | ascii
  | decimal
  | octal
  | hexadecimal (upper : Bool)
  /-- With some places after the point. -/
  | fixed (upper : Bool)
  /-- With some places after the point and an exponent. -/
  | scientific (upper : Bool)
  /-- With some significant digits, and an exponent if it is large or small. -/
  | general (upper : Bool)
  | character
deriving DecidableEq, Repr

/-- The conversion that a letter stands for. -/
def Conversion.ofLetter? : Char → Option Conversion
  | 's' => some .plain
  | 'r' => some .shown
  | 'a' => some .ascii
  | 'd' | 'i' | 'u' => some .decimal
  | 'o' => some .octal
  | 'x' => some (.hexadecimal false)
  | 'X' => some (.hexadecimal true)
  | 'f' => some (.fixed false)
  | 'F' => some (.fixed true)
  | 'e' => some (.scientific false)
  | 'E' => some (.scientific true)
  | 'g' => some (.general false)
  | 'G' => some (.general true)
  | 'c' => some .character
  | _ => none

/-- What can be said of the layout of a slot by a single character. -/
inductive Flag where
  /-- The blanks go to the right. -/
  | left
  /-- Numbers have a sign also if it is a plus. -/
  | plus
  /-- A blank stands for the sign if there is none. -/
  | blank
  /-- Octal and hexadecimal numbers have a prefix, doubles a point and all their digits. -/
  | alternate
  /-- Numbers are filled up with zeros. -/
  | zeros
deriving DecidableEq, Repr

/-- The flag that a character stands for. -/
def Flag.ofChar? : Char → Option Flag
  | '-' => some .left
  | '+' => some .plus
  | ' ' => some .blank
  | '#' => some .alternate
  | '0' => some .zeros
  | _ => none

/-- What a template asks for. -/
inductive Demand where
  /-- A character that stands for itself. -/
  | literal (c : Char)
  /-- The start of a slot. -/
  | slot
  /-- The entry with a name, which takes the place of the value. -/
  | entry (name : String)
  /-- An entry whose name does not end. -/
  | unclosedEntry
  | flag (f : Flag)
  | width (n : Nat)
  /-- The value as the width; below zero it also means that the blanks go to the right. -/
  | valueAsWidth
  | precision (n : Nat)
  /-- The value as the precision; below zero it means zero. -/
  | valueAsPrecision
  /-- The value in writing; there may be no conversion for the letter of the slot. -/
  | conversion (way : Option Conversion)
  /-- A slot that does not end. -/
  | unfinished
deriving DecidableEq, Repr

/-! ## Reading templates -/

/-- Where in a template a character stands. -/
inductive Phase where
  /-- Outside of all slots. -/
  | text
  /-- Directly after the percent sign of a slot. -/
  | slot
  /-- In the name of an entry, after the characters `read`, last first, with `depth` parentheses
  open in it. -/
  | name (read : List Char) (depth : Nat)
  | flags
  /-- After the digits of a width. -/
  | width (n : Nat)
  | afterWidth
  | afterPoint
  /-- After the digits of a precision. -/
  | precision (n : Nat)
  | afterPrecision
  | letter
deriving DecidableEq, Repr

/-- The value of a decimal digit. -/
def digit (c : Char) : Nat :=
  c.toNat - '0'.toNat

/-- The letter that ends a slot. -/
def atLetter (c : Char) : Phase × List Demand :=
  (.text, [.conversion (Conversion.ofLetter? c)])

/-- One letter for a size, which means nothing, can stand before the one that ends the slot. -/
def atSize (c : Char) : Phase × List Demand :=
  if c ∈ ['h', 'l', 'L'] then (.letter, []) else atLetter c

/-- A point starts the precision, which is zero unless it is said. -/
def atPoint (c : Char) : Phase × List Demand :=
  if c = '.' then (.afterPoint, [.precision 0]) else atSize c

/-- Flags come before the width, which is written or, by a star, taken from the value. -/
def atFlags (c : Char) : Phase × List Demand :=
  match Flag.ofChar? c with
  | some f => (.flags, [.flag f])
  | none =>
    if c = '*' then (.afterWidth, [.valueAsWidth])
    else if c.isDigit then (.width (digit c), [])
    else atPoint c

/-- The phase after a character, and the demands that it completes. -/
def step : Phase → Char → Phase × List Demand
  | .text, c => if c = '%' then (.slot, []) else (.text, [.literal c])
  | .slot, c =>
    if c = '%' then (.text, [.literal '%'])
    else if c = '(' then (.name [] 0, [.slot])
    else (atFlags c).map id (.slot :: ·)
  | .name read depth, c =>
    if c = ')' ∧ depth = 0 then (.flags, [.entry (String.ofList read.reverse)])
    else if c = '(' then (.name (c :: read) (depth + 1), [])
    else if c = ')' then (.name (c :: read) (depth - 1), [])
    else (.name (c :: read) depth, [])
  | .flags, c => atFlags c
  | .width n, c =>
    if c.isDigit then (.width (10 * n + digit c), []) else (atPoint c).map id (.width n :: ·)
  | .afterWidth, c => atPoint c
  | .afterPoint, c =>
    if c = '*' then (.afterPrecision, [.valueAsPrecision])
    else if c.isDigit then (.precision (digit c), [])
    else atSize c
  | .precision n, c =>
    if c.isDigit then (.precision (10 * n + digit c), [])
    else (atSize c).map id (.precision n :: ·)
  | .afterPrecision, c => atSize c
  | .letter, c => atLetter c

/-- The demand of a template that ends here. -/
def atEnd : Phase → List Demand
  | .text => []
  | .name _ _ => [.unclosedEntry]
  | _ => [.unfinished]

/-- The demands of the rest of a template. -/
def demandsFrom (p : Phase) : List Char → List Demand
  | [] => atEnd p
  | c :: rest => (step p c).2 ++ demandsFrom (step p c).1 rest

/-- The demands of a template, in order. -/
def demands (template : String) : List Demand :=
  demandsFrom .text template.toList

/-! ## Writing values -/

/-- What a slot says about the layout of its value. -/
structure Layout where
  flags : List Flag := []
  width : Nat := 0
  precision : Option Nat := none

/-- A value in writing, in the parts that matter for its layout. -/
structure Written where
  isNumber : Bool := false
  isNegative : Bool := false
  /-- What stands between the sign and the digits. -/
  lead : List Char := []
  body : List Char

namespace Written

/-- The sign, or what stands in its place. -/
def sign (x : Written) (l : Layout) : List Char :=
  if !x.isNumber then []
  else if x.isNegative then ['-']
  else if .plus ∈ l.flags then ['+']
  else if .blank ∈ l.flags then [' ']
  else []

/-- The value in its layout. Zeros come after the sign, blanks before it or at the end. -/
def laidOut (x : Written) (l : Layout) : List Char :=
  let start := x.sign l ++ x.lead
  let empty := l.width - (start.length + x.body.length)
  if .left ∈ l.flags then start ++ x.body ++ List.replicate empty ' '
  else if x.isNumber ∧ .zeros ∈ l.flags then start ++ List.replicate empty '0' ++ x.body
  else List.replicate empty ' ' ++ start ++ x.body

end Written

namespace Conversion

/-- Integers have at most this precision. -/
def precisionOfIntegers : Nat := 2 ^ 31 - 4

/-- The precision of doubles where none is said. -/
def precisionOfDoubles : Nat := 6

/-- The value as messages show it. -/
def showValue (v : Value) : Except Failure (List Char) :=
  match v.shown? with
  | some text => .ok text.toList
  | none => .error .wrongValue

/-- A text, of which only the start may fit into the precision. -/
def writeText (l : Layout) (text : List Char) : Written :=
  { body := l.precision.elim text text.take }

/-- An integer in digits, of which there are at least as many as the precision says. -/
def writeInteger (w : Workspace) (l : Layout) (base : Nat) (lead : List Char) (n : Int) :
    Except Failure Written := do
  let least := l.precision.getD 0
  if precisionOfIntegers < least then throw .outOfRange
  if base = 10 ∧ !Text.isShort n then throw .wrongValue
  if w.memory < least then throw .outOfMemory
  let digits := Nat.toDigits base n.natAbs
  return {
    isNumber := true
    isNegative := n < 0
    lead := if .alternate ∈ l.flags then lead else []
    body := List.replicate (least - digits.length) '0' ++ digits }

/-- The whole part of a number. -/
def wholePart : Number → Except Failure Int
  | .integer n => .ok n
  | .double x =>
    if Double.isNaN x then .error .wrongValue
    else if Double.isInfinite x then .error .outOfRange
    else .ok (Double.truncate x)

/-- A double, whose digits are written by a function of its magnitude and the precision. -/
def writeDouble (w : Workspace) (l : Layout) (digits : Nat → Nat → List Char) (v : Value) :
    Except Failure Written := do
  let x ← (← v.toNumber).toDouble
  let precision := l.precision.getD precisionOfDoubles
  if w.memory < precision then throw .outOfMemory
  return {
    isNumber := true
    isNegative := Double.isNegative x && !Double.isNaN x
    body :=
      if Double.isFinite x then digits (Double.magnitude x) precision
      else Double.writeMagnitude (Double.magnitude x) }

/-- The letters of a number in upper case. -/
def raised (upper : Bool) (x : Written) : Written :=
  if upper then { x with lead := x.lead.map Char.toUpper, body := x.body.map Char.toUpper } else x

/-- A text of one character, or the number of a character. Surrogates are no characters here. -/
def writeCharacter : Value → Except Failure Written
  | .atom (.text s) =>
    match s.toList with
    | [c] => .ok { body := [c] }
    | _ => .error .wrongType
  | v => do
    let n ← v.toCount
    if 0 ≤ n ∧ n.toNat.isValidChar then return { body := [Char.ofNat n.toNat] }
    else throw .outOfRange

/-- A value in writing. -/
def write (w : Workspace) (l : Layout) (v : Value) : Conversion → Except Failure Written
  | .plain =>
    match v with
    | .atom (.text s) => .ok (writeText l s.toList)
    | v => (showValue v).map (writeText l)
  | .shown => (showValue v).map (writeText l)
  | .ascii => (showValue v).map fun text => writeText l (text.flatMap Text.asciiChar)
  | .decimal => do writeInteger w l 10 [] (← wholePart (← v.toNumber))
  | .octal => do writeInteger w l 8 ['0', 'o'] (← v.toCount)
  | .hexadecimal upper => do
    return raised upper (← writeInteger w l 16 ['0', 'x'] (← v.toCount))
  | .fixed upper => do
    return raised upper
      (← writeDouble w l (fun m places => Double.writeFixed m places (.alternate ∈ l.flags)) v)
  | .scientific upper => do
    return raised upper
      (← writeDouble w l (fun m places => Double.writeScientific m places (.alternate ∈ l.flags)) v)
  | .general upper => do
    return raised upper
      (← writeDouble w l (fun m count => Double.writeGeneral m count (.alternate ∈ l.flags)) v)
  | .character => writeCharacter v

end Conversion

/-! ## Meeting demands -/

/-- Precisions are below this limit, and not below its negative. -/
def precisionLimit : Int := (2 ^ 31 : Nat)

/-- A template that is being filled. -/
structure Filling where
  whole : Value
  /-- The value for the next slot, as long as it has not been taken. -/
  next : Option Value := some whole
  /-- What the slot has said so far. -/
  layout : Layout := {}
  /-- The text so far, the last character first. -/
  output : List Char := []

namespace Filling

/-- Entries can be asked for, though only those of a list with names exist. -/
def hasEntries (f : Filling) : Bool :=
  match f.whole with
  | .list _ => true
  | .dict _ => true
  | _ => false

/-- The value for the next slot. -/
def take (f : Filling) : Except Failure Value :=
  match f.next with
  | some v => .ok v
  | none => .error .wrongType

/-- The value for the next slot as an integer below a limit, and not below its negative. -/
def takeCount (f : Filling) (limit : Int) : Except Failure Int := do
  let n ← (← f.take).toCount
  if -limit ≤ n ∧ n < limit then return n else throw .outOfRange

end Filling

/-- The template after a demand is met. -/
def meet (w : Workspace) (f : Filling) : Demand → Except Failure Filling
  | .literal c => .ok { f with output := c :: f.output }
  | .slot => .ok { f with layout := {} }
  | .entry name =>
    match f.whole with
    | .dict entries =>
      match Entry.find? entries name with
      | some v => .ok { f with next := some v }
      | none => .error .noSuchKey
    | _ => .error .wrongType
  | .unclosedEntry => .error (if f.hasEntries then .wrongValue else .wrongType)
  | .flag flag => .ok { f with layout.flags := flag :: f.layout.flags }
  | .width n =>
    if n < Value.countLimit then .ok { f with layout.width := n } else .error .wrongValue
  | .valueAsWidth => do
    let n ← f.takeCount Value.countLimit
    let flags := if n < 0 then .left :: f.layout.flags else f.layout.flags
    return { f with next := none, layout := { f.layout with flags, width := n.natAbs } }
  | .precision n =>
    if n < precisionLimit then .ok { f with layout.precision := some n } else .error .wrongValue
  | .valueAsPrecision => do
    let n ← f.takeCount precisionLimit
    return { f with next := none, layout.precision := some n.toNat }
  | .conversion way => do
    let v ← f.take
    match way with
    | some way =>
      let written ← way.write w f.layout v
      if w.memory < f.layout.width then throw .outOfMemory
      return { f with next := none, output := (written.laidOut f.layout).reverse ++ f.output }
    | none => throw .wrongValue
  | .unfinished => .error .wrongValue

/-- The template filled with a value. The value must be taken, unless it has entries. -/
def fill (w : Workspace) (template : String) (v : Value) : Except Failure String := do
  let f ← (demands template).foldlM (meet w) { whole := v }
  if f.next.isSome && !f.hasEntries then throw .wrongType
  return String.ofList f.output.reverse

end RCode.Template
