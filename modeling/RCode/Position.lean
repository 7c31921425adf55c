import RCode.Text.Quoted

/-!
# Positions

A position is a line and a column, counted from 1. A node that does not come from text has the
position `⟨0, 0⟩`, or whatever its maker gave for a line and a column: anything will do, and what it
is shows only in messages.
-/

set_option autoImplicit false

namespace RCode

/-- A line or a column. -/
inductive Coordinate where
  | number (n : Int)
  /-- No integer: what matters of it is whether it counts as true and how it is written, if it can
  be. -/
  | other (counts : Bool) (text : Option String)
deriving DecidableEq, Repr

namespace Coordinate

instance (n : Nat) : OfNat Coordinate n := ⟨.number n⟩

/-- The number of the coordinate, or zero. -/
def toInt : Coordinate → Int
  | .number n => n
  | .other _ _ => 0

/-- The coordinate so much further on. -/
def plus (c : Coordinate) (k : Int) : Coordinate :=
  .number (c.toInt + k)

/-- The coordinate says something: it is neither zero nor anything else that counts as false. -/
def isSet : Coordinate → Bool
  | .number n => n != 0
  | .other counts _ => counts

/-- The coordinate as messages show it, if it can be written. -/
def text? : Coordinate → Option String
  | .number n => if Text.isShort n then some (toString n) else none
  | .other _ text => text

end Coordinate

/-- A place in a text. -/
structure Position where
  line : Coordinate
  column : Coordinate
deriving DecidableEq, Repr

namespace Position

/-- The position of what has no place in a text. -/
def nowhere : Position := ⟨0, 0⟩

/-- The first character of a text. -/
def start : Position := ⟨1, 1⟩

/-- The position after a character: a line break starts a new line. -/
def next (p : Position) (c : Char) : Position :=
  if c = '\n' then ⟨p.line.plus 1, 1⟩ else ⟨p.line, p.column.plus 1⟩

/-- The position after a stretch of text. -/
def after (p : Position) (cs : List Char) : Position :=
  cs.foldl next p

/-- The line and the column with a colon in between, if they can be written. -/
def text? (p : Position) : Option String := do
  return (← p.line.text?) ++ ":" ++ (← p.column.text?)

/-- The line and the column as messages show them; what cannot be written is left out. -/
def text (p : Position) : String :=
  p.line.text?.getD "" ++ ":" ++ p.column.text?.getD ""

end Position

instance : Inhabited Position := ⟨Position.nowhere⟩

end RCode
