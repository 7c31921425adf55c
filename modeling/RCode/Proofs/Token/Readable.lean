import RCode.Operator
import RCode.Token

/-!
# Lexemes that can be read back

Not every lexeme has a text that reads back as it: an operator between percent signs must not hold
another percent sign or a line break, a name must not be empty, and numbers have no sign.
-/

set_option autoImplicit false

namespace RCode

namespace Operator

/-- The characters between the first and the last one of a name. -/
def inner (name : String) : List Char :=
  name.toList.tail.dropLast

/-- The operator is in the table, or nothing between its percent signs ends it early. -/
def IsReadable (name : String) : Prop :=
  ofSpelling? name = some name ∨
    isSpecial name = true ∧ ∀ c ∈ inner name, c ≠ '%' ∧ c ≠ '\n'

end Operator

/-- The text of the lexeme reads back as the lexeme. -/
def Lexeme.IsReadable : Lexeme → Prop
  | .integer n => n ≤ Atom.integerLimit
  | .double x => Double.isFinite x = true ∧ Double.isNegative x = false
  | .symbol name => name ≠ ""
  | .operator name => Operator.IsReadable name
  | .newline => False
  | _ => True

end RCode
