import RCode.Value.Arithmetic

/-!
# Vectors and their text

Lists within lists count as one vector: `flatten` takes their items in order and leaves NULL out.
The text of an item is that of `paste`, in the spelling of the language for logicals and without a
point for whole doubles.
-/

set_option autoImplicit false

namespace RCode.Value

mutual

/-- The items of a vector that is a single value. -/
def flattenOne : Value → List Value
  | .list items => flatten items
  | .atom .null => []
  | v => [v]

/-- The items of a vector, lists within lists taken apart and NULL left out. -/
def flatten : List Value → List Value
  | [] => []
  | v :: rest => v.flattenOne ++ flatten rest

end

/-- A vector of one item is that item. -/
def combine (values : List Value) : Value :=
  match flatten values with
  | [v] => v
  | items => .list items

/-- The length of a value: NULL has none, lists have that of their items, all else is one thing. -/
def length : Value → Nat
  | .atom .null => 0
  | .list items => items.length
  | .dict entries => entries.length
  | _ => 1

/-- The text of an item, if it has one. -/
def asText : Value → Except Failure String
  | .atom (.text s) => .ok s
  | .atom (.logical b) => .ok (if b then "TRUE" else "FALSE")
  | .atom (.double x) =>
    .ok (if Double.isIntegral x then toString (Double.truncate x) else Double.write x)
  | .node (.symbol name _) => .ok name
  | v =>
    match v.shown? with
    | some shown => .ok shown
    | none => .error .wrongValue

/-- The texts of the items of a vector, joined. -/
def paste (separator : String) (values : List Value) : Except Failure Value := do
  return .text (separator.intercalate (← (flatten values).mapM asText))

/-- The sum of the items of a vector, from the left, starting at the integer 0. -/
def sum (w : Workspace) (values : List Value) : Except Failure Value :=
  (flatten values).foldlM (add w) (.integer 0)

end RCode.Value
