import RCode.Value.Number

/-!
# Comparing values

Values of unlike types are never equal, but integers, doubles and logicals are compared as numbers,
without rounding. Numbers, texts and lists have an order; lists are ordered by the first items that
differ. NaN is equal to nothing, but items of lists are also equal if they are the same object: this
matters only for NaN.
-/

set_option autoImplicit false

namespace RCode

/-- The comparisons by order. -/
inductive Comparison where
  | less
  | greater
  | lessEqual
  | greaterEqual
deriving DecidableEq, Repr

/-- The comparison holds of things in a given order. -/
def Comparison.holds : Comparison → Ordering → Bool
  | .less, o => o.isLT
  | .greater, o => o.isGT
  | .lessEqual, o => o.isLE
  | .greaterEqual, o => o.isGE

namespace Value

/-- The values are one NaN. -/
def isSameNaN : Value → Value → Bool
  | .atom a, .atom b => a.isSameNaN b
  | _, _ => false

mutual

/-- The values are equal. -/
def equal : Value → Value → Bool
  | .list as, .list bs => equalItems as bs
  | .dict as, .dict bs => as.length == bs.length && equalEntries as bs
  | .function f, .function g => f == g
  | .node m, .node n => m.same n
  | .atom .null, .atom .null => true
  | .atom (.text s), .atom (.text t) => s == t
  | a, b =>
    match a.number?, b.number? with
    | some m, some n => m.compare? n == some .eq
    | _, _ => false

/-- The items are equal one by one, or the same. -/
def equalItems : List Value → List Value → Bool
  | [], [] => true
  | a :: as, b :: bs => (a.isSameNaN b || a.equal b) && equalItems as bs
  | _, _ => false

/-- Every entry has an equal one or the same under its name, in whatever order. -/
def equalEntries : List (Entry Value) → List (Entry Value) → Bool
  | [], _ => true
  | e :: rest, others =>
    (match Entry.find? others e.name with
      | some v => e.value.isSameNaN v || e.value.equal v
      | none => false) && equalEntries rest others

end

mutual

/-- A comparison by order; unlike types have none. -/
def compareBy (c : Comparison) : Value → Value → Except Failure Bool
  | .list as, .list bs => compareItems c as bs
  | .atom (.text s), .atom (.text t) => .ok (c.holds (compareOfLessAndEq s t))
  | a, b =>
    match a.number?, b.number? with
    | some m, some n => .ok ((m.compare? n).any c.holds)
    | _, _ => .error .wrongType

/-- The comparison of the first items that differ, or of the lengths. -/
def compareItems (c : Comparison) : List Value → List Value → Except Failure Bool
  | a :: as, b :: bs =>
    if a.isSameNaN b || a.equal b then compareItems c as bs else compareBy c a b
  | as, bs => .ok (c.holds (compare as.length bs.length))

end

/-- The value counts as true: everything does but NULL, FALSE, zero and what is empty. -/
def truth : Value → Bool
  | .atom .null => false
  | .atom (.logical b) => b
  | .atom (.integer n) => n != 0
  | .atom (.double x) => !Double.isZero x
  | .atom (.nan _) => true
  | .atom (.text s) => s != ""
  | .list items => !items.isEmpty
  | .dict entries => !entries.isEmpty
  | .function _ => true
  | .node _ => true

end Value

end RCode
