/-!
# Operators

One table serves reading, parsing and rendering: the spellings of the operators and how tightly
each binds, as a prefix and between two operands. Higher powers bind tighter. Besides the table
there are the user-defined operators, spelled `%name%`.
-/

set_option autoImplicit false

namespace RCode.Operator

/-- How an operator between two operands binds. -/
structure Binding where
  power : Nat
  rightAssociative : Bool
deriving DecidableEq, Repr

/-- The operators that stand between two operands. -/
def binaryTable : List (String × Binding) := [
  ("?", ⟨10, false⟩),
  ("=", ⟨20, true⟩),
  ("<-", ⟨30, true⟩), ("<<-", ⟨30, true⟩),
  ("->", ⟨40, false⟩), ("->>", ⟨40, false⟩),
  ("~", ⟨50, false⟩),
  ("||", ⟨60, false⟩), ("|", ⟨60, false⟩),
  ("&&", ⟨70, false⟩), ("&", ⟨70, false⟩),
  ("==", ⟨90, false⟩), ("!=", ⟨90, false⟩), ("<", ⟨90, false⟩), (">", ⟨90, false⟩),
  ("<=", ⟨90, false⟩), (">=", ⟨90, false⟩),
  ("+", ⟨100, false⟩), ("-", ⟨100, false⟩),
  ("*", ⟨110, false⟩), ("/", ⟨110, false⟩),
  ("|>", ⟨120, false⟩),
  (":", ⟨130, false⟩),
  ("^", ⟨150, true⟩),
  ("$", ⟨170, false⟩), ("@", ⟨170, false⟩),
  ("::", ⟨180, false⟩), (":::", ⟨180, false⟩)]

/-- The operators that stand before their operand, with their powers. -/
def prefixTable : List (String × Nat) := [
  ("?", 10), ("~", 50), ("!", 80), ("-", 140), ("+", 140)]

/-- The operators that assign the value on the right to the target on the left. -/
def assignments : List String := ["<-", "<<-", "="]

/-- The operators that select a part of a value by name. -/
def members : List String := ["$", "@"]

/-- The operators that name a thing in a package. -/
def qualifiers : List String := ["::", ":::"]

/-- The power of `%name%` operators. -/
def specialPower : Nat := 120

/-- The power of calls and indexing, which follow their operand. -/
def postfixPower : Nat := 160

/-- The power of `=`. -/
def assignPower : Nat := 20

/-- The name is spelled between two percent signs. -/
def isSpecial (name : String) : Bool :=
  let cs := name.toList
  2 ≤ cs.length && cs.head? == some '%' && cs.getLast? == some '%'

/-- How a name binds as an operator between two operands. -/
def binary? (name : String) : Option Binding :=
  (binaryTable.lookup name).or (if isSpecial name then some ⟨specialPower, false⟩ else none)

/-- The power of a name as an operator before its operand. -/
def prefix? (name : String) : Option Nat :=
  prefixTable.lookup name

/-- The operator a spelling stands for; `**` is an old spelling of `^`. -/
def ofSpelling? (spelling : String) : Option String :=
  if spelling = "**" then some "^"
  else if (binaryTable.lookup spelling).isSome || (prefixTable.lookup spelling).isSome then
    some spelling
  else none

/-- The longest operator at the start of a text, and the text after it. -/
def longest? (cs : List Char) : Option (String × List Char) :=
  [3, 2, 1].findSome? fun length =>
    if cs.length < length then none
    else (ofSpelling? (String.ofList (cs.take length))).map fun name => (name, cs.drop length)

theorem longest?_length {cs : List Char} {r : String × List Char} (h : longest? cs = some r) :
    r.2.length < cs.length := by
  obtain ⟨length, hmem, hfound⟩ := List.exists_of_findSome?_eq_some h
  split at hfound
  · cases hfound
  · next hlength =>
    obtain ⟨name, _, rfl⟩ := Option.map_eq_some_iff.mp hfound
    simp only [List.mem_cons, List.not_mem_nil, or_false] at hmem
    simp only [List.length_drop]
    omega

end RCode.Operator
