/-!
# Sets of names

Sets of names are shown in the order of their code points, each name once.
-/

set_option autoImplicit false

namespace RCode

/-- The different names of a list, in the order of their code points. -/
def sortedNames (names : List String) : List String :=
  names.eraseDups.mergeSort fun a b => decide (a ≤ b)

/-- Sorting keeps the names. -/
theorem mem_sortedNames {name : String} {names : List String} :
    name ∈ sortedNames names ↔ name ∈ names := by
  simp [sortedNames]

end RCode
