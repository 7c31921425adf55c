/-!
# Tables of characters

A character property is a table of closed code-point ranges, in ascending order. Looking a character
up stops at the first range that starts beyond it, so ASCII characters are settled by the first few
entries.
-/

set_option autoImplicit false

namespace RCode.Text

/-- Closed code-point ranges, ascending and apart from each other. -/
abbrev CharTable := List (Nat × Nat)

namespace CharTable

/-- The code point lies in one of the ranges. -/
def contains : CharTable → Nat → Bool
  | [], _ => false
  | (low, high) :: rest, n =>
    if n < low then false else if n ≤ high then true else contains rest n

/-- Every range is non-empty and ends before the next one starts. -/
def Ascending : CharTable → Prop
  | [] => True
  | [(low, high)] => low ≤ high
  | (low, high) :: (low', high') :: rest =>
    low ≤ high ∧ high < low' ∧ Ascending ((low', high') :: rest)

end CharTable

end RCode.Text
