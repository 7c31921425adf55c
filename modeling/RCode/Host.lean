import RCode.Value.Number

/-!
# Hosts

A host is what evaluation gets from outside, apart from the context: how much can be kept in memory,
the functions that a caller has brought along, the words for failures that are not those of this
library, and which NaN it is that a call makes. The last question is answered by the place of the call
in the tree, so that what is made at one place is told from all that is made elsewhere.
-/

set_option autoImplicit false

namespace RCode

/-- What a function of a caller raises. -/
inductive Raised where
  /-- An error of this library, by its class. -/
  | own (kind message : String)
  /-- Any other error, by its class. -/
  | other (kind message : String)

/-- What evaluation gets from outside. -/
structure Host where
  /-- More characters or items than this cannot be kept. -/
  memory : Nat
  /-- Which NaN those are that the call at a place makes. -/
  object : Place → Nat → Identity
  /-- What a function of a caller gives for values by place and by name, where it names the NaN that
  it makes as it is told. -/
  call : Foreign → (Nat → Identity) → List Value → List (Entry Value) → Except Raised Value
  /-- The words for the failure of a function for values by place and by name. -/
  words : Builtin → List Value → List (Entry Value) → Failure → String

namespace Host

/-- The host for a part of a tree. Parts are counted in order, the head of a call first. -/
def under (h : Host) (i : Nat) : Host :=
  { h with object := fun p => h.object (i :: p) }

/-- The hosts for the arguments of a call. -/
def arguments (h : Host) (i : Nat) : Host :=
  h.under (i + 1)

/-- The host for trees that stand elsewhere: `origin` says where the places come from. -/
def moved (h : Host) (origin : Place → Place) : Host :=
  { h with object := fun p => h.object (origin p) }

/-- What the call at the root of the tree works with. -/
def workspace (h : Host) : Workspace :=
  ⟨h.memory, h.object []⟩

/-- A host that names every NaN by the place and the number that it is made with, for callers that
bring no functions along. -/
def plain (memory : Nat) : Host where
  memory := memory
  object := .made
  call := fun _ _ _ _ => .error (.other "TypeError" "")
  words := fun _ _ _ _ => ""

end Host

end RCode
