import RCode.NameSet
import RCode.Value

/-!
# Contexts

A context says what names are bound to. It is a chain of frames: a name means what the innermost
frame with that name binds it to.
-/

set_option autoImplicit false

namespace RCode

/-- Values under different names. -/
abbrev Frame := List (Entry Value)

/-- A frame on top of the frames around it, the nearest first. -/
structure Context where
  bindings : Frame
  outer : List Frame := []

namespace Context

/-- The value of a name in a chain of frames. -/
def lookupIn? (name : String) : List Frame → Option Value
  | [] => none
  | frame :: outer => (Entry.find? frame name).or (lookupIn? name outer)

/-- The value of a name. -/
def lookup? (c : Context) (name : String) : Option Value :=
  lookupIn? name (c.bindings :: c.outer)

/-- A new frame on top of the context. -/
def child (c : Context) (bindings : Frame) : Context :=
  ⟨bindings, c.bindings :: c.outer⟩

/-- The frame of the base functions. -/
def baseFrame : Frame :=
  Builtin.base.map fun (name, f) => ⟨name, .function (.builtin f)⟩

/-- Bindings on top of the base functions. -/
def base (bindings : Frame := []) : Context :=
  ⟨bindings, [baseFrame]⟩

/-- The names of the innermost frame. -/
def names (c : Context) : List String :=
  sortedNames (c.bindings.map Entry.name)

/-- How many frames lie around the innermost one. -/
def depth (c : Context) : Nat :=
  c.outer.length

/-- The context as messages show it. -/
def inspect (c : Context) : String :=
  "Context([" ++ ", ".intercalate (c.names.map Text.quoted) ++ "], depth=" ++ toString c.depth ++
    ")"

end Context

end RCode
