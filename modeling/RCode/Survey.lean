import RCode.Assignment
import RCode.Deprecation
import RCode.Scope

/-!
# Surveys of programs

A survey runs one analysis over all trees of a program, keeps its figures and can say in a line or
two what it found.
-/

set_option autoImplicit false

namespace RCode.Survey

/-- How often each name occurs, in the order of first occurrence. -/
def tally (names : List String) : List (String × Nat) :=
  names.eraseDups.map fun name => (name, names.count name)

/-- A line that says what was found. -/
def line (text : String) : String :=
  "[analysis] " ++ text

/-! ## Deprecated names -/

/-- The uses of deprecated names. -/
structure Deprecated where
  expressions : Nat
  found : List Node

namespace Deprecated

def ofProgram (names : List String) (nodes : List Node) : Deprecated :=
  ⟨nodes.length, Node.programUses names nodes⟩

/-- How often each name is used, in the order of first use. -/
def byName (d : Deprecated) : List (String × Nat) :=
  tally (d.found.filterMap Node.name?)

/-- A line for each name, those used more often first. -/
def lines (d : Deprecated) : List String :=
  (d.byName.mergeSort fun a b => decide (b.2 ≤ a.2)).map fun (name, count) =>
    line ("'" ++ name ++ "' used " ++ toString count ++ " time(s)")

end Deprecated

/-! ## Assigned names -/

/-- The set of assigned names. -/
structure Assigned where
  expressions : Nat
  names : List String

namespace Assigned

def ofProgram (nodes : List Node) : Assigned :=
  ⟨nodes.length, Node.programAssigned nodes⟩

def lines (a : Assigned) : List String :=
  [line (toString a.names.length ++ " assigned name(s)")]

end Assigned

/-! ## Global names -/

/-- The set of global names. -/
structure Globals where
  expressions : Nat
  names : List String

namespace Globals

def ofProgram (withFunctions : Bool) (nodes : List Node) : Except NodeError Globals :=
  (Node.globals nodes withFunctions).map fun names => ⟨nodes.length, names⟩

def lines (g : Globals) : List String :=
  if g.names.isEmpty then [] else [line ("globals: " ++ ", ".intercalate g.names)]

end Globals

end RCode.Survey
