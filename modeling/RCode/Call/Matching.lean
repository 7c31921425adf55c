import RCode.Call.Basic
import RCode.Node.Printer

/-!
# Matching arguments with parameters

The arguments of a call are matched with the formal parameters of the called function: first by
their exact names, then by names that begin exactly one parameter still free, then the unnamed ones
by their places. Parameters after `...` are matched by their exact names only. What is left goes to
`...` if there is one, and is an error if there is none.
-/

set_option autoImplicit false

namespace RCode

/-- Why arguments do not match the parameters. -/
inductive MatchError where
  /-- Two arguments have the name of one parameter. -/
  | matchedTwice (name : String)
  /-- The name of an argument begins several parameters. -/
  | ambiguous (name : String) (candidates : List String)
  /-- There is no parameter for an argument. -/
  | unused (shown : String)
deriving DecidableEq, Repr

namespace MatchError

def message : MatchError → String
  | .matchedTwice name => "formal argument '" ++ name ++ "' matched by multiple actual arguments"
  | .ambiguous name candidates =>
    "argument '" ++ name ++ "' matches multiple formal arguments: " ++
      ", ".intercalate candidates
  | .unused shown => "unused argument (" ++ shown ++ ")"

end MatchError

namespace Matching

/-- The parameter that takes what no other does. -/
def dots : String := "..."

/-- The parameters with values, in the order in which they got them. -/
abbrev Matched := List (Entry Node)

/-- The parameter has a value. -/
def Matched.has (matched : Matched) (name : String) : Bool :=
  matched.any fun e => e.name == name

/-- The parameters before `...`, which are matched by parts of their names and by place. -/
def leading (formals : List String) : List String :=
  formals.takeWhile (· ≠ dots)

/-- The arguments whose names are those of parameters, and the other ones. -/
def exactly (formals : List String) (matched : Matched) :
    List (Arg Node) → Except MatchError (Matched × List (Arg Node))
  | [] => .ok (matched, [])
  | a :: rest =>
    match a.name.filter fun name => name ≠ dots ∧ name ∈ formals with
    | some name =>
      if matched.has name then .error (.matchedTwice name)
      else exactly formals (matched ++ [⟨name, a.value⟩]) rest
    | none => (exactly formals matched rest).map fun (m, others) => (m, a :: others)

/-- The free parameters that a name begins. -/
def candidates (leading : List String) (matched : Matched) (name : String) : List String :=
  leading.filter fun formal => !matched.has formal && name.toList.isPrefixOf formal.toList

/-- The arguments whose names begin one free parameter each, and the other ones. -/
def partially (leading : List String) (matched : Matched) :
    List (Arg Node) → Except MatchError (Matched × List (Arg Node))
  | [] => .ok (matched, [])
  | a :: rest =>
    match a.name with
    | none => (partially leading matched rest).map fun (m, others) => (m, a :: others)
    | some name =>
      match candidates leading matched name with
      | [] => (partially leading matched rest).map fun (m, others) => (m, a :: others)
      | [formal] => partially leading (matched ++ [⟨formal, a.value⟩]) rest
      | several => .error (.ambiguous name several)

/-- An argument as the error message shows it. -/
def shown (a : Arg Node) : String :=
  match a.name with
  | none => a.value.render
  | some name => name ++ " = " ++ a.value.render

/-- The unnamed arguments for the free parameters, in order, and the arguments left over, which need
`...`. -/
def byPlace (hasDots : Bool) (free : List String) (matched : Matched) :
    List (Arg Node) → Except MatchError (Matched × List (Arg Node))
  | [] => .ok (matched, [])
  | a :: rest =>
    match a.name, free with
    | none, formal :: free => byPlace hasDots free (matched ++ [⟨formal, a.value⟩]) rest
    | _, _ =>
      if hasDots then
        (byPlace hasDots free matched rest).map fun (m, others) => (m, a :: others)
      else .error (.unused (shown a))

/-- The matched arguments in the order of the parameters, under their full names, with the arguments
of `...` at its place. -/
def ordered (formals : List String) (matched : Matched) (extra : List (Arg Node)) :
    List (Arg Node) :=
  formals.flatMap fun formal =>
    if formal = dots then extra
    else ((Entry.find? matched formal).map fun value => ⟨some formal, value⟩).toList

/-- The arguments matched with the parameters. -/
def standardArgs (formals : List String) (args : List (Arg Node)) :
    Except MatchError (List (Arg Node)) := do
  let (matched, others) ← exactly formals [] args
  let (matched, others) ← partially (leading formals) matched others
  let free := (leading formals).filter fun formal => !matched.has formal
  let (matched, extra) ← byPlace (dots ∈ formals) free matched others
  return ordered formals matched extra

end Matching

/-- The call with every matched argument under its full name, in the order of the parameters. -/
def Call.standardise (c : Call) (formals : List String) : Except MatchError Call :=
  (Matching.standardArgs formals c.args).map fun args => { c with args := args }

end RCode
