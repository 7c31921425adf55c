import RCode.Call.Basic

/-!
# Editing calls

Edits give a new call and keep the head, the position and every argument they are not about. An
argument to replace or to remove has to exist. A new one can go to any place that can be counted at
all, since places beyond either end mean that end.
-/

set_option autoImplicit false

namespace RCode

/-- How an argument is found. -/
inductive ArgKey where
  /-- By its place; negative places count from the end. -/
  | index (i : Int)
  /-- By its name. -/
  | name (s : String)

/-- Why an edit fails. -/
inductive EditError where
  | noSuchIndex (count : Nat) (i : Int)
  | noSuchName (name : String)
  /-- The index of a new argument is too large for any list, in either direction. -/
  | indexTooLarge
  | node (e : NodeError)

namespace EditError

/-- The message, where the library gives one. -/
def message? : EditError → Option String
  | .noSuchIndex count i =>
    some ("call has " ++ toString count ++ " argument(s), no index " ++ toString i)
  | .noSuchName name => some (Text.quoted name)
  | .indexTooLarge => none
  | .node e => some e.message

end EditError

namespace Call

/-- The place of the argument with a key. -/
def place (c : Call) : ArgKey → Except EditError Nat
  | .index i =>
    let count := c.args.length
    if -(count : Int) ≤ i ∧ i < count then .ok (i % count).toNat
    else .error (if Text.isShort i then .noSuchIndex count i else .node .unwritable)
  | .name name =>
    match c.args.findIdx? fun a => a.name = some name with
    | some i => .ok i
    | none => .error (.noSuchName name)

/-- Another head. -/
def withHead (c : Call) (head : Node) : Except EditError Call :=
  (build head c.args c.position).mapError .node

/-- Other arguments. -/
def withArgs (c : Call) (args : List (Arg Node)) : Call :=
  { c with args := args }

/-- Another value for one argument, which keeps its name and its place. -/
def replaceArg (c : Call) (key : ArgKey) (value : Node) : Except EditError Call := do
  let i ← c.place key
  let arg ← (Arg.build (c.args[i]?.bind Arg.name) value).mapError .node
  return { c with args := c.args.set i arg }

/-- The place in a list of `count` things that an index means: negative ones count from the end,
and those beyond an end mean that end. -/
def clampIndex (count : Nat) (i : Int) : Nat :=
  if i < 0 then (i + count).toNat else min i.toNat count

/-- The place of a new argument. -/
def insertionPlace (c : Call) : Option Int → Except EditError Nat
  | none => .ok c.args.length
  | some i =>
    if -Value.countLimit ≤ i ∧ i < Value.countLimit then .ok (clampIndex c.args.length i)
    else .error .indexTooLarge

/-- One more argument, at an index or at the end. -/
def addArg (c : Call) (value : Node) (name : Option String) (index : Option Int) :
    Except EditError Call := do
  let arg ← (Arg.build name value).mapError .node
  let i ← c.insertionPlace index
  return { c with args := c.args.insertIdx i arg }

/-- One argument less. -/
def removeArg (c : Call) (key : ArgKey) : Except EditError Call := do
  let i ← c.place key
  return { c with args := c.args.eraseIdx i }

/-- A named argument set to a value, or removed if the value is NULL. An argument of that name keeps
its place, the first if there are several; removal is of all of them. -/
def change (c : Call) (name : String) (value : Value) : Except EditError Call := do
  if value.isNull then return c.withArgs (c.args.filter fun a => a.name ≠ some name)
  else if some name ∈ c.names then c.replaceArg (.name name) (← value.quote.mapError .node)
  else c.addArg (← value.quote.mapError .node) (some name) none

/-- Changes to named arguments, one after the other. -/
def modify (c : Call) (changes : List (Entry Value)) : Except EditError Call :=
  changes.foldlM (fun c e => c.change e.name e.value) c

end Call

end RCode
