import RCode.NameSet
import RCode.Node.Build
import RCode.Operator

/-!
# Names that a program takes from its surroundings

The top level and every definition of a function are scopes. What a scope does with names is a list
of events in the order of evaluation: it reads and binds names and defines functions, which are
scopes inside it. An assignment binds its name for the events after it, so that a name read before
is taken from outside. Functions run after they are defined: they are put off until the scope that
defines them is complete. A name is global in a program if some read of it sees no binding.
-/

set_option autoImplicit false

namespace RCode

/-- What a scope does with names. -/
inductive ScopeEvent where
  | read (name : String)
  | bind (name : String)
  /-- An assignment to the empty text, which is no name. -/
  | nameless
  /-- A function is defined; the events are those of its own scope. -/
  | define (events : List ScopeEvent)

namespace Scope

/-- The calls of these names belong to the language and read no function. -/
def constructs : List String := [
  "\x7b", "(", "if", "for", "while", "repeat", "function", "break", "next",
  "<-", "<<-", "=", "quote", "~", "::", ":::"]

/-- The arguments of calls of these names are not evaluated. -/
def quotations : List String := ["quote", "~", "::", ":::"]

/-- What a call does with names, apart from its parts. -/
inductive Role where
  /-- An assignment with a target and a value; an outward one binds its name elsewhere. -/
  | assignment (outward : Bool)
  | definition
  /-- A loop over the items of a sequence. -/
  | loop
  | quotation
  /-- The selection of a part by a name, which is not read. -/
  | selection
  | application
deriving DecidableEq, Repr

/-- The role of a call. -/
def Role.of (head : Node) (args : List (Arg Node)) : Role :=
  match head.name? with
  | none => .application
  | some name =>
    if name ∈ Operator.assignments ∧ args.length = 2 then .assignment (name = "<<-")
    else if name = "function" ∧ args.head?.any (fun a => a.value.isParams) then .definition
    else if name = "for" ∧ args.length = 3 ∧ args.head?.any (fun a => a.value.name?.isSome) then
      .loop
    else if name ∈ quotations then .quotation
    else if name ∈ Operator.members ∧ args.length = 2 then .selection
    else .application

/-- The reading of the function that a call names, unless it belongs to the language. -/
def readFunction (withFunctions : Bool) (name : String) : List ScopeEvent :=
  if withFunctions && name ∉ constructs then [.read name] else []

/-- The binding of an assigned name. -/
def bindTarget (outward : Bool) (name : String) : List ScopeEvent :=
  if name = "" then [.nameless] else if outward then [] else [.bind name]

mutual

/-- What the evaluation of a tree does with names; the functions that calls name are read
`withFunctions` only. -/
def events (withFunctions : Bool) : Node → List ScopeEvent
  | .symbol name _ => [.read name]
  | .params items _ => eventsParams withFunctions items
  | .call head args _ =>
    match Role.of head args, args with
    | .assignment outward, [target, value] =>
      events withFunctions value.value ++
        match target.value.targetName? with
        | some name => bindTarget outward name
        | none => eventsTarget withFunctions target.value
    | .definition, ⟨_, .params items _⟩ :: rest =>
      let body :=
        match rest with
        | [] => []
        | a :: _ => events withFunctions a.value
      [.define (items.map (fun p => .bind p.name) ++ body ++ eventsParams withFunctions items)]
    | .loop, [⟨_, .symbol name _⟩, sequence, body] =>
      events withFunctions sequence.value ++ .bind name :: events withFunctions body.value
    | .quotation, _ => []
    | role, args =>
      (match head with
        | .symbol name _ => readFunction withFunctions name
        | head => events withFunctions head) ++
      match role, args with
      | .selection, [target, _] => events withFunctions target.value
      | _, args => eventsArgs withFunctions args
  | _ => []

/-- What the values of arguments do with names. -/
def eventsArgs (withFunctions : Bool) : List (Arg Node) → List ScopeEvent
  | [] => []
  | a :: rest => events withFunctions a.value ++ eventsArgs withFunctions rest

/-- What the defaults of parameters do with names. -/
def eventsParams (withFunctions : Bool) : List (Param Node) → List ScopeEvent
  | [] => []
  | p :: rest => events withFunctions p.default ++ eventsParams withFunctions rest

/-- What a target such as `names(x)` or `x$a` does with names: it reads the thing that changes and
the function that changes it. -/
def eventsTarget (withFunctions : Bool) : Node → List ScopeEvent
  | .symbol name _ => [.read name]
  | .params items _ => eventsParams withFunctions items
  | .call head args _ =>
    if args.isEmpty && head.name?.any (· ∈ quotations) then []
    else
      (match head with
        | .symbol name _ => readFunction withFunctions name
        | head => events withFunctions head) ++
      match args with
      | [] => []
      | base :: rest =>
        eventsTarget withFunctions base.value ++
          if head.name?.any (· ∈ Operator.members) then [] else eventsArgs withFunctions rest
  | _ => []

end

/-! ## Reading scopes -/

/-- What is known while a scope is read. -/
structure Finder where
  /-- The names that the scope has bound so far. -/
  names : List String
  /-- The names that the scopes around it have bound, from the inside out. -/
  outer : List (List String)
  /-- The functions that the scope has defined so far, in order. -/
  deferred : List (List ScopeEvent)
  /-- The names whose reads saw no binding. -/
  globals : List String

namespace Finder

/-- A scope of which nothing has been read. -/
def opened (outer : List (List String)) (globals : List String) : Finder :=
  ⟨[], outer, [], globals⟩

/-- The scope or one around it has bound the name. -/
def isBound (s : Finder) (name : String) : Bool :=
  name ∈ s.names || s.outer.any (name ∈ ·)

/-- Reads one event of the scope. -/
def perform (s : Finder) : ScopeEvent → Except NodeError Finder
  | .read name => .ok (if s.isBound name then s else { s with globals := name :: s.globals })
  | .bind name => .ok { s with names := name :: s.names }
  | .nameless => .error .emptySymbol
  | .define body => .ok { s with deferred := s.deferred ++ [body] }

/-- Reads the events of the scope. -/
def run (s : Finder) : List ScopeEvent → Except NodeError Finder
  | [] => .ok s
  | e :: rest => do
    let s ← s.perform e
    run s rest

end Finder

/-- The number of functions that events define, those inside of functions included. -/
def functionCount : List ScopeEvent → Nat
  | [] => 0
  | .define body :: rest => functionCount body + 1 + functionCount rest
  | _ :: rest => functionCount rest

/-- The number of functions that are still to be read. -/
def pending : List (List ScopeEvent) → Nat
  | [] => 0
  | body :: rest => functionCount body + 1 + pending rest

theorem pending_append (bodies more : List (List ScopeEvent)) :
    pending (bodies ++ more) = pending bodies + pending more := by
  induction bodies with
  | nil => rw [List.nil_append, pending, Nat.zero_add]
  | cons body bodies ih => rw [List.cons_append, pending, pending, ih, Nat.add_assoc _ (pending _)]

theorem pending_perform {s s' : Finder} {e : ScopeEvent} (h : s.perform e = .ok s') :
    pending s'.deferred = pending s.deferred + functionCount [e] := by
  cases e with
  | read name =>
    cases h
    rw [functionCount, functionCount]
    · split <;> rfl
    · nofun
  | bind name =>
    cases h
    rw [functionCount, functionCount]
    · rfl
    · nofun
  | nameless => cases h
  | define body =>
    cases h
    rw [pending_append, functionCount, functionCount, pending, pending]

theorem functionCount_cons (e : ScopeEvent) (rest : List ScopeEvent) :
    functionCount (e :: rest) = functionCount [e] + functionCount rest := by
  cases e <;> simp [functionCount]

/-- A scope puts off the functions that it defines. -/
theorem pending_run {s s' : Finder} {events : List ScopeEvent} (h : s.run events = .ok s') :
    pending s'.deferred = pending s.deferred + functionCount events := by
  induction events generalizing s with
  | nil =>
    cases h
    rw [functionCount, Nat.add_zero]
  | cons e rest ih =>
    cases hfirst : s.perform e with
    | error problem =>
      rw [Finder.run, hfirst] at h
      cases h
    | ok s₁ =>
      rw [Finder.run, hfirst] at h
      rw [ih h, pending_perform hfirst, functionCount_cons e rest, Nat.add_assoc]

/-- Reads the functions with the given bodies inside the scopes with the names `outer`. The functions
that one of them defines are read as soon as its own scope is complete. -/
def close (outer : List (List String)) (globals : List String) :
    List (List ScopeEvent) → Except NodeError (List String)
  | [] => .ok globals
  | body :: rest =>
    match h : (Finder.opened outer globals).run body with
    | .error problem => .error problem
    | .ok s => do
      have hlt : pending s.deferred < pending (body :: rest) := by
        have := pending_run h
        simp only [Finder.opened, pending] at this ⊢
        omega
      let globals ← close (s.names :: outer) s.globals s.deferred
      close outer globals rest
termination_by bodies => pending bodies
decreasing_by
  · exact hlt
  · rw [pending]
    omega

end Scope

namespace Node

/-- The set of names that a program reads and does not bind. -/
def globals (nodes : List Node) (withFunctions : Bool := true) : Except NodeError (List String) := do
  let s ← (Scope.Finder.opened [] []).run (nodes.flatMap (Scope.events withFunctions))
  let names ← Scope.close [s.names] s.globals s.deferred
  return sortedNames names

end Node

end RCode
