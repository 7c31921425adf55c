import RCode.Builtin
import RCode.Node.Build

/-!
# Values

What evaluation computes: atoms, lists, lists with names, functions and trees. Integers have no
bound here; only literals in trees have.
-/

set_option autoImplicit false

namespace RCode

/-- A thing under a name. -/
structure Entry (α : Type) where
  name : String
  value : α

/-- A value. -/
inductive Value where
  | atom (value : Atom)
  | list (items : List Value)
  /-- Values under different names, in order. -/
  | dict (entries : List (Entry Value))
  | function (f : Callable)
  | node (tree : Node)

instance : Inhabited Value := ⟨.atom .null⟩

/-- Puts a thing under a name: in its place if the name is taken, at the end if not. -/
def Entry.put {α : Type} (entries : List (Entry α)) (name : String) (value : α) :
    List (Entry α) :=
  match entries with
  | [] => [⟨name, value⟩]
  | e :: rest => if e.name = name then ⟨name, value⟩ :: rest else e :: put rest name value

/-- The things under different names; a repeated name keeps its first place and takes the last
thing. -/
def Entry.distinct {α : Type} (entries : List (Entry α)) : List (Entry α) :=
  entries.foldl (fun acc e => put acc e.name e.value) []

/-- The first thing under a name. -/
def Entry.find? {α : Type} (entries : List (Entry α)) (name : String) : Option α :=
  match entries with
  | [] => none
  | e :: rest => if e.name = name then some e.value else find? rest name

namespace Value

/-- The null value. -/
def null : Value := .atom .null

/-- The logical value of a truth. -/
def logical (b : Bool) : Value := .atom (.logical b)

/-- An integer value. -/
def integer (n : Int) : Value := .atom (.integer n)

/-- A double value. -/
def double (x : Float) : Value := .atom (.double x)

/-- A text value. -/
def text (s : String) : Value := .atom (.text s)

/-- Counts and indices are below this limit, and not below its negative. -/
def countLimit : Int := (2 ^ 63 : Nat)

/-- The value is NULL. -/
def isNull : Value → Bool
  | .atom .null => true
  | _ => false

/-- The type of the value as messages name it. -/
def kind : Value → String
  | .atom a => a.kind
  | .list _ => "list"
  | .dict _ => "dict"
  | .function f => f.kind
  | .node n => n.kind

mutual

/-- The value as messages show it. -/
def inspect : Value → String
  | .atom a => a.inspect
  | .list items => "[" ++ ", ".intercalate (inspectItems items) ++ "]"
  | .dict entries => "\x7b" ++ ", ".intercalate (inspectEntries entries) ++ "\x7d"
  | .function f => f.inspect
  | .node n => n.inspect

/-- The items of a list as messages show them. -/
def inspectItems : List Value → List String
  | [] => []
  | v :: rest => v.inspect :: inspectItems rest

/-- Named values as messages show them. -/
def inspectEntries : List (Entry Value) → List String
  | [] => []
  | e :: rest => (Text.quoted e.name ++ ": " ++ e.value.inspect) :: inspectEntries rest

end

mutual

/-- The value has a text: no integer in it is too long. In trees none ever is. -/
def isWritable : Value → Bool
  | .atom a => a.isWritable
  | .list items => areWritable items
  | .dict entries => entriesAreWritable entries
  | .function _ => true
  | .node _ => true

/-- The items of a list have texts. -/
def areWritable : List Value → Bool
  | [] => true
  | v :: rest => v.isWritable && areWritable rest

/-- Named values have texts. -/
def entriesAreWritable : List (Entry Value) → Bool
  | [] => true
  | e :: rest => e.value.isWritable && entriesAreWritable rest

end

/-- The value as messages show it, if it has a text. -/
def shown? (v : Value) : Option String :=
  if v.isWritable then some v.inspect else none

/-! ## Values as trees -/

/-- The error of a value that is shown in its message. -/
def refusedBy (v : Value) (error : String → NodeError) : NodeError :=
  v.shown?.elim .unwritable error

/-- A constant with the value; only atoms are constants. -/
def toConstant (v : Value) (position : Position) : Except NodeError Node :=
  match v with
  | .atom a => Node.ofAtom a position
  | _ => .error (v.refusedBy (.notAtomic v.kind))

mutual

/-- The tree that stands for a value. A tree stands for itself, an atom becomes a constant, and a
list of one item stands for its item; nothing else has a tree. -/
def quote : Value → Except NodeError Node
  | .node n => .ok n
  | .atom a => Node.ofAtom a .nowhere
  | .list items => quoteOnly items
  | .dict entries => .error ((Value.dict entries).refusedBy (.unquotable "dict"))
  | .function f => .error ((Value.function f).refusedBy (.unquotable f.kind))

/-- The tree of the only item of a list. -/
def quoteOnly : List Value → Except NodeError Node
  | [v] => v.quote
  | items => .error (.sequence items.length)

end

end Value

end RCode
