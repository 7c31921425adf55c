import RCode.Expansion
import RCode.Node.Object

/-!
# Expanding objects

An expansion builds an object again only if one of its parts has become another object; a tree of
which all parts stay the same is given back itself. What a marker stands for is an object, too: a new
one, one that a name is bound to, or a part of the tree. A reading says which objects these are. It is
at liberty in their identities, but not in their trees, which are those that evaluation gives
(`Reading.Agrees`).
-/

set_option autoImplicit false

namespace RCode

open Expansion (Site unquote splicedArgs)

/-- The objects that markers stand for. -/
structure Reading where
  /-- The object of an escape. -/
  escape : Host → Object → Except ExpansionError Object
  /-- The values of the arguments of a splice with their names. -/
  splice : Host → Object → Except ExpansionError (List (Option String × Object))

namespace Object

/-- The object is a splice. -/
def isSplice (m : Markers) : Object → Bool
  | .call _ head _ _ => m.isSplice head.node
  | _ => false

/-- New arguments. -/
def newArgs (next : Nat) :
    List (Option String × Object) → List (Slot (Option String) Object) × Nat
  | [] => ([], next)
  | (name, value) :: rest =>
    let (rest', next') := newArgs (next + 1) rest
    (⟨next, name, value⟩ :: rest', next')

mutual

/-- The object with its markers expanded, for its site, and the next identity that is free. -/
def expandAt (r : Reading) (m : Markers) (h : Host) (site : Site) (next : Nat) :
    Object → Except ExpansionError (Object × Nat)
  | .call i head args p =>
    if m.isEscape head.node then do
      let new ← r.escape h (.call i head args p)
      let _ ← site.check m p new.node
      return (new, next)
    else if m.isSplice head.node then
      .error (.ofMarker (.misplacedSplice (m.splice.getD "")) p)
    else do
      let (head', next) ← expandAt r m (h.under 0) .head next head
      let (args', next) ← expandArgs r m h.arguments next args
      if head'.id = head.id ∧ args'.map Slot.id = args.map Slot.id then
        return (.call i head args p, next)
      else return (.call next head' args' p, next + 1)
  | .params i items p => do
    let (items', next) ← expandParams r m h.arguments next items
    if items'.map Slot.id = items.map Slot.id then return (.params i items p, next)
    else return (.params next items' p, next + 1)
  | o => .ok (o, next)

/-- The arguments with their markers expanded. An argument is kept if its value is the same. -/
def expandArgs (r : Reading) (m : Markers) (hs : Nat → Host) (next : Nat) :
    List (Slot (Option String) Object) →
      Except ExpansionError (List (Slot (Option String) Object) × Nat)
  | [] => .ok ([], next)
  | a :: rest => do
    let (new, next) ←
      if a.value.isSplice m then
        match a.name with
        | some name =>
          throw (.ofMarker (.namedSplice (m.splice.getD "") name) a.value.node.position)
        | none => (r.splice (hs 0) a.value).map (newArgs next)
      else
        (expandAt r m (hs 0) .argument next a.value).map fun (value, next) =>
          let (a', next) := refill next a value
          ([a'], next)
    let (rest', next) ← expandArgs r m (fun i => hs (i + 1)) next rest
    return (new ++ rest', next)

/-- The parameters with the markers in their defaults expanded. A parameter is kept if its default is
the same. -/
def expandParams (r : Reading) (m : Markers) (hs : Nat → Host) (next : Nat) :
    List (Slot String Object) → Except ExpansionError (List (Slot String Object) × Nat)
  | [] => .ok ([], next)
  | q :: rest => do
    let (value, next) ← expandAt r m (hs 0) .free next q.value
    let (q', next) := refill next q value
    let (rest', next) ← expandParams r m (fun i => hs (i + 1)) next rest
    return (q' :: rest', next)

end

/-- The object with its markers expanded, where the identities from `next` on are free. -/
def expand (o : Object) (r : Reading) (h : Host) (next : Nat) (m : Markers := {}) :
    Except ExpansionError Object :=
  (expandAt r m h .free next o).map Prod.fst

end Object

namespace Reading

/-- The reading gives the trees of the values of the operands. An object with an identity below
`next` is known by it. -/
structure Agrees (r : Reading) (m : Markers) (c : Context) (next : Nat) : Prop where
  escape : ∀ (h : Host) (i : Nat) (head : Object) (args : List (Slot (Option String) Object))
    (p : Position), m.isEscape head.node = true →
      (r.escape h (.call i head args p)).map Object.node =
        unquote m h c (Object.nodeArgs args) p
  splice : ∀ (h : Host) (i : Nat) (head : Object) (args : List (Slot (Option String) Object))
    (p : Position), m.isSplice head.node = true →
      (r.splice h (.call i head args p)).map (List.map fun x => ⟨x.1, x.2.node⟩) =
        splicedArgs h c (m.splice.getD "") (Object.nodeArgs args) p
  known : ∀ (h : Host) (o new : Object), o.id < next → r.escape h o = .ok new → new.id = o.id →
    new = o

/-- The reading in which markers stand for new objects, with identities from `next` on. -/
def fresh (m : Markers) (c : Context) (next : Nat) : Reading where
  escape h o := do
    match o with
    | .call _ _ args p => return (Object.ofNode next (← unquote m h c (Object.nodeArgs args) p)).1
    | o => return (Object.ofNode next o.node).1
  splice h o := do
    match o with
    | .call _ _ args p =>
      let new ← splicedArgs h c (m.splice.getD "") (Object.nodeArgs args) p
      return new.map fun a => (a.name, (Object.ofNode next a.value).1)
    | _ => return []

end Reading

end RCode
