import Mathlib.Data.List.Forall2
import RCode.Node.Object
import RCode.Proofs.Node.Canonical
import RCode.Proofs.Node.Renaming

/-!
# Renaming in trees of objects

A walk that renames symbols compares identities to tell whether it must build an object again, one
level after the other (`Object.renamed`). It makes the tree that `Node.rename?` makes, and it gives
the object itself back exactly where that one gives `none`; objects without a renamed symbol are
reused as they are, wherever they stand (`Object.renamed_exact`).
-/

set_option autoImplicit false

namespace RCode

namespace Object

/-- What holds of all objects if it passes from the parts of an object to the object. -/
@[elab_as_elim]
theorem ind {motive : Object → Prop}
    (constant : ∀ i a p, motive (.constant i a p))
    (symbol : ∀ i name p, motive (.symbol i name p))
    (missing : ∀ i, motive (.missing i))
    (call : ∀ i head args p, motive head → (∀ a ∈ args, motive a.value) →
      motive (.call i head args p))
    (params : ∀ i items p, (∀ q ∈ items, motive q.value) → motive (.params i items p)) (o : Object) :
    motive o :=
  @Object.rec motive (fun args => ∀ a ∈ args, motive a.value)
    (fun items => ∀ q ∈ items, motive q.value) (fun a => motive a.value)
    (fun q => motive q.value) constant symbol missing call params
    (List.forall_mem_nil _) (fun _ _ ha hrest => List.forall_mem_cons.mpr ⟨ha, hrest⟩)
    (List.forall_mem_nil _) (fun _ _ hq hrest => List.forall_mem_cons.mpr ⟨hq, hrest⟩)
    (fun _ _ _ hvalue => hvalue) (fun _ _ _ hvalue => hvalue) o

mutual

/-- The nodes of the object as objects, in the order of `Node.preorder`. -/
def objects : Object → List Object
  | .call i head args p => .call i head args p :: (head.objects ++ objectsArgs args)
  | .params i items p => .params i items p :: objectsParams items
  | o => [o]

def objectsArgs : List (Slot (Option String) Object) → List Object
  | [] => []
  | a :: rest => a.value.objects ++ objectsArgs rest

def objectsParams : List (Slot String Object) → List Object
  | [] => []
  | q :: rest => q.value.objects ++ objectsParams rest

end

mutual

/-- The object with its symbols of one name renamed, and the next identity that is free. Objects are
built again where the identity of a part has changed. -/
def renamed (old new : String) (next : Nat) : Object → Object × Nat
  | .symbol i name p =>
    if name = old then (.symbol next new .nowhere, next + 1) else (.symbol i name p, next)
  | .call i head args p =>
    let (head', next) := renamed old new next head
    let (args', next) := renamedArgs old new next args
    if head'.id = head.id ∧ args'.map Slot.id = args.map Slot.id then (.call i head args p, next)
    else (.call next head' args' p, next + 1)
  | .params i items p =>
    let (items', next) := renamedParams old new next items
    if items'.map Slot.id = items.map Slot.id then (.params i items p, next)
    else (.params next items' p, next + 1)
  | o => (o, next)

def renamedArgs (old new : String) (next : Nat) :
    List (Slot (Option String) Object) → List (Slot (Option String) Object) × Nat
  | [] => ([], next)
  | a :: rest =>
    let (value, next) := renamed old new next a.value
    let (a', next) := refill next a value
    let (rest', next) := renamedArgs old new next rest
    (a' :: rest', next)

def renamedParams (old new : String) (next : Nat) :
    List (Slot String Object) → List (Slot String Object) × Nat
  | [] => ([], next)
  | q :: rest =>
    let (value, next) := renamed old new next q.value
    let (q', next) := refill next q value
    let (rest', next) := renamedParams old new next rest
    (q' :: rest', next)

end

/-! ## Rows of slots -/

section

variable {γ : Type}

/-- The slots of a row after the walk, whatever their names are. -/
def renamedSlots (old new : String) (next : Nat) :
    List (Slot γ Object) → List (Slot γ Object) × Nat
  | [] => ([], next)
  | s :: rest =>
    let (value, next) := renamed old new next s.value
    let (s', next) := refill next s value
    let (rest', next) := renamedSlots old new next rest
    (s' :: rest', next)

theorem renamedArgs_eq (old new : String) (next : Nat) (args : List (Slot (Option String) Object)) :
    renamedArgs old new next args = renamedSlots old new next args := by
  induction args generalizing next with
  | nil => rfl
  | cons a rest ih =>
    let value := renamed old new next a.value
    let a' := refill value.2 a value.1
    exact congrArg (fun r => (a'.1 :: r.1, r.2)) (ih a'.2)

theorem renamedParams_eq (old new : String) (next : Nat) (items : List (Slot String Object)) :
    renamedParams old new next items = renamedSlots old new next items := by
  induction items generalizing next with
  | nil => rfl
  | cons q rest ih =>
    let value := renamed old new next q.value
    let q' := refill value.2 q value.1
    exact congrArg (fun r => (q'.1 :: r.1, r.2)) (ih q'.2)

theorem nodeArgs_eq (args : List (Slot (Option String) Object)) :
    nodeArgs args = args.map fun a => ⟨a.name, a.value.node⟩ := by
  induction args with
  | nil => rfl
  | cons a rest ih => exact congrArg (List.cons ⟨a.name, a.value.node⟩) ih

theorem nodeParams_eq (items : List (Slot String Object)) :
    nodeParams items = items.map fun q => ⟨q.name, q.value.node⟩ := by
  induction items with
  | nil => rfl
  | cons q rest ih => exact congrArg (List.cons ⟨q.name, q.value.node⟩) ih

theorem objectsArgs_eq (args : List (Slot (Option String) Object)) :
    objectsArgs args = args.flatMap fun a => a.value.objects := by
  induction args with
  | nil => rfl
  | cons a rest ih => exact congrArg (a.value.objects ++ ·) ih

theorem objectsParams_eq (items : List (Slot String Object)) :
    objectsParams items = items.flatMap fun q => q.value.objects := by
  induction items with
  | nil => rfl
  | cons q rest ih => exact congrArg (q.value.objects ++ ·) ih

theorem idsArgs_eq (args : List (Slot (Option String) Object)) :
    idsArgs args = args.flatMap fun a => a.id :: a.value.ids := by
  induction args with
  | nil => rfl
  | cons a rest ih => exact congrArg (a.id :: a.value.ids ++ ·) ih

theorem idsParams_eq (items : List (Slot String Object)) :
    idsParams items = items.flatMap fun q => q.id :: q.value.ids := by
  induction items with
  | nil => rfl
  | cons q rest ih => exact congrArg (q.id :: q.value.ids ++ ·) ih

end

/-! ## Trees as new objects -/

/-- The tree as objects is the same tree, and its objects have free identities. -/
structure Fresh (next : Nat) (n : Node) (r : Object × Nat) : Prop where
  node_eq : r.1.node = n
  le_id : next ≤ r.1.id
  le_next : next ≤ r.2

theorem ofArgs_fresh {args : List (Arg Node)}
    (ih : ∀ a ∈ args, ∀ next, Fresh next a.value (ofNode next a.value)) :
    ∀ next, nodeArgs (ofArgs next args).1 = args ∧ next ≤ (ofArgs next args).2 := by
  induction args with
  | nil => exact fun next => ⟨rfl, Nat.le_refl next⟩
  | cons a rest tail =>
    intro next
    obtain ⟨iha, ihrest⟩ := List.forall_mem_cons.mp ih
    have ha := iha next
    rw [ofArgs]
    generalize ofNode next a.value = value at ha
    obtain ⟨value, next₁⟩ := value
    have hrest := tail ihrest (next₁ + 1)
    dsimp only
    generalize ofArgs (next₁ + 1) rest = row at hrest
    obtain ⟨rest', next₂⟩ := row
    obtain ⟨hnode, hle⟩ := hrest
    refine ⟨?_, Nat.le_trans ha.le_next (Nat.le_of_succ_le hle)⟩
    rw [nodeArgs, ha.node_eq, hnode]

theorem ofParams_fresh {items : List (Param Node)}
    (ih : ∀ q ∈ items, ∀ next, Fresh next q.default (ofNode next q.default)) :
    ∀ next, nodeParams (ofParams next items).1 = items ∧ next ≤ (ofParams next items).2 := by
  induction items with
  | nil => exact fun next => ⟨rfl, Nat.le_refl next⟩
  | cons q rest tail =>
    intro next
    obtain ⟨ihq, ihrest⟩ := List.forall_mem_cons.mp ih
    have hq := ihq next
    rw [ofParams]
    generalize ofNode next q.default = value at hq
    obtain ⟨value, next₁⟩ := value
    have hrest := tail ihrest (next₁ + 1)
    dsimp only
    generalize ofParams (next₁ + 1) rest = row at hrest
    obtain ⟨rest', next₂⟩ := row
    obtain ⟨hnode, hle⟩ := hrest
    refine ⟨?_, Nat.le_trans hq.le_next (Nat.le_of_succ_le hle)⟩
    rw [nodeParams, hq.node_eq, hnode]

theorem ofNode_fresh (n : Node) : ∀ next, Fresh next n (ofNode next n) := by
  induction n using Node.ind with
  | constant a p => exact fun next => ⟨rfl, Nat.le_refl _, Nat.le_succ _⟩
  | symbol name p => exact fun next => ⟨rfl, Nat.le_refl _, Nat.le_succ _⟩
  | missing => exact fun next => ⟨rfl, Nat.le_refl _, Nat.le_succ _⟩
  | params items p ih =>
    intro next
    have hitems := ofParams_fresh ih next
    rw [ofNode]
    generalize ofParams next items = row at hitems
    obtain ⟨items', next₁⟩ := row
    obtain ⟨hnode, hle⟩ := hitems
    refine ⟨?_, hle, Nat.le_succ_of_le hle⟩
    rw [node, hnode]
  | call head args p ihHead ihArgs =>
    intro next
    have hhead := ihHead next
    rw [ofNode]
    generalize ofNode next head = new at hhead
    obtain ⟨head', next₁⟩ := new
    have hargs := ofArgs_fresh ihArgs next₁
    dsimp only
    generalize ofArgs next₁ args = row at hargs
    obtain ⟨args', next₂⟩ := row
    obtain ⟨hnode, hle⟩ := hargs
    have hle := Nat.le_trans hhead.le_next hle
    refine ⟨?_, hle, Nat.le_succ_of_le hle⟩
    rw [node, hhead.node_eq, hnode]

/-! ## What the walk makes of an object -/

section

variable (old new : String) (next i : Nat) (p : Position)

theorem renamed_symbol (name : String) :
    renamed old new next (.symbol i name p) =
      if name = old then (.symbol next new .nowhere, next + 1) else (.symbol i name p, next) :=
  rfl

theorem renamed_call (head : Object) (args : List (Slot (Option String) Object)) :
    renamed old new next (.call i head args p) =
      let h := renamed old new next head
      let as := renamedArgs old new h.2 args
      if h.1.id = head.id ∧ as.1.map Slot.id = args.map Slot.id then (.call i head args p, as.2)
      else (.call as.2 h.1 as.1 p, as.2 + 1) :=
  rfl

theorem renamed_params (items : List (Slot String Object)) :
    renamed old new next (.params i items p) =
      let qs := renamedParams old new next items
      if qs.1.map Slot.id = items.map Slot.id then (.params i items p, qs.2)
      else (.params qs.2 qs.1 p, qs.2 + 1) :=
  rfl

end

/-- What stands for a node in the renamed tree: the object itself, or an object built in between if
there are renamed symbols in it. -/
def StandsFor (old : String) (next : Nat) (k k' : Object) : Prop :=
  if old ∈ k.node.symbolNames then next ≤ k'.id else k' = k

theorem StandsFor.mono {old : String} {next later : Nat} (h : next ≤ later) {k k' : Object}
    (hk : StandsFor old later k k') : StandsFor old next k k' := by
  unfold StandsFor at hk ⊢
  by_cases hold : old ∈ k.node.symbolNames
  · rw [if_pos hold] at hk ⊢
    exact Nat.le_trans h hk
  · rw [if_neg hold] at hk ⊢
    exact hk

theorem id_mem_ids (o : Object) : o.id ∈ o.ids := by
  cases o <;> exact List.mem_cons_self

/-- The outcome of a walk over an object, from the identity `next` on. -/
structure Renames (old new : String) (next : Nat) (o : Object) (r : Object × Nat) : Prop where
  node : r.1.node = Node.replaced old (.symbol new .nowhere) o.node
  le : next ≤ r.2
  kept : old ∉ o.node.symbolNames → r = (o, next)
  built : old ∈ o.node.symbolNames → next ≤ r.1.id
  each : List.Forall₂ (StandsFor old next) o.objects r.1.objects

/-- The outcome of a walk over the value of a slot. -/
structure RenamesSlot {γ : Type} (old new : String) (next : Nat) (s : Slot γ Object)
    (r : Slot γ Object × Nat) : Prop where
  name : r.1.name = s.name
  node : r.1.value.node = Node.replaced old (.symbol new .nowhere) s.value.node
  le : next ≤ r.2
  kept : old ∉ s.value.node.symbolNames → r = (s, next)
  built : old ∈ s.value.node.symbolNames → next ≤ r.1.id
  each : List.Forall₂ (StandsFor old next) s.value.objects r.1.value.objects

/-- The outcome of a walk over a row of slots. -/
structure RenamesSlots {γ : Type} (old new : String) (next : Nat) (row : List (Slot γ Object))
    (r : List (Slot γ Object) × Nat) : Prop where
  nodes : r.1.map (fun s => (s.name, s.value.node)) =
    row.map fun s => (s.name, Node.replaced old (.symbol new .nowhere) s.value.node)
  le : next ≤ r.2
  kept : (∀ s ∈ row, old ∉ s.value.node.symbolNames) → r = (row, next)
  built : (∃ s ∈ row, old ∈ s.value.node.symbolNames) → r.1.map Slot.id ≠ row.map Slot.id
  each : List.Forall₂ (StandsFor old next) (row.flatMap fun s => s.value.objects)
    (r.1.flatMap fun s => s.value.objects)

variable {γ : Type} {old new : String} {next : Nat}

/-- A slot is built again exactly if its value is. -/
theorem Renames.slot {s : Slot γ Object} {r : Object × Nat} (h : Renames old new next s.value r)
    (hids : ∀ i ∈ s.value.ids, i < next) : RenamesSlot old new next s (refill r.2 s r.1) := by
  by_cases hold : old ∈ s.value.node.symbolNames
  · have hne : r.1.id ≠ s.value.id := by
      have hbuilt := h.built hold
      have hlt := hids _ (id_mem_ids s.value)
      omega
    rw [refill, if_neg hne]
    exact {
      name := rfl
      node := h.node
      le := Nat.le_succ_of_le h.le
      kept := fun hnot => absurd hold hnot
      built := fun _ => h.le
      each := h.each }
  · obtain rfl := h.kept hold
    rw [refill, if_pos rfl]
    exact {
      name := rfl
      node := h.node
      le := h.le
      kept := fun _ => rfl
      built := fun hmem => absurd hmem hold
      each := h.each }

theorem RenamesSlot.cons {s : Slot γ Object} {rest : List (Slot γ Object)}
    {r : Slot γ Object × Nat} {rs : List (Slot γ Object) × Nat} (h : RenamesSlot old new next s r)
    (hid : s.id < next) (hs : RenamesSlots old new r.2 rest rs) :
    RenamesSlots old new next (s :: rest) (r.1 :: rs.1, rs.2) where
  nodes := by rw [List.map_cons, List.map_cons, hs.nodes, h.name, h.node]
  le := Nat.le_trans h.le hs.le
  kept := by
    intro hall
    obtain ⟨hone, hrest⟩ := List.forall_mem_cons.mp hall
    obtain rfl := h.kept hone
    obtain rfl := hs.kept hrest
    rfl
  built := by
    rintro ⟨t, ht, hold⟩ heq
    obtain ⟨hhead, htail⟩ := List.cons.inj heq
    rcases List.mem_cons.mp ht with rfl | ht
    · have hnew := h.built hold
      omega
    · exact hs.built ⟨t, ht, hold⟩ htail
  each := by
    rw [List.flatMap_cons, List.flatMap_cons]
    exact List.rel_append h.each (hs.each.imp fun k k' hk => hk.mono h.le)

/-- A walk over a row of slots does to each of them what the walk over its value does. -/
theorem renamesSlots {row : List (Slot γ Object)}
    (ih : ∀ s ∈ row, ∀ next, (∀ i ∈ s.value.ids, i < next) →
      Renames old new next s.value (renamed old new next s.value)) :
    ∀ next, (∀ i ∈ row.flatMap fun s => s.id :: s.value.ids, i < next) →
      RenamesSlots old new next row (renamedSlots old new next row) := by
  induction row with
  | nil =>
    intro next hids
    exact {
      nodes := rfl
      le := Nat.le_refl next
      kept := fun _ => rfl
      built := by rintro ⟨s, ⟨⟩, -⟩
      each := .nil }
  | cons s rest tail =>
    intro next hids
    obtain ⟨ihs, ihrest⟩ := List.forall_mem_cons.mp ih
    obtain ⟨hid, hvalue, hrest⟩ : s.id < next ∧ (∀ i ∈ s.value.ids, i < next) ∧
        ∀ i ∈ rest.flatMap fun s => s.id :: s.value.ids, i < next := by
      simpa only [List.flatMap_cons, List.cons_append, List.forall_mem_cons,
        List.forall_mem_append] using hids
    have hslot := (ihs next hvalue).slot hvalue
    refine hslot.cons hid (tail ihrest _ ?_)
    intro i hi
    exact Nat.lt_of_lt_of_le (hrest i hi) hslot.le

theorem mem_symbolNames_args {args : List (Slot (Option String) Object)} {name : String} :
    name ∈ Node.symbolNamesArgs (nodeArgs args) ↔
      ∃ s ∈ args, name ∈ s.value.node.symbolNames := by
  rw [Node.symbolNamesArgs_eq, nodeArgs_eq, List.flatMap_map, List.mem_flatMap]

theorem mem_symbolNames_params {items : List (Slot String Object)} {name : String} :
    name ∈ Node.symbolNamesParams (nodeParams items) ↔
      ∃ s ∈ items, name ∈ s.value.node.symbolNames := by
  rw [Node.symbolNamesParams_eq, nodeParams_eq, List.flatMap_map, List.mem_flatMap]

theorem RenamesSlots.args {args : List (Slot (Option String) Object)}
    {r : List (Slot (Option String) Object) × Nat} (h : RenamesSlots old new next args r) :
    nodeArgs r.1 =
      (nodeArgs args).map (Arg.map (Node.replaced old (.symbol new .nowhere))) := by
  have hmap := congrArg (List.map fun s : Option String × Node => Arg.mk s.1 s.2) h.nodes
  rw [List.map_map, List.map_map] at hmap
  rw [nodeArgs_eq, nodeArgs_eq, List.map_map]
  exact hmap

theorem RenamesSlots.params {items : List (Slot String Object)}
    {r : List (Slot String Object) × Nat} (h : RenamesSlots old new next items r) :
    nodeParams r.1 =
      (nodeParams items).map (Param.map (Node.replaced old (.symbol new .nowhere))) := by
  have hmap := congrArg (List.map fun s : String × Node => Param.mk s.1 s.2) h.nodes
  rw [List.map_map, List.map_map] at hmap
  rw [nodeParams_eq, nodeParams_eq, List.map_map]
  exact hmap

/-- An object without renamed symbols is left alone. -/
theorem Renames.keep {o : Object} {parts : List Object} (hold : old ∉ o.node.symbolNames)
    (hobjects : o.objects = o :: parts) (heach : List.Forall₂ (StandsFor old next) parts parts) :
    Renames old new next o (o, next) where
  node := (Node.replaced_of_not_mem hold).symm
  le := Nat.le_refl next
  kept := fun _ => rfl
  built := fun h => absurd h hold
  each := by
    rw [hobjects]
    refine .cons ?_ heach
    rw [StandsFor, if_neg hold]

/-- An object with renamed symbols is built from new parts, and takes a free identity. -/
theorem Renames.build {o o' : Object} {parts parts' : List Object}
    (hold : old ∈ o.node.symbolNames)
    (hnode : o'.node = Node.replaced old (.symbol new .nowhere) o.node) (hle : next ≤ o'.id)
    (hobjects : o.objects = o :: parts) (hobjects' : o'.objects = o' :: parts')
    (heach : List.Forall₂ (StandsFor old next) parts parts') :
    Renames old new next o (o', o'.id + 1) where
  node := hnode
  le := Nat.le_succ_of_le hle
  kept := fun h => absurd hold h
  built := fun _ => hle
  each := by
    rw [hobjects, hobjects']
    refine .cons ?_ heach
    rw [StandsFor, if_pos hold]
    exact hle

theorem renames_symbol (i : Nat) (name : String) (p : Position) (next : Nat) :
    Renames old new next (.symbol i name p) (renamed old new next (.symbol i name p)) := by
  have hmem : old ∈ (Object.symbol i name p).node.symbolNames ↔ name = old :=
    List.mem_singleton.trans eq_comm
  rw [renamed_symbol]
  by_cases hname : name = old
  · rw [if_pos hname]
    refine .build (hmem.mpr hname) ?_ (Nat.le_refl next) rfl rfl .nil
    exact ((Node.replaced_symbol _ _ name p).trans (if_pos hname)).symm
  · rw [if_neg hname]
    exact .keep (fun h => hname (hmem.mp h)) rfl .nil

theorem renames_params {i : Nat} {items : List (Slot String Object)} {p : Position}
    (hrow : RenamesSlots old new next items (renamedParams old new next items)) :
    Renames old new next (.params i items p) (renamed old new next (.params i items p)) := by
  have hmem : old ∈ (Object.params i items p).node.symbolNames ↔
      ∃ s ∈ items, old ∈ s.value.node.symbolNames := mem_symbolNames_params
  have heach := hrow.each
  rw [← objectsParams_eq, ← objectsParams_eq] at heach
  rw [renamed_params]
  dsimp only
  by_cases hold : old ∈ (Object.params i items p).node.symbolNames
  · -- some default is another object, and so is its parameter
    rw [if_neg (hrow.built (hmem.mp hold))]
    refine .build hold ?_ hrow.le rfl rfl heach
    refine .trans ?_ (Node.replaced_params _ _ (nodeParams items) p).symm
    exact congrArg (Node.params · p) hrow.params
  · have hnone : ∀ s ∈ items, old ∉ s.value.node.symbolNames :=
      fun s hs h => hold (hmem.mpr ⟨s, hs, h⟩)
    rw [hrow.kept hnone] at heach ⊢
    rw [if_pos rfl]
    exact .keep hold rfl heach

theorem renames_call {i : Nat} {head : Object} {args : List (Slot (Option String) Object)}
    {p : Position} (hid : head.id < next)
    (hhead : Renames old new next head (renamed old new next head))
    (hrow : ∀ later, next ≤ later →
      RenamesSlots old new later args (renamedArgs old new later args)) :
    Renames old new next (.call i head args p) (renamed old new next (.call i head args p)) := by
  have hmem : old ∈ (Object.call i head args p).node.symbolNames ↔
      old ∈ head.node.symbolNames ∨ ∃ s ∈ args, old ∈ s.value.node.symbolNames := by
    rw [← mem_symbolNames_args]
    exact List.mem_append
  rw [renamed_call]
  dsimp only
  have hargs := hrow _ hhead.le
  have heach := List.rel_append hhead.each (hargs.each.imp fun k k' hk => hk.mono hhead.le)
  rw [← objectsArgs_eq, ← objectsArgs_eq] at heach
  by_cases hold : old ∈ (Object.call i head args p).node.symbolNames
  · -- the head is another object, or some argument is
    have hne : ¬ ((renamed old new next head).1.id = head.id ∧
        (renamedArgs old new (renamed old new next head).2 args).1.map Slot.id =
          args.map Slot.id) := by
      rintro ⟨heq, hsame⟩
      rcases hmem.mp hold with h | h
      · have hnew := hhead.built h
        omega
      · exact hargs.built h hsame
    rw [if_neg hne]
    refine .build hold ?_ (Nat.le_trans hhead.le hargs.le) rfl rfl heach
    refine .trans ?_ (Node.replaced_call _ _ head.node (nodeArgs args) p).symm
    exact congrArg₂ (Node.call · · p) hhead.node hargs.args
  · obtain ⟨hheadNone, hargsNone⟩ := not_or.mp (mt hmem.mpr hold)
    have hnone : ∀ s ∈ args, old ∉ s.value.node.symbolNames :=
      fun s hs h => hargsNone ⟨s, hs, h⟩
    rw [hhead.kept hheadNone] at hargs heach ⊢
    rw [hargs.kept hnone] at heach ⊢
    rw [if_pos ⟨rfl, rfl⟩]
    exact .keep hold rfl heach

/-- A walk that renames symbols builds what it must, and keeps the rest. -/
theorem renames (o : Object) : ∀ next, (∀ i ∈ o.ids, i < next) →
    Renames old new next o (renamed old new next o) := by
  induction o using Object.ind with
  | constant i a p => exact fun next _ => .keep List.not_mem_nil rfl .nil
  | missing i => exact fun next _ => .keep List.not_mem_nil rfl .nil
  | symbol i name p => exact fun next _ => renames_symbol i name p next
  | params i items p ih =>
    intro next hids
    apply renames_params
    rw [renamedParams_eq]
    apply renamesSlots ih
    intro j hj
    rw [← idsParams_eq] at hj
    exact hids j (List.mem_cons_of_mem _ hj)
  | call i head args p ihHead ihArgs =>
    intro next hids
    have hparts : ∀ j ∈ head.ids ++ idsArgs args, j < next :=
      fun j hj => hids j (List.mem_cons_of_mem _ hj)
    obtain ⟨hhead, hargs⟩ := List.forall_mem_append.mp hparts
    apply renames_call (hhead _ (id_mem_ids head)) (ihHead next hhead)
    intro later hle
    rw [renamedArgs_eq]
    apply renamesSlots ihArgs
    intro j hj
    rw [← idsArgs_eq] at hj
    exact Nat.lt_of_lt_of_le (hargs j hj) hle

/-! ## Renaming as a whole -/

/-- Renaming is exact, shares what it leaves alone, and can be taken back. The walk over objects
gives the tree that `Node.rename?` gives, and the object itself where that one gives none: this is so
exactly if no symbol has the old name. Of the labels of all nodes, in their order, those of the
symbols with the old name are replaced and all others are kept. An object without such a symbol is
reused, all of it, and an object with one is new. If no symbol has the new name, renaming it back
gives an equal tree. -/
theorem renamed_exact (o : Object) {old new : String} {next : Nat} (hold : old ≠ "")
    (hnew : new ≠ "") (hids : ∀ i ∈ o.ids, i < next) :
    let r := (renamed old new next o).1
    o.node.rename? old new = .ok (if r.id = o.id then none else some r.node) ∧
      (r.id = o.id ↔ old ∉ o.node.symbolNames) ∧
      r.node.labels = o.node.labels.map (Node.Label.rename old new) ∧
      List.Forall₂ (fun k k' => if old ∈ k.node.symbolNames then k'.id ∉ o.ids else k' = k)
        o.objects r.objects ∧
      (new ∉ o.node.symbolNames → ∃ back, r.node.rename? new old = .ok back ∧
        (back.getD r.node).same o.node = true) := by
  intro r
  have hwalk : Renames old new next o (renamed old new next o) := renames o next hids
  have hnode : r.node = Node.replaced old (.symbol new .nowhere) o.node := hwalk.node
  have hid : r.id = o.id ↔ old ∉ o.node.symbolNames := by
    constructor
    · intro heq hmem
      have hbuilt : next ≤ r.id := hwalk.built hmem
      have hlt := hids _ (id_mem_ids o)
      omega
    · intro hmem
      exact congrArg (fun r => r.1.id) (hwalk.kept hmem)
  refine ⟨?_, hid, ?_, ?_, ?_⟩
  · rw [Node.rename?_eq hnew, hnode]
    by_cases hmem : old ∈ o.node.symbolNames
    · rw [if_pos hmem, if_neg (fun heq => hid.mp heq hmem)]
    · rw [if_neg hmem, if_pos (hid.mpr hmem)]
  · rw [hnode, Node.labels_replaced]
  · refine hwalk.each.imp fun k k' hk => ?_
    unfold StandsFor at hk
    by_cases hmem : old ∈ k.node.symbolNames
    · rw [if_pos hmem] at hk ⊢
      intro hused
      have hlt := hids _ hused
      omega
    · rw [if_neg hmem] at hk ⊢
      exact hk
  · intro hfresh
    refine ⟨_, Node.rename?_eq hold r.node, Node.same_of_erase ?_⟩
    have hback : (Node.replaced new (.symbol old .nowhere) r.node).erase = o.node.erase := by
      rw [hnode]
      exact Node.erase_replaced_back o.node hfresh
    by_cases hmem : new ∈ r.node.symbolNames
    · rw [if_pos hmem, Option.getD_some, hback]
    · rw [if_neg hmem, Option.getD_none]
      rwa [Node.replaced_of_not_mem hmem] at hback

/-- The call `f(x = x, g(y))`: its second argument is reused, and its first argument is built again
under the same name. -/
theorem renamed_exact_call :
    let inner : Object := .call 3 (.symbol 4 "g" .start) [⟨5, none, .symbol 6 "y" .start⟩] .start
    let o : Object := .call 0 (.symbol 1 "f" .start)
      [⟨7, some "x", .symbol 2 "x" .start⟩, ⟨8, none, inner⟩] .start
    let r : Object := .call 11 (.symbol 1 "f" .start)
      [⟨10, some "x", .symbol 9 "w" .nowhere⟩, ⟨8, none, inner⟩] .start
    "x" ≠ "" ∧ "w" ≠ "" ∧ (∀ i ∈ o.ids, i < 9) ∧ (renamed "x" "w" 9 o).1 = r ∧
      o.node.rename? "x" "w" = .ok (some r.node) ∧ "w" ∉ o.node.symbolNames ∧
      ∃ back, r.node.rename? "w" "x" = .ok back ∧ (back.getD r.node).same o.node = true := by
  intro inner o r
  have hids : ∀ i ∈ o.ids, i < 9 := by decide
  have hr : (renamed "x" "w" 9 o).1 = r := rfl
  have hfresh : "w" ∉ o.node.symbolNames := by decide
  obtain ⟨htree, -, -, -, hback⟩ :=
    renamed_exact o (show "x" ≠ "" by decide) (show "w" ≠ "" by decide) hids
  refine ⟨by decide, by decide, hids, hr, ?_, hfresh, ?_⟩
  · rw [htree, hr]
    rfl
  · rw [← hr]
    exact hback hfresh

end Object

end RCode
