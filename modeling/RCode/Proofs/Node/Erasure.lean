import RCode.Node.Basic

/-!
# Trees without positions

`Node.erase` forgets where a tree was read. Inductions over trees go by `Node.ind`, whose hypotheses
speak about the members of the list of arguments or parameters.
-/

set_option autoImplicit false

namespace RCode

/-! ## Induction over trees -/

/-- A property of trees holds of all trees if it passes from the head and the argument values of a
call to the call, and from the defaults of a parameter list to the list. -/
@[elab_as_elim]
theorem Node.ind {motive : Node → Prop}
    (constant : ∀ a p, motive (.constant a p))
    (symbol : ∀ name p, motive (.symbol name p))
    (missing : motive .missing)
    (call : ∀ head args p, motive head → (∀ a ∈ args, motive a.value) →
      motive (.call head args p))
    (params : ∀ items p, (∀ i ∈ items, motive i.default) → motive (.params items p)) (n : Node) :
    motive n :=
  -- the two rows hold what all their members do
  @Node.rec motive (fun args => ∀ a ∈ args, motive a.value)
    (fun items => ∀ i ∈ items, motive i.default) (fun a => motive a.value)
    (fun i => motive i.default) constant symbol missing call params
    (List.forall_mem_nil _) (fun _ _ ha hrest => List.forall_mem_cons.mpr ⟨ha, hrest⟩)
    (List.forall_mem_nil _) (fun _ _ hi hrest => List.forall_mem_cons.mpr ⟨hi, hrest⟩)
    (fun _ _ hvalue => hvalue) (fun _ _ hdefault => hdefault) n

namespace Node

/-- The arguments of well-formed rows are well formed. -/
theorem wellFormed_arg {args : List (Arg Node)} (h : WellFormedArgs args) {a : Arg Node}
    (ha : a ∈ args) : a.name ≠ some "" ∧ a.value.isMissing = false ∧ a.value.WellFormed := by
  induction args with
  | nil => exact absurd ha List.not_mem_nil
  | cons b rest ih =>
    obtain ⟨hname, hmissing, hvalue, hrest⟩ := h
    rcases List.mem_cons.mp ha with rfl | ha
    · exact ⟨hname, hmissing, hvalue⟩
    · exact ih hrest ha

theorem wellFormedArgs_of_forall {args : List (Arg Node)}
    (h : ∀ a ∈ args, a.name ≠ some "" ∧ a.value.isMissing = false ∧ a.value.WellFormed) :
    WellFormedArgs args := by
  induction args with
  | nil => exact trivial
  | cons a rest ih =>
    obtain ⟨⟨hname, hmissing, hvalue⟩, hrest⟩ := List.forall_mem_cons.mp h
    exact ⟨hname, hmissing, hvalue, ih hrest⟩

theorem wellFormedArgs_append {args more : List (Arg Node)} :
    WellFormedArgs (args ++ more) ↔ WellFormedArgs args ∧ WellFormedArgs more := by
  induction args with
  | nil => exact ⟨fun h => ⟨trivial, h⟩, And.right⟩
  | cons a rest ih =>
    constructor
    · rintro ⟨hname, hmissing, hvalue, hboth⟩
      obtain ⟨hrest, hmore⟩ := ih.mp hboth
      exact ⟨⟨hname, hmissing, hvalue, hrest⟩, hmore⟩
    · rintro ⟨⟨hname, hmissing, hvalue, hrest⟩, hmore⟩
      exact ⟨hname, hmissing, hvalue, ih.mpr ⟨hrest, hmore⟩⟩

theorem wellFormedParams_append {items more : List (Param Node)} :
    WellFormedParams (items ++ more) ↔ WellFormedParams items ∧ WellFormedParams more := by
  induction items with
  | nil => exact ⟨fun h => ⟨trivial, h⟩, And.right⟩
  | cons p rest ih =>
    constructor
    · rintro ⟨hname, hdefault, hboth⟩
      obtain ⟨hrest, hmore⟩ := ih.mp hboth
      exact ⟨⟨hname, hdefault, hrest⟩, hmore⟩
    · rintro ⟨⟨hname, hdefault, hrest⟩, hmore⟩
      exact ⟨hname, hdefault, ih.mpr ⟨hrest, hmore⟩⟩

theorem wellFormed_param {items : List (Param Node)} (h : WellFormedParams items) {i : Param Node}
    (hi : i ∈ items) : i.name ≠ "" ∧ i.default.WellFormed := by
  induction items with
  | nil => exact absurd hi List.not_mem_nil
  | cons j rest ih =>
    obtain ⟨hname, hdefault, hrest⟩ := h
    rcases List.mem_cons.mp hi with rfl | hi
    · exact ⟨hname, hdefault⟩
    · exact ih hrest hi

end Node

/-- The argument with its value changed. -/
def Arg.map {α β : Type} (f : α → β) (a : Arg α) : Arg β :=
  ⟨a.name, f a.value⟩

/-- The parameter with its default changed. -/
def Param.map {α β : Type} (f : α → β) (p : Param α) : Param β :=
  ⟨p.name, f p.default⟩

namespace Node

mutual

/-- The tree without its positions. -/
def erase : Node → Node
  | .constant a _ => .constant a .nowhere
  | .symbol name _ => .symbol name .nowhere
  | .missing => .missing
  | .call head args _ => .call (erase head) (eraseArgs args) .nowhere
  | .params items _ => .params (eraseParams items) .nowhere

/-- The arguments without positions. -/
def eraseArgs : List (Arg Node) → List (Arg Node)
  | [] => []
  | a :: rest => ⟨a.name, erase a.value⟩ :: eraseArgs rest

/-- The parameters without positions. -/
def eraseParams : List (Param Node) → List (Param Node)
  | [] => []
  | p :: rest => ⟨p.name, erase p.default⟩ :: eraseParams rest

end

/-! ## Equal erasures -/

/-- A single unnamed argument with a given erasure. -/
theorem eraseArgs_one_inv {args : List (Arg Node)} {n : Node}
    (h : eraseArgs args = eraseArgs [⟨none, n⟩]) : ∃ m, args = [⟨none, m⟩] ∧ m.erase = n.erase := by
  cases args with
  | nil => cases h
  | cons a rest =>
    obtain ⟨name, m⟩ := a
    cases rest with
    | nil =>
      obtain ⟨rfl, hm⟩ := Arg.mk.inj (List.cons.inj h).1
      exact ⟨m, rfl, hm⟩
    | cons => cases (List.cons.inj h).2

end Node

end RCode
