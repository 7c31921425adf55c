import RCode.Evaluation
import RCode.Proofs.Node.Erasure

/-!
# The rules of evaluation

A call is evaluated by one rule, which its head and the number of its arguments decide (`Rule.of`).
The rule names the arguments that are evaluated, and `eval_call` says what becomes of them. Proofs
about evaluation split on the rule and need not look at the heads of calls.

Each part of a tree has a host of its own (`Host.within`), and so has each argument of a call
(`Host.row`).
-/

set_option autoImplicit false

namespace RCode

namespace Host

/-- The host for the part of a tree at a place. -/
def within (h : Host) (place : Place) : Host :=
  { h with object := fun p => h.object (place ++ p) }

variable {α : Type}

/-- The members of a row with their hosts. -/
def row (hs : Nat → Host) (xs : List α) : List (Host × α) :=
  xs.mapIdx fun i x => (hs i, x)

@[simp] theorem row_nil (hs : Nat → Host) : row hs ([] : List α) = [] := rfl

@[simp] theorem row_cons (hs : Nat → Host) (x : α) (xs : List α) :
    row hs (x :: xs) = (hs 0, x) :: row (fun i => hs (i + 1)) xs :=
  List.mapIdx_cons

theorem row_map {β : Type} (hs : Nat → Host) (f : α → β) (xs : List α) :
    row hs (xs.map f) = (row hs xs).map fun x => (x.1, f x.2) := by
  induction xs generalizing hs with
  | nil => rfl
  | cons x xs ih => rw [List.map_cons, row_cons, row_cons, List.map_cons, ih]

theorem mem_of_mem_row {hs : Nat → Host} {xs : List α} {x : Host × α} (h : x ∈ row hs xs) :
    x.2 ∈ xs := by
  obtain ⟨i, hi, rfl⟩ := List.mem_mapIdx.mp h
  exact List.getElem_mem hi

end Host

namespace Evaluation

/-- How a call is evaluated. -/
inductive Rule where
  /-- The value is the operand itself. -/
  | quotation (operand : Node)
  /-- The value is that of the operand. -/
  | group (operand : Node)
  | block
  | assignment (target value : Node)
  /-- The value is that of `yes` or of `no`; without `no` it may be null. -/
  | conditional (test yes : Node) (no : Option Node)
  /-- The call has no value, whatever its arguments are. -/
  | refusal (e : EvalError)
  /-- The head is evaluated and applied. -/
  | application

namespace Rule

/-- The rule for a call. -/
def of (head : Node) (args : List (Arg Node)) : Rule :=
  match head.name?.bind Form.ofName?, args with
  | some .quotation, [a] => .quotation a.value
  | some .group, [a] => .group a.value
  | some .block, _ => .block
  | some .assignment, [target, a] => .assignment target.value a.value
  | some .outwardAssignment, _ => .refusal .outwardAssignment
  | some .conditional, [test, yes] => .conditional test.value yes.value none
  | some .conditional, [test, yes, no] => .conditional test.value yes.value (some no.value)
  | some .conditional, args => .refusal (.wrongConditional args.length)
  | some .unsupported, _ => .refusal (.unsupported (head.name?.getD ""))
  | some .assignment, args => .refusal (.wrongCount (head.name?.getD "") 2 args.length)
  | some _, args => .refusal (.wrongCount (head.name?.getD "") 1 args.length)
  | none, _ => .application

/-- The arguments that the rule evaluates one by one. -/
def operands : Rule → List Node
  | .group operand => [operand]
  | .assignment _ value => [value]
  | .conditional test yes no => test :: yes :: no.toList
  | _ => []

/-- The operands of a rule are arguments of the call. -/
theorem operands_subset {head : Node} {args : List (Arg Node)} {n : Node}
    (h : n ∈ (of head args).operands) : ∃ a ∈ args, a.value = n := by
  have hmem : n ∈ args.map Arg.value := by
    unfold of at h
    split at h <;> simp_all [operands]
  exact List.mem_map.mp hmem

end Rule

theorem lookup?_scope (c : Context) (locals : Locals) (name : String) :
    (scope c locals).lookup? name = (locals.bind (Entry.find? · name)).or (c.lookup? name) := by
  cases locals with
  | none => rfl
  | some frame => rfl

/-- What a call is worth by its rule. -/
theorem eval_call (h : Host) (c : Context) (locals : Locals) (head : Node) (args : List (Arg Node))
    (p : Position) :
    eval h c locals (.call head args p) =
      (match Rule.of head args with
      | .quotation operand => .ok (.node operand, locals)
      | .group operand => eval (h.arguments 0) c locals operand
      | .block =>
        match locals with
        | some frame => evalBlock h.arguments c (some frame) .null args
        | none => (evalBlock h.arguments c (some []) .null args).map fun (v, _) => (v, none)
      | .assignment target value =>
        match locals with
        | none => .error .outsideBlock
        | some frame => do
          let name ← targetName target
          let (v, locals) ← eval (h.arguments 1) c (some frame) value
          return (v, locals.map fun frame => Entry.put frame name v)
      | .conditional test yes no => do
        let (v, locals) ← eval (h.arguments 0) c locals test
        if ← v.condition.mapError .condition then eval (h.arguments 1) c locals yes
        else
          match no with
          | some no => eval (h.arguments 2) c locals no
          | none => return (.null, locals)
      | .refusal e => .error e
      | .application => do
        let (f, locals) ← eval (h.under 0) c locals head
        match f with
        | .function f =>
          let (values, locals) ← evalArgs h.arguments c locals args
          return (← applyFunction h (head.name?.getD "function") f values, locals)
        | v => throw (v.shown?.elim .unwritable .notAFunction)) := by
  rw [eval.eq_def h c locals (.call head args p)]
  dsimp only
  unfold Rule.of
  generalize head.name?.bind Form.ofName? = form
  -- the rule is decided by the form and by up to four arguments
  rcases form with _ | form
  · rfl
  · cases form with
    | quotation | group => rcases args with _ | ⟨a, _ | ⟨b, rest⟩⟩ <;> rfl
    | assignment => rcases args with _ | ⟨a, _ | ⟨b, _ | ⟨d, rest⟩⟩⟩ <;> rfl
    | conditional => rcases args with _ | ⟨a, _ | ⟨b, _ | ⟨d, _ | ⟨e, rest⟩⟩⟩⟩ <;> rfl
    | block | outwardAssignment | unsupported => rfl

end Evaluation

end RCode
