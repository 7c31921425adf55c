import RCode.Proofs.Evaluation.Rule
import RCode.Proofs.Failure

/-!
# Evaluation without assignments

In a tree that assigns nothing no value depends on the private frame of the blocks around, which
stays empty: the tree is settled (`Settled`). The values of settled trees are put together from
those of their parts (`evaluate_call`), and a call keeps its value when parts are exchanged for parts
of the same values (`callValue_congr`), unless the call quotes its argument.
-/

set_option autoImplicit false

namespace RCode.Evaluation

/-- Outside of all blocks, or in a block that has assigned nothing. -/
def Bare (locals : Locals) : Prop :=
  locals = none ∨ locals = some []

/-- The tree has one value in a context, outside of blocks and in blocks that have assigned nothing,
and assigns nothing. -/
def Settled (c : Context) (n : Node) : Prop :=
  ∀ h locals, Bare locals → eval h c locals n = (n.evaluate h c).map (·, locals)

/-- The value of an argument, from that of its tree. -/
def argValue (value : Host → Node → Except EvalError Value) (x : Host × Arg Node) :
    Except EvalError (Arg Value) := do
  return ⟨x.2.name, ← value x.1 x.2.value⟩

/-- The value of a call that assigns nothing, from the values of its parts. -/
def callValue (value : Host → Node → Except EvalError Value) (h : Host) (head : Node)
    (args : List (Arg Node)) : Except EvalError Value :=
  match Rule.of head args with
  | .quotation operand => .ok (.node operand)
  | .group operand => value (h.arguments 0) operand
  | .block => do
    let values ← (Host.row h.arguments args).mapM fun x => value x.1 x.2.value
    return values.getLastD .null
  | .assignment _ _ => .error .outsideBlock
  | .conditional test yes no => do
    let v ← value (h.arguments 0) test
    if ← v.condition.mapError .condition then value (h.arguments 1) yes
    else no.elim (.ok .null) (value (h.arguments 2))
  | .refusal e => .error e
  | .application => do
    let f ← value (h.under 0) head
    match f with
    | .function f => do
      let values ← (Host.row h.arguments args).mapM (argValue value)
      applyFunction h (head.name?.getD "function") f values
    | v => throw (v.shown?.elim .unwritable .notAFunction)

variable {c : Context}

/-! ## Rows of settled trees -/

theorem evalArgs_of_settled {locals : Locals} (hlocals : Bare locals) {args : List (Arg Node)}
    (hargs : ∀ a ∈ args, Settled c a.value) (hs : Nat → Host) :
    evalArgs hs c locals args =
      ((Host.row hs args).mapM (argValue fun h n => n.evaluate h c)).map (·, locals) := by
  induction args generalizing hs with
  | nil => rfl
  | cons a rest ih =>
    obtain ⟨ha, hrest⟩ := List.forall_mem_cons.mp hargs
    rw [evalArgs, ha (hs 0) locals hlocals, Host.row_cons, List.mapM_cons, argValue]
    cases a.value.evaluate (hs 0) c with
    | error e => rfl
    | ok v =>
      simp only [Except.map, ok_bind, ih hrest, pure_bind]
      cases (Host.row (fun i => hs (i + 1)) rest).mapM (argValue fun h n => n.evaluate h c) with
      | error e => rfl
      | ok vs => rfl

theorem evalBlock_of_settled {locals : Locals} (hlocals : Bare locals) {args : List (Arg Node)}
    (hargs : ∀ a ∈ args, Settled c a.value) (hs : Nat → Host) (last : Value) :
    evalBlock hs c locals last args =
      ((Host.row hs args).mapM fun x : Host × Arg Node => x.2.value.evaluate x.1 c).map
        fun vs => (vs.getLastD last, locals) := by
  induction args generalizing hs last with
  | nil => rfl
  | cons a rest ih =>
    obtain ⟨ha, hrest⟩ := List.forall_mem_cons.mp hargs
    rw [evalBlock, ha (hs 0) locals hlocals, Host.row_cons, List.mapM_cons]
    cases a.value.evaluate (hs 0) c with
    | error e => rfl
    | ok v =>
      simp only [Except.map, ok_bind, ih hrest]
      cases (Host.row (fun i => hs (i + 1)) rest).mapM
          fun x : Host × Arg Node => x.2.value.evaluate x.1 c with
      | error e => rfl
      | ok vs => simp only [ok_bind, pure, Except.pure, List.getLastD_cons]

/-! ## Calls -/

/-- A call of settled parts that assigns nothing takes its value from theirs. -/
theorem eval_call_of_settled {head : Node} {args : List (Arg Node)} (hhead : Settled c head)
    (hargs : ∀ a ∈ args, Settled c a.value)
    (hrule : ∀ target value, Rule.of head args ≠ .assignment target value) (p : Position)
    (h : Host) {locals : Locals} (hlocals : Bare locals) :
    eval h c locals (.call head args p) =
      (callValue (fun h n => n.evaluate h c) h head args).map (·, locals) := by
  have operand : ∀ n ∈ (Rule.of head args).operands, Settled c n := by
    intro n hn
    obtain ⟨a, ha, rfl⟩ := Rule.operands_subset hn
    exact hargs a ha
  rw [eval_call, callValue]
  cases hof : Rule.of head args with
  | quotation | refusal => rfl
  | assignment target value => exact absurd hof (hrule target value)
  | group n => exact operand n (by simp [hof, Rule.operands]) _ locals hlocals
  | block =>
    -- a block starts with an empty frame, or goes on with one
    rcases hlocals with rfl | rfl
    · simp only [evalBlock_of_settled (.inr rfl) hargs]
      cases (Host.row h.arguments args).mapM
          fun x : Host × Arg Node => x.2.value.evaluate x.1 c with
      | error e => rfl
      | ok vs => rfl
    · simp only [evalBlock_of_settled (.inr rfl) hargs]
      cases (Host.row h.arguments args).mapM
          fun x : Host × Arg Node => x.2.value.evaluate x.1 c with
      | error e => rfl
      | ok vs => rfl
  | conditional test yes no =>
    -- only the branch that is taken is evaluated, in both ways
    simp only [operand test (by simp [hof, Rule.operands]) _ locals hlocals]
    cases test.evaluate (h.arguments 0) c with
    | error e => rfl
    | ok v =>
      simp only [Except.map, ok_bind]
      cases v.condition.mapError EvalError.condition with
      | error e => rfl
      | ok truth =>
        cases truth with
        | true => exact operand yes (by simp [hof, Rule.operands]) _ locals hlocals
        | false =>
          cases no with
          | none => rfl
          | some no => exact operand no (by simp [hof, Rule.operands]) _ locals hlocals
  | application =>
    have hvalues := evalArgs_of_settled hlocals hargs h.arguments
    simp only [hhead (h.under 0) locals hlocals]
    cases head.evaluate (h.under 0) c with
    | error e => rfl
    | ok f =>
      cases f with
      | function f =>
        simp only [Except.map, ok_bind, hvalues]
        cases (Host.row h.arguments args).mapM (argValue fun h n => n.evaluate h c) with
        | error e => rfl
        | ok values =>
          simp only [ok_bind]
          cases applyFunction h (head.name?.getD "function") f values with
          | error e => rfl
          | ok v => rfl
      | _ => rfl

theorem evaluate_call {head : Node} {args : List (Arg Node)} (hhead : Settled c head)
    (hargs : ∀ a ∈ args, Settled c a.value)
    (hrule : ∀ target value, Rule.of head args ≠ .assignment target value) (p : Position)
    (h : Host) :
    Node.evaluate (.call head args p) h c =
      callValue (fun h n => n.evaluate h c) h head args := by
  rw [Node.evaluate, eval_call_of_settled hhead hargs hrule p h (.inl rfl)]
  cases callValue (fun h n => n.evaluate h c) h head args with
  | error e => rfl
  | ok v => rfl

theorem Settled.call {head : Node} {args : List (Arg Node)} (hhead : Settled c head)
    (hargs : ∀ a ∈ args, Settled c a.value)
    (hrule : ∀ target value, Rule.of head args ≠ .assignment target value) (p : Position) :
    Settled c (.call head args p) := by
  intro h locals hlocals
  rw [evaluate_call hhead hargs hrule, eval_call_of_settled hhead hargs hrule p h hlocals]

theorem Settled.constant (a : Atom) (p : Position) : Settled c (.constant a p) :=
  fun _ _ _ => rfl

theorem Settled.symbol (name : String) (p : Position) : Settled c (.symbol name p) := by
  intro h locals hlocals
  have hlookup : (scope c locals).lookup? name = (scope c none).lookup? name := by
    rw [lookup?_scope, lookup?_scope]
    rcases hlocals with rfl | rfl <;> rfl
  simp only [Node.evaluate, eval, hlookup]
  cases (scope c none).lookup? name with
  | none => rfl
  | some v => rfl

theorem Settled.missing : Settled c .missing := fun _ _ _ => rfl

theorem Settled.params (items : List (Param Node)) (p : Position) :
    Settled c (.params items p) := fun _ _ _ => rfl

/-! ## Names of forms -/

theorem mem_table_of_ofName? {name : String} {form : Form} (h : Form.ofName? name = some form) :
    (name, form) ∈ Form.table := by
  obtain ⟨before, after, heq, -⟩ := List.lookup_eq_some_iff.mp h
  rw [heq]
  exact List.mem_append_right before List.mem_cons_self

/-- Only the calls of two names are assignments. -/
theorem Rule.of_ne_assignment {head : Node} (h : head.name? ≠ some "<-")
    (h' : head.name? ≠ some "=") (args : List (Arg Node)) (target value : Node) :
    Rule.of head args ≠ .assignment target value := by
  have hform : head.name?.bind Form.ofName? ≠ some .assignment := by
    intro heq
    obtain ⟨name, hname, hform⟩ := Option.bind_eq_some_iff.mp heq
    have hmem := mem_table_of_ofName? hform
    simp only [Form.table, List.mem_cons, Prod.mk.injEq, reduceCtorEq, and_false, and_true,
      List.not_mem_nil, or_false, false_or] at hmem
    rcases hmem with rfl | rfl
    · exact h hname
    · exact h' hname
  intro heq
  unfold Rule.of at heq
  split at heq <;> first | exact hform ‹_› | cases heq

/-- Only the calls of one name quote their arguments. -/
theorem ofName?_ne_quotation {head : Node} (h : head.name? ≠ some "quote") :
    head.name?.bind Form.ofName? ≠ some .quotation := by
  intro heq
  obtain ⟨name, hname, hform⟩ := Option.bind_eq_some_iff.mp heq
  have hmem := mem_table_of_ofName? hform
  simp only [Form.table, List.mem_cons, Prod.mk.injEq, reduceCtorEq, and_false, and_true,
    List.not_mem_nil, or_false] at hmem
  exact h (hmem ▸ hname)

/-! ## Exchanging parts -/

/-- The second arguments may stand for the first ones: they have the same names and the same
values, for the same hosts. -/
inductive SameArgs (value : Host → Node → Except EvalError Value) :
    (Nat → Host) → List (Arg Node) → List (Arg Node) → Prop where
  | nil (hs : Nat → Host) : SameArgs value hs [] []
  | cons {hs : Nat → Host} {a a' : Arg Node} {rest rest' : List (Arg Node)} :
      a'.name = a.name → value (hs 0) a'.value = value (hs 0) a.value →
        SameArgs value (fun i => hs (i + 1)) rest rest' →
          SameArgs value hs (a :: rest) (a' :: rest')

variable {value : Host → Node → Except EvalError Value} {hs : Nat → Host}
  {args args' : List (Arg Node)}

theorem SameArgs.length_eq (h : SameArgs value hs args args') : args'.length = args.length := by
  induction h with
  | nil => rfl
  | cons _ _ _ ih => rw [List.length_cons, List.length_cons, ih]

theorem SameArgs.mapM_argValue (h : SameArgs value hs args args') :
    (Host.row hs args').mapM (argValue value) = (Host.row hs args).mapM (argValue value) := by
  induction h with
  | nil => rfl
  | cons hname hvalue _ ih =>
    rw [Host.row_cons, Host.row_cons, List.mapM_cons, List.mapM_cons, ih, argValue, argValue, hname,
      hvalue]

theorem SameArgs.mapM_value (h : SameArgs value hs args args') :
    ((Host.row hs args').mapM fun x : Host × Arg Node => value x.1 x.2.value) =
      (Host.row hs args).mapM fun x : Host × Arg Node => value x.1 x.2.value := by
  induction h with
  | nil => rfl
  | cons _ hvalue _ ih =>
    rw [Host.row_cons, Host.row_cons, List.mapM_cons, List.mapM_cons, ih, hvalue]

/-- A call keeps its value when its parts are exchanged for parts of the same names and values,
unless it quotes its argument. -/
theorem callValue_congr {h : Host} {head head' : Node} (hname : head'.name? = head.name?)
    (hhead : value (h.under 0) head' = value (h.under 0) head)
    (hargs : SameArgs value h.arguments args args') (hquote : head.name? ≠ some "quote") :
    callValue value h head' args' = callValue value h head args := by
  have hblock := hargs.mapM_value
  have hvalues := hargs.mapM_argValue
  have hform := ofName?_ne_quotation hquote
  -- how a call is evaluated depends on the name of its head and the number of its arguments
  unfold callValue Rule.of
  rw [hname]
  generalize head.name?.bind Form.ofName? = form at hform
  rcases form with _ | form
  · simp only [hhead, hvalues]
  · cases form with
    | quotation => exact absurd rfl hform
    | group =>
      rcases hargs with _ | ⟨-, hfirst, _ | ⟨-, -, hrest⟩⟩
      · rfl
      · exact hfirst
      · simp only [List.length_cons, hrest.length_eq]
    | block => simp only [hblock]
    | outwardAssignment => rfl
    | unsupported => rfl
    | assignment =>
      rcases hargs with _ | ⟨-, -, _ | ⟨-, -, _ | ⟨-, -, hrest⟩⟩⟩
      · rfl
      · rfl
      · rfl
      · simp only [List.length_cons, hrest.length_eq]
    | conditional =>
      rcases hargs with _ | ⟨-, htest, _ | ⟨-, hyes, _ | ⟨-, hno, _ | ⟨-, -, hrest⟩⟩⟩⟩
      · rfl
      · rfl
      · simp only [htest, hyes]
      · simp only [htest, hyes, Option.elim_some, hno]
      · simp only [List.length_cons, hrest.length_eq]

end RCode.Evaluation
