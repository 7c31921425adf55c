import RCode.Proofs.Evaluation.Memory

/-!
# Evaluation leaves the memory of its caller alone

The machine that evaluates in a memory of frames computes the value that `Evaluation.eval` gives,
with the same errors, and keeps every frame that its caller can see (`Machine.run_refines`), as long
as the functions of the caller are honest. The proof keeps a simulation: the private frame that
`Evaluation.eval` passes along is the content of one cell beyond those of the caller.
-/

set_option autoImplicit false

namespace RCode.Machine

open Evaluation (Locals Rule eval evalArgs evalBlock eval_call targetName applyFunction scope
  positional named)

variable {α β : Type}

/-- What a step gives and the memory it leaves behind. -/
def outcome (x : Machine α) (m : Memory) : Except EvalError α × Memory :=
  Id.run (StateT.run (ExceptT.run x) m)

theorem outcome_bind (x : Machine α) (f : α → Machine β) (m : Memory) :
    outcome (x >>= f) m =
      match outcome x m with
      | (.ok a, m') => outcome (f a) m'
      | (.error e, m') => (.error e, m') := by
  unfold outcome
  simp only [ExceptT.run_bind, StateT.run_bind, Id.run_bind]
  rcases Id.run (StateT.run (ExceptT.run x) m) with ⟨r, m'⟩
  cases r with
  | ok a => rfl
  | error e => rfl

theorem outcome_liftExcept (r : Except EvalError α) (m : Memory) :
    outcome (liftExcept r) m = (r, m) := by
  cases r with
  | ok a => rfl
  | error e => rfl

/-- The machine evaluates by the same rules. -/
theorem run_call (callbacks : Callbacks) (h : Host) (k : Chain) (frame : Option Chain) (head : Node)
    (args : List (Arg Node)) (p : Position) :
    run callbacks h k frame (.call head args p) =
      (match Rule.of head args with
      | .quotation operand => return .node operand
      | .group operand => run callbacks (h.arguments 0) k frame operand
      | .block => do
        let own ← frame.elim (newFrame k) pure
        runBlock callbacks h.arguments own .null args
      | .assignment target value =>
        match frame with
        | none => throw .outsideBlock
        | some own => do
          let name ← liftExcept (targetName target)
          let v ← run callbacks (h.arguments 1) k frame value
          assign own name v
          return v
      | .conditional test yes no => do
        let v ← run callbacks (h.arguments 0) k frame test
        if ← liftExcept (v.condition.mapError EvalError.condition) then
          run callbacks (h.arguments 1) k frame yes
        else
          match no with
          | some no => run callbacks (h.arguments 2) k frame no
          | none => return .null
      | .refusal e => throw e
      | .application => do
        match ← run callbacks (h.under 0) k frame head with
        | .function f =>
          let values ← runArgs callbacks h.arguments k frame args
          apply callbacks h (head.name?.getD "function") values f
        | v => throw (v.shown?.elim .unwritable .notAFunction)) := by
  rw [run.eq_def callbacks h k frame (.call head args p)]
  dsimp only
  unfold Rule.of
  generalize head.name?.bind Form.ofName? = form
  rcases form with _ | form
  · rfl
  · cases form with
    | quotation | group => rcases args with _ | ⟨a, _ | ⟨b, rest⟩⟩ <;> rfl
    | assignment => rcases args with _ | ⟨a, _ | ⟨b, _ | ⟨d, rest⟩⟩⟩ <;> rfl
    | conditional => rcases args with _ | ⟨a, _ | ⟨b, _ | ⟨d, _ | ⟨e, rest⟩⟩⟩⟩ <;> rfl
    | block | outwardAssignment | unsupported => rfl

/-- What a function of the caller gives, and what it leaves behind. -/
theorem outcome_apply_foreign (callbacks : Callbacks) (h : Host) (name : String)
    (args : List (Arg Value)) (f : Foreign) (m : Memory) :
    outcome (apply callbacks h name args (.foreign f)) m =
      ((callbacks f (h.object []) (positional args) (named args) m).1.mapError
        (EvalError.ofRaised name),
        (callbacks f (h.object []) (positional args) (named args) m).2) := rfl

/-! ## The simulation -/

/-- The machine works for a caller who sees the context `c` through `caller`, in frames before the
place `b`. Outside of blocks it stands in the context of the caller; inside it stands in one frame
on top of it, beyond `b`, which holds `locals`. -/
structure Situated (c : Context) (caller : Chain) (b : Address) (m : Memory) (k : Chain)
    (frame : Option Chain) (locals : Locals) : Prop where
  caller_lt : ∀ a ∈ caller.addresses, a < b
  size_le : b ≤ m.frames.length
  context_eq : m.context caller = c
  place : (k = caller ∧ frame = none ∧ locals = none) ∨
    ∃ a, b ≤ a ∧ a < m.frames.length ∧ k = caller.push a ∧ frame = some (caller.push a) ∧
      locals = some (m.frame a)

variable {c : Context} {caller k : Chain} {b : Address} {m m' : Memory} {frame : Option Chain}
  {locals : Locals}

/-- What names mean to the machine is what they mean to evaluation. -/
theorem Situated.context_scope (h : Situated c caller b m k frame locals) :
    m.context k = scope c locals := by
  rcases h.place with ⟨rfl, rfl, rfl⟩ | ⟨a, -, -, rfl, rfl, rfl⟩
  · exact h.context_eq
  · rw [← h.context_eq]
    rfl

/-- After steps that keep the frames of the caller, the machine stands in the context of the caller
as before. -/
theorem Situated.outside (h : Situated c caller b m k frame locals) (hkeeps : m.Keeps b m') :
    Situated c caller b m' caller none none := by
  refine ⟨h.caller_lt, Nat.le_trans h.size_le hkeeps.grows, ?_, .inl ⟨rfl, rfl, rfl⟩⟩
  rw [hkeeps.context_eq h.caller_lt, h.context_eq]

/-- After steps that keep all that is there, the machine stands where it stood. -/
theorem Situated.after (h : Situated c caller b m k frame locals)
    (hkeeps : m.Keeps m.frames.length m') : Situated c caller b m' k frame locals := by
  have hcaller : m.Keeps b m' := hkeeps.mono h.size_le
  refine ⟨h.caller_lt, Nat.le_trans h.size_le hkeeps.grows, ?_, ?_⟩
  · rw [hcaller.context_eq h.caller_lt, h.context_eq]
  · rcases h.place with hplace | ⟨a, hb, ha, hk, hframe, hlocals⟩
    · exact .inl hplace
    · refine .inr ⟨a, hb, Nat.lt_of_lt_of_le ha hkeeps.grows, hk, hframe, ?_⟩
      rw [hlocals, hkeeps.frame_eq a ha]

/-- The steps `x` from the memory `m` agree with the result `r` of evaluation, and keep the frames
of the caller. -/
def Refines (c : Context) (caller : Chain) (b : Address) (k : Chain) (frame : Option Chain)
    (m : Memory) (x : Machine α) (r : Except EvalError (α × Locals)) : Prop :=
  m.Keeps b (outcome x m).2 ∧
    match r with
    | .ok (v, locals) =>
      (outcome x m).1 = .ok v ∧ Situated c caller b (outcome x m).2 k frame locals
    | .error e => (outcome x m).1 = .error e

theorem refines_ok (h : Situated c caller b m k frame locals) (v : α) :
    Refines c caller b k frame m (pure v : Machine α) (.ok (v, locals)) :=
  ⟨.refl b m, rfl, h⟩

theorem refines_error (e : EvalError) :
    Refines c caller b k frame m (throw e : Machine α) (.error e) :=
  ⟨.refl b m, rfl⟩

/-- Steps after steps agree with what is computed after their results. -/
theorem Refines.bind {x : Machine α} {r : Except EvalError (α × Locals)} {f : α → Machine β}
    {g : α × Locals → Except EvalError (β × Locals)} (h : Refines c caller b k frame m x r)
    (hnext : ∀ v locals m', m.Keeps b m' → Situated c caller b m' k frame locals →
      Refines c caller b k frame m' (f v) (g (v, locals))) :
    Refines c caller b k frame m (x >>= f) (r >>= g) := by
  obtain ⟨hkeeps, hr⟩ := h
  unfold Refines
  rw [outcome_bind]
  rcases hx : outcome x m with ⟨s, m'⟩
  rw [hx] at hkeeps hr
  cases r with
  | error e =>
    obtain rfl : s = .error e := hr
    exact ⟨hkeeps, rfl⟩
  | ok p =>
    obtain ⟨v, locals⟩ := p
    obtain ⟨rfl, hs⟩ := hr
    obtain ⟨hkeeps', hrest⟩ := hnext v locals m' hkeeps hs
    exact ⟨hkeeps.trans hkeeps', hrest⟩

/-- A computation that looks at no memory comes before steps. -/
theorem Refines.bind_lift {r : Except EvalError α} {f : α → Machine β}
    {g : α → Except EvalError (β × Locals)}
    (hnext : ∀ v, Refines c caller b k frame m (f v) (g v)) :
    Refines c caller b k frame m (liftExcept r >>= f) (r >>= g) := by
  unfold Refines
  rw [outcome_bind, outcome_liftExcept]
  cases r with
  | error e => exact ⟨.refl b m, rfl⟩
  | ok v => exact hnext v

/-- A computation that looks at no memory comes last. -/
theorem refines_lift (h : Situated c caller b m k frame locals) (r : Except EvalError α) :
    Refines c caller b k frame m (liftExcept r) (r >>= fun v => .ok (v, locals)) := by
  unfold Refines
  rw [outcome_liftExcept]
  cases r with
  | error e => exact ⟨.refl b m, rfl⟩
  | ok v => exact ⟨.refl b m, rfl, h⟩

/-- The machine finds what evaluation finds under a name. -/
theorem refines_lookup (hs : Situated c caller b m k frame locals) (h : Host) (name : String)
    (p : Position) :
    Refines c caller b k frame m (lookup k name) (eval h c locals (.symbol name p)) := by
  have hx : outcome (lookup k name) m =
      (((m.context k).lookup? name).elim (.error (.unbound name)) .ok, m) := by
    unfold lookup
    rw [outcome_bind]
    have : outcome (get : Machine Memory) m = (.ok m, m) := rfl
    rw [this]
    cases hfound : (m.context k).lookup? name with
    | none => simp only [hfound]; rfl
    | some v => simp only [hfound]; rfl
  unfold Refines
  rw [hx, hs.context_scope]
  simp only [eval]
  cases (scope c locals).lookup? name with
  | none => exact ⟨.refl b m, rfl⟩
  | some v => exact ⟨.refl b m, rfl, hs⟩

/-- Functions are applied as evaluation does, if those of the caller are honest. -/
theorem refines_apply {callbacks : Callbacks} {h : Host} (hhonest : callbacks.Honest h)
    (hs : Situated c caller b m k frame locals) (name : String) (args : List (Arg Value))
    (f : Callable) :
    Refines c caller b k frame m (apply callbacks h name args f)
      (applyFunction h name f args >>= fun v => .ok (v, locals)) := by
  cases f with
  | builtin f => exact refines_lift hs _
  | foreign f =>
    have hresult := hhonest.result_eq f (h.object []) (positional args) (named args) m
    have hkeeps := hhonest.keeps f (h.object []) (positional args) (named args) m
    unfold Refines
    rw [outcome_apply_foreign, applyFunction, hresult]
    refine ⟨hkeeps.mono hs.size_le, ?_⟩
    cases h.call f (h.object []) (positional args) (named args) with
    | error e => rfl
    | ok v => exact ⟨rfl, hs.after hkeeps⟩

/-- An assignment writes the private frame, and that alone. -/
theorem refines_assign {own : Chain} {content : Frame}
    (h : Situated c caller b m k (some own) (some content)) (name : String) (v : Value) :
    Refines c caller b k (some own) m (do assign own name v; return v)
      (.ok (v, some (Entry.put content name v))) := by
  have hx : outcome (do assign own name v; return v) m = (.ok v, m.assigned own.inner name v) := rfl
  unfold Refines
  rw [hx]
  obtain ⟨-, hnone, -⟩ | ⟨a, hb, ha, hk, hown, hcontent⟩ := h.place
  · cases hnone
  · obtain rfl : own = caller.push a := Option.some.inj hown
    have hkeeps : m.Keeps b (m.assigned a name v) := Memory.keeps_assigned hb m name v
    refine ⟨hkeeps, rfl, h.caller_lt, Nat.le_trans h.size_le hkeeps.grows, ?_, ?_⟩
    · rw [← h.context_eq]
      exact hkeeps.context_eq h.caller_lt
    · refine .inr ⟨a, hb, Nat.lt_of_lt_of_le ha hkeeps.grows, hk, rfl, ?_⟩
      rw [Option.some.inj hcontent, ← Memory.frame_assigned_self ha]
      rfl

/-- A block outside of blocks starts in a frame of its own, which is empty and which nothing else
refers to. -/
theorem Situated.start (h : Situated c caller b m k none locals) :
    outcome (newFrame k) m = (.ok (caller.push m.frames.length), m.extended) ∧
      Situated c caller b m.extended (caller.push m.frames.length)
        (some (caller.push m.frames.length)) (some []) := by
  have hkeeps : m.Keeps b m.extended := Memory.keeps_extended b m
  rcases h.place with ⟨rfl, -, rfl⟩ | ⟨a, -, -, -, hsome, -⟩
  · refine ⟨rfl, h.caller_lt, Nat.le_trans h.size_le hkeeps.grows, ?_, .inr ?_⟩
    · rw [hkeeps.context_eq h.caller_lt, h.context_eq]
    · refine ⟨m.frames.length, h.size_le, ?_, rfl, rfl, ?_⟩
      · simp [Memory.extended]
      · simp [Memory.frame, Memory.extended]
  · cases hsome

variable {callbacks : Callbacks}

/-- Arguments are evaluated as evaluation does, if each of them is. -/
theorem refines_args {args : List (Arg Node)}
    (ih : ∀ a ∈ args, ∀ (h : Host) m locals, callbacks.Honest h →
      Situated c caller b m k frame locals →
        Refines c caller b k frame m (run callbacks h k frame a.value)
          (eval h c locals a.value)) :
    ∀ {hs : Nat → Host} {m locals}, (∀ i, callbacks.Honest (hs i)) →
      Situated c caller b m k frame locals →
        Refines c caller b k frame m (runArgs callbacks hs k frame args)
          (evalArgs hs c locals args) := by
  induction args with
  | nil => exact fun _ h => refines_ok h []
  | cons a rest tail =>
    intro hs m locals hhonest h
    obtain ⟨iha, ihrest⟩ := List.forall_mem_cons.mp ih
    rw [runArgs, evalArgs]
    apply Refines.bind (iha (hs 0) m locals (hhonest 0) h)
    intro v locals m' _ h
    apply Refines.bind (tail ihrest (fun i => hhonest (i + 1)) h)
    exact fun vs locals m' _ h => refines_ok h _

/-- The statements of a block are evaluated as evaluation does, if each of them is. -/
theorem refines_block {own : Chain} {args : List (Arg Node)}
    (ih : ∀ a ∈ args, ∀ (h : Host) m locals, callbacks.Honest h →
      Situated c caller b m own (some own) locals →
        Refines c caller b own (some own) m (run callbacks h own (some own) a.value)
          (eval h c locals a.value)) :
    ∀ {hs : Nat → Host} {m locals} (last : Value), (∀ i, callbacks.Honest (hs i)) →
      Situated c caller b m own (some own) locals →
        Refines c caller b own (some own) m (runBlock callbacks hs own last args)
          (evalBlock hs c locals last args) := by
  induction args with
  | nil => exact fun last _ h => refines_ok h last
  | cons a rest tail =>
    intro hs m locals last hhonest h
    obtain ⟨iha, ihrest⟩ := List.forall_mem_cons.mp ih
    rw [runBlock, evalBlock]
    apply Refines.bind (iha (hs 0) m locals (hhonest 0) h)
    exact fun v locals m' _ h => tail ihrest v (fun i => hhonest (i + 1)) h

/-- The machine evaluates every tree as `Evaluation.eval` does, and keeps what its caller sees. -/
theorem run_refines (n : Node) :
    ∀ {h : Host} {m : Memory} {k : Chain} {frame : Option Chain} {locals : Locals},
      callbacks.Honest h → Situated c caller b m k frame locals →
      Refines c caller b k frame m (run callbacks h k frame n) (eval h c locals n) := by
  induction n using Node.ind with
  | constant a p => exact fun _ h => refines_ok h (Value.atom a)
  | symbol name p => exact fun _ h => refines_lookup h _ name p
  | missing => exact fun _ _ => refines_error .missingArgument
  | params items p => exact fun _ _ => refines_error .parameterList
  | call head args p ihHead ihArgs =>
    intro host m k frame locals hhonest h
    have operand : ∀ n ∈ (Rule.of head args).operands, ∀ i {m : Memory} {k : Chain}
        {frame : Option Chain} {locals : Locals}, Situated c caller b m k frame locals →
        Refines c caller b k frame m (run callbacks (host.arguments i) k frame n)
          (eval (host.arguments i) c locals n) := by
      intro n hn i
      obtain ⟨a, ha, rfl⟩ := Rule.operands_subset hn
      exact ihArgs a ha (hhonest.under (i + 1))
    rw [run_call, eval_call]
    cases hrule : Rule.of head args with
    | quotation n => exact refines_ok h (Value.node n)
    | group n => exact operand n (by simp [hrule, Rule.operands]) 0 h
    | refusal e => exact refines_error e
    | block =>
      have hblock : ∀ {m own locals}, Situated c caller b m own (some own) locals →
          Refines c caller b own (some own) m
            (runBlock callbacks host.arguments own .null args)
            (evalBlock host.arguments c locals .null args) := fun h =>
        refines_block (fun a ha _ _ _ hhonest h => ihArgs a ha hhonest h) .null
          (fun i => hhonest.under (i + 1)) h
      cases frame with
      | some own =>
        obtain ⟨-, hnone, -⟩ | ⟨a, -, -, hk, hown, hlocals⟩ := h.place
        · cases hnone
        · obtain rfl : own = k := by rw [hk]; exact Option.some.inj hown
          rw [hlocals] at h ⊢
          exact hblock h
      | none =>
        -- the new frame is gone with the block; what is left is the context of the caller
        obtain ⟨hstart, hown⟩ := h.start
        obtain ⟨hk, -, rfl⟩ | ⟨a, -, -, -, hsome, -⟩ := h.place
        · obtain ⟨hkeeps, hr⟩ := hblock hown
          unfold Refines
          simp only [Option.elim_none, outcome_bind, hstart]
          refine ⟨(Memory.keeps_extended b m).trans hkeeps, ?_⟩
          cases hresult : evalBlock host.arguments c (some []) .null args with
          | error e =>
            rw [hresult] at hr
            exact hr
          | ok r =>
            rw [hresult] at hr
            rw [hk]
            exact ⟨hr.1, hr.2.outside (.refl b _)⟩
        · cases hsome
    | assignment target value =>
      cases frame with
      | none =>
        obtain ⟨-, -, rfl⟩ | ⟨a, -, -, -, hsome, -⟩ := h.place
        · exact refines_error .outsideBlock
        · cases hsome
      | some own =>
        obtain ⟨-, hnone, -⟩ | ⟨a, -, -, -, -, rfl⟩ := h.place
        · cases hnone
        · apply Refines.bind_lift
          intro name
          apply Refines.bind (operand value (by simp [hrule, Rule.operands]) 1 h)
          intro v locals m' _ h
          obtain ⟨-, hnone, -⟩ | ⟨a, -, -, -, -, rfl⟩ := h.place
          · cases hnone
          · exact refines_assign h name v
    | conditional test yes no =>
      have htest := operand test (by simp [hrule, Rule.operands]) 0 h
      apply Refines.bind htest
      intro v locals m' _ h
      apply Refines.bind_lift
      intro holds
      cases holds with
      | true => exact operand yes (by simp [hrule, Rule.operands]) 1 h
      | false =>
        cases no with
        | some no => exact operand no (by simp [hrule, Rule.operands]) 2 h
        | none => exact refines_ok h Value.null
    | application =>
      apply Refines.bind (ihHead (hhonest.under 0) h)
      intro v locals m' _ h
      cases v with
      | function f =>
        apply Refines.bind (refines_args (fun a ha _ _ _ hhonest h => ihArgs a ha hhonest h)
          (fun i => hhonest.under (i + 1)) h)
        exact fun values locals m' _ h => refines_apply hhonest h _ values f
      | _ => exact refines_error _

end RCode.Machine
