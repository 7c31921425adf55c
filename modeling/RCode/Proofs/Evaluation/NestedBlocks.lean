import RCode.Proofs.Evaluation.Inlining
import RCode.Proofs.Evaluation.Settled

/-!
# Blocks in blocks and calls outside of them

A block inside of a block goes on with the frame of the outer one, so that its statements may as well
stand in its place (`Node.evaluate_inlined`). Only a value can tell the two apart, and only at the end:
an empty block that stands last makes the value NULL. A call outside of all blocks hands no frame on,
and each of its parts has the value that it has alone.

A statement that moves out of its block takes its host along: `Node.origin` says where the statements
of the one block have stood, and no two places come from the same one (`Node.origin_injective`).
-/

set_option autoImplicit false

namespace RCode

namespace Node

theorem rule_of_isBlock {head : Node} {args : List (Arg Node)} {p : Position}
    (h : (Node.call head args p).isBlock = true) : Evaluation.Rule.of head args = .block := by
  cases head with
  | symbol name q =>
    obtain rfl : name = "\x7b" := by simpa [isBlock, isCallTo] using h
    rfl
  | _ => cases h

end Node

namespace Evaluation

open Node (inlined inlinedArgs inlinedPlaces inlinedArgsPlaces length_inlinedPlaces endsEmpty
  endsEmptyArgs)

variable {c : Context} {locals : Locals}

/-! ## The private frame along an evaluation -/

/-- Where evaluation succeeds there is a private frame after it if there was one before. -/
def Stays {α : Type} (locals : Locals) : Except EvalError (α × Locals) → Prop :=
  Ends (fun _ => True) fun r => r.2.isSome = locals.isSome

theorem stays_ok {α : Type} (v : α) (locals : Locals) : Stays locals (.ok (v, locals)) :=
  .ok rfl

theorem stays_error {α : Type} (e : EvalError) (locals : Locals) :
    Stays locals (.error e : Except EvalError (α × Locals)) :=
  .error trivial

/-- What goes on with the frame that a part has left. -/
theorem Stays.bind {α β : Type} {x : Except EvalError (α × Locals)}
    {f : α × Locals → Except EvalError (β × Locals)} (hx : Stays locals x)
    (hf : ∀ v l, Stays l (f (v, l))) : Stays locals (x >>= f) := by
  apply Ends.bind hx
  rintro ⟨v, l⟩ - hl
  have hrest : Stays l (f (v, l)) := hf v l
  unfold Stays at hrest
  rw [← hl]
  exact hrest

theorem Stays.bind_lift {α β : Type} {x : Except EvalError α}
    {f : α → Except EvalError (β × Locals)} (hf : ∀ v, Stays locals (f v)) :
    Stays locals (x >>= f) := by
  cases x with
  | error e => exact stays_error e locals
  | ok v => exact hf v

theorem evalArgs_stays {args : List (Arg Node)}
    (ih : ∀ a ∈ args, ∀ h locals, Stays locals (eval h c locals a.value)) :
    ∀ hs locals, Stays locals (evalArgs hs c locals args) := by
  induction args with
  | nil => exact fun hs locals => stays_ok [] locals
  | cons a rest tail =>
    intro hs locals
    obtain ⟨iha, ihrest⟩ := List.forall_mem_cons.mp ih
    rw [evalArgs]
    apply Stays.bind (iha (hs 0) locals)
    intro v l
    apply Stays.bind (tail ihrest _ l)
    exact fun vs l => stays_ok _ l

theorem evalBlock_stays {args : List (Arg Node)}
    (ih : ∀ a ∈ args, ∀ h locals, Stays locals (eval h c locals a.value)) :
    ∀ hs locals last, Stays locals (evalBlock hs c locals last args) := by
  induction args with
  | nil => exact fun hs locals last => stays_ok last locals
  | cons a rest tail =>
    intro hs locals last
    obtain ⟨iha, ihrest⟩ := List.forall_mem_cons.mp ih
    rw [evalBlock]
    apply Stays.bind (iha (hs 0) locals)
    exact fun v l => tail ihrest _ l v

/-- No tree brings a private frame about, and none loses it. -/
theorem eval_stays (n : Node) : ∀ h locals, Stays locals (eval h c locals n) := by
  induction n using Node.ind with
  | constant a p => exact fun h locals => stays_ok (Value.atom a) locals
  | symbol name p =>
    intro h locals
    rw [eval]
    cases (scope c locals).lookup? name with
    | none => exact stays_error _ locals
    | some v => exact stays_ok v locals
  | missing => exact fun h locals => stays_error _ locals
  | params items p => exact fun h locals => stays_error _ locals
  | call head args p ihHead ihArgs =>
    intro h locals
    have operand : ∀ n ∈ (Rule.of head args).operands, ∀ h locals,
        Stays locals (eval h c locals n) := by
      intro n hn
      obtain ⟨a, ha, rfl⟩ := Rule.operands_subset hn
      exact ihArgs a ha
    rw [eval_call]
    cases hrule : Rule.of head args with
    | quotation n => exact stays_ok (Value.node n) locals
    | refusal e => exact stays_error e locals
    | group n => exact operand n (by simp [hrule, Rule.operands]) _ locals
    | block =>
      cases locals with
      | some frame => exact evalBlock_stays ihArgs h.arguments (some frame) .null
      | none =>
        -- the frame of an outermost block is gone after it
        cases evalBlock h.arguments c (some []) .null args with
        | error e => exact stays_error e none
        | ok r => exact stays_ok r.1 none
    | assignment target value =>
      cases locals with
      | none => exact stays_error _ none
      | some frame =>
        apply Stays.bind_lift
        intro name
        apply Stays.bind (operand value (by simp [hrule, Rule.operands]) _ (some frame))
        intro v l
        cases l with
        | none => exact stays_ok v none
        | some frame => exact .ok rfl
    | conditional test yes no =>
      apply Stays.bind (operand test (by simp [hrule, Rule.operands]) _ locals)
      intro v l
      apply Stays.bind_lift
      intro holds
      cases holds with
      | true => exact operand yes (by simp [hrule, Rule.operands]) _ l
      | false =>
        cases no with
        | none => exact stays_ok Value.null l
        | some no => exact operand no (by simp [hrule, Rule.operands]) _ l
    | application =>
      apply Stays.bind (ihHead (h.under 0) locals)
      intro v l
      cases v with
      | function f =>
        apply Stays.bind (evalArgs_stays ihArgs h.arguments l)
        intro values l
        apply Stays.bind_lift
        exact fun v => stays_ok v l
      | _ => exact stays_error _ l

/-- Outside of all blocks a tree has its value alone: nothing is handed on. -/
theorem eval_none (h : Host) (c : Context) (n : Node) :
    eval h c none n = (n.evaluate h c).map (·, none) := by
  have hstays := eval_stays (c := c) n h none
  unfold Node.evaluate
  cases hn : eval h c none n with
  | error e => rfl
  | ok r =>
    obtain ⟨v, l⟩ := r
    have hl : l.isSome = false := hstays.yields _ hn
    obtain rfl : l = none := Option.not_isSome_iff_eq_none.mp (by simp [hl])
    rfl

theorem evalArgs_none (hs : Nat → Host) (c : Context) (args : List (Arg Node)) :
    evalArgs hs c none args =
      ((Host.row hs args).mapM (argValue fun h n => n.evaluate h c)).map (·, none) := by
  induction args generalizing hs with
  | nil => rfl
  | cons a rest ih =>
    rw [evalArgs, eval_none, Host.row_cons, List.mapM_cons, argValue]
    cases a.value.evaluate (hs 0) c with
    | error e => rfl
    | ok v =>
      simp only [Except.map, ok_bind, ih, pure_bind]
      cases (Host.row (fun i => hs (i + 1)) rest).mapM (argValue fun h n => n.evaluate h c) with
      | error e => rfl
      | ok vs => rfl

/-- A call that is no form takes its value from those that its parts have alone. -/
theorem evaluate_application (h : Host) (c : Context) {head : Node} (args : List (Arg Node))
    (p : Position) (hform : head.name?.bind Form.ofName? = none) :
    (Node.call head args p).evaluate h c = (do
      match ← head.evaluate (h.under 0) c with
      | .function f =>
        let values ← (Host.row h.arguments args).mapM (argValue fun h n => n.evaluate h c)
        applyFunction h (head.name?.getD "function") f values
      | v => throw (v.shown?.elim .unwritable .notAFunction)) := by
  have hrule : Rule.of head args = .application := by
    unfold Rule.of
    rw [hform]
  rw [Node.evaluate, eval_call, hrule]
  simp only [eval_none (h.under 0) c head]
  cases head.evaluate (h.under 0) c with
  | error e => rfl
  | ok v =>
    cases v with
    | function f =>
      simp only [Except.map, ok_bind, evalArgs_none]
      cases (Host.row h.arguments args).mapM (argValue fun h n => n.evaluate h c) with
      | error e => rfl
      | ok values =>
        simp only [ok_bind]
        cases applyFunction h (head.name?.getD "function") f values with
        | error e => rfl
        | ok v => rfl
    | _ => rfl

/-! ## Statements in their places -/

theorem evalBlock_append (hs : Nat → Host) (xs ys : List (Arg Node)) (locals : Locals)
    (last : Value) :
    evalBlock hs c locals last (xs ++ ys) =
      evalBlock hs c locals last xs >>= fun (v, l) =>
        evalBlock (fun i => hs (i + xs.length)) c l v ys := by
  induction xs generalizing hs locals last with
  | nil => rfl
  | cons a rest ih =>
    rw [List.cons_append, evalBlock, evalBlock, bind_assoc]
    congr 1
    funext r
    exact ih (fun i => hs (i + 1)) r.2 r.1

/-- What came before the first statement of a block does not matter. -/
theorem evalBlock_cons (hs : Nat → Host) (a : Arg Node) (rest : List (Arg Node)) (locals : Locals)
    (last last' : Value) :
    evalBlock hs c locals last (a :: rest) = evalBlock hs c locals last' (a :: rest) := by
  rw [evalBlock, evalBlock]

/-- The result of a block that ends with an empty block, or else of its statements. -/
def settle (isEmpty : Bool) (r : Value × Locals) : Value × Locals :=
  (if isEmpty then .null else r.1, r.2)

/-- A row of statements comes to what its statements in their places come to, if each statement
does. -/
theorem evalBlock_inlined (c : Context) {args : List (Arg Node)}
    (ih : ∀ a ∈ args, ∀ h hs name frame last,
      (∀ i place, (inlinedPlaces a.value)[i]? = some place → hs i = h.within place) →
        eval h c (some frame) a.value =
          (evalBlock hs c (some frame) last (inlined name a.value)).map
            (settle a.value.endsEmpty)) :
    ∀ hs hs' frame last,
      (∀ i x, (inlinedArgsPlaces args)[i]? = some x → hs' i = (hs x.1).within x.2) →
        evalBlock hs c (some frame) .null args =
          (evalBlock hs' c (some frame) last (inlinedArgs args)).map
            (settle (endsEmptyArgs args)) := by
  induction args with
  | nil => exact fun hs hs' frame last _ => rfl
  | cons a rest tail =>
    intro hs hs' frame last hplaces
    obtain ⟨iha, ihrest⟩ := List.forall_mem_cons.mp ih
    -- the places of the first statement come first
    have hfirst : ∀ i place, (inlinedPlaces a.value)[i]? = some place →
        hs' i = (hs 0).within place := by
      intro i place hplace
      refine hplaces i (0, place) ?_
      have hlt := (List.getElem?_eq_some_iff.mp hplace).1
      rw [inlinedArgsPlaces, List.getElem?_append_left (by rwa [List.length_map]),
        List.getElem?_map, hplace]
      rfl
    have hrest : ∀ i x, (inlinedArgsPlaces rest)[i]? = some x →
        hs' (i + (inlined a.name a.value).length) = (hs (x.1 + 1)).within x.2 := by
      intro i x hx
      refine hplaces _ (x.1 + 1, x.2) ?_
      rw [inlinedArgsPlaces, ← length_inlinedPlaces, ← List.length_map (fun place => (0, place)),
        List.getElem?_append_right (Nat.le_add_left _ _), Nat.add_sub_cancel, List.getElem?_map, hx]
      rfl
    rw [evalBlock, inlinedArgs, evalBlock_append, iha (hs 0) hs' a.name frame last hfirst]
    cases rest with
    | nil =>
      -- the value of the last statement is that of the block
      rw [inlinedArgs, endsEmptyArgs]
      cases evalBlock hs' c (some frame) last (inlined a.name a.value) with
      | error e => rfl
      | ok r => rfl
    | cons b rest =>
      -- of a statement before others only the frame goes on
      rw [Node.endsEmptyArgs_cons_cons]
      cases hr : evalBlock hs' c (some frame) last (inlined a.name a.value) with
      | error e => rfl
      | ok r =>
        obtain ⟨v, l⟩ := r
        have hl := (evalBlock_stays (fun a _ => eval_stays a.value) hs' (some frame) last).yields _ hr
        obtain ⟨next, rfl⟩ := Option.isSome_iff_exists.mp hl
        let later := fun i => hs (i + 1)
        let later' := fun i => hs' (i + (inlined a.name a.value).length)
        calc evalBlock later c (some next) (settle a.value.endsEmpty (v, some next)).1 (b :: rest)
            = evalBlock later c (some next) .null (b :: rest) := evalBlock_cons _ b rest _ _ _
          _ = (evalBlock later' c (some next) v (inlinedArgs (b :: rest))).map
                (settle (endsEmptyArgs (b :: rest))) := tail ihrest later later' next v hrest

/-- A statement of a block comes to what stands in its place comes to. -/
theorem eval_inlined (n : Node) : ∀ h hs name frame last,
    (∀ i place, (inlinedPlaces n)[i]? = some place → hs i = h.within place) →
      eval h c (some frame) n =
        (evalBlock hs c (some frame) last (inlined name n)).map (settle n.endsEmpty) := by
  have one : ∀ h hs name frame last (n : Node), n.endsEmpty = false → inlined name n = [⟨name, n⟩] →
      inlinedPlaces n = [[]] →
        (∀ i place, (inlinedPlaces n)[i]? = some place → hs i = Host.within h place) →
          eval h c (some frame) n =
            (evalBlock hs c (some frame) last (inlined name n)).map (settle n.endsEmpty) := by
    intro h hs name frame last n hends hone hplace hplaces
    have hhost : hs 0 = h := hplaces 0 [] (by rw [hplace]; rfl)
    rw [hone, hends, evalBlock, hhost]
    cases eval h c (some frame) n with
    | error e => rfl
    | ok r => rfl
  induction n using Node.ind with
  | constant a p => exact fun h hs name frame last => one h hs name frame last _ rfl rfl rfl
  | symbol s p => exact fun h hs name frame last => one h hs name frame last _ rfl rfl rfl
  | missing => exact fun h hs name frame last => one h hs name frame last _ rfl rfl rfl
  | params items p => exact fun h hs name frame last => one h hs name frame last _ rfl rfl rfl
  | call head args p _ ihArgs =>
    intro h hs name frame last hplaces
    cases hblock : (Node.call head args p).isBlock with
    | false =>
      refine one h hs name frame last _ ?_ ?_ ?_ hplaces
      · rw [endsEmpty, hblock, Bool.false_and]
      · rw [inlined, hblock]
        rfl
      · rw [inlinedPlaces, hblock]
        rfl
    | true =>
      have hinlined : inlined name (.call head args p) = inlinedArgs args := by
        rw [inlined, if_pos hblock]
      rw [eval_call, Node.rule_of_isBlock hblock, hinlined, endsEmpty, hblock, Bool.true_and]
      refine evalBlock_inlined c ihArgs h.arguments hs frame last fun i x hx => ?_
      refine hplaces i ((x.1 + 1) :: x.2) ?_
      rw [inlinedPlaces, if_pos hblock, List.getElem?_map, hx]
      rfl

/-- Where the value of the last statement counts, a block comes to what its statements in their
places come to, in a block and outside of all of them. -/
theorem eval_block_inlined (args : List (Arg Node)) (p q : Position)
    (hends : ∀ a ∈ args.getLast?, a.value.endsEmpty = false) :
    ∀ h locals, eval h c locals (.call (.symbol "\x7b" q) args p) =
      eval (h.moved (Node.origin args)) c locals
        (.call (.symbol "\x7b" q) (inlinedArgs args) p) := by
  have hrow : ∀ h frame, evalBlock (Host.arguments h) c (some frame) .null args =
      evalBlock (h.moved (Node.origin args)).arguments c (some frame) .null (inlinedArgs args) := by
    intro h frame
    have hinlined := evalBlock_inlined c (fun a (_ : a ∈ args) => eval_inlined a.value)
      h.arguments (h.moved (Node.origin args)).arguments frame .null
      fun i x hx => h.arguments_moved_origin hx
    rw [hinlined]
    rcases List.eq_nil_or_concat' args with rfl | ⟨before, a, rfl⟩
    · rfl
    · have hlast : a.value.endsEmpty = false := hends a (by simp)
      rw [Node.endsEmptyArgs_concat, hlast]
      cases evalBlock (h.moved (Node.origin (before ++ [a]))).arguments c (some frame) .null
          (inlinedArgs (before ++ [a])) with
      | error e => rfl
      | ok r => rfl
  intro h locals
  have hrule : ∀ args, Rule.of (.symbol "\x7b" q) args = .block := fun _ => rfl
  rw [eval_call, eval_call, hrule, hrule]
  cases locals with
  | none => simp only [hrow]
  | some frame => exact hrow h frame

end Evaluation

namespace Node

open Evaluation

/-- Nested blocks share one frame, and arguments share nothing. A block has the value, or the error,
of the block with the statements of its inner blocks in their places, to any depth, so that no inner
block is left; inside of other blocks it leaves the same frame as well. What is made in a statement
is named for the place that the statement comes from, and no two places come from the same one. The
value of the last statement must count for this: the block does not end with an empty block, nor with
a block that ends so. A call that is no form has its head and each of its arguments evaluated alone in
the context of the call, whatever blocks and assignments they hold. -/
theorem evaluate_inlined (c : Context) (args : List (Arg Node)) (p q : Position)
    (hends : ∀ a ∈ args.getLast?, a.value.endsEmpty = false) :
    (∀ a ∈ inlinedArgs args, a.value.isBlock = false) ∧
      Function.Injective (origin args) ∧
      (∀ h, (Node.call (.symbol "\x7b" q) args p).evaluate h c =
        (Node.call (.symbol "\x7b" q) (inlinedArgs args) p).evaluate (h.moved (origin args)) c) ∧
      (∀ h locals, eval h c locals (.call (.symbol "\x7b" q) args p) =
        eval (h.moved (origin args)) c locals (.call (.symbol "\x7b" q) (inlinedArgs args) p)) ∧
      ∀ h head operands r, head.name?.bind Form.ofName? = none →
        (Node.call head operands r).evaluate h c = (do
          match ← head.evaluate (h.under 0) c with
          | .function f =>
            let values ← (Host.row h.arguments operands).mapM
              (argValue fun h n => n.evaluate h c)
            applyFunction h (head.name?.getD "function") f values
          | v => throw (v.shown?.elim .unwritable .notAFunction)) := by
  have hblock := eval_block_inlined (c := c) args p q hends
  refine ⟨inlinedArgs_isBlock args, origin_injective args, ?_, hblock, ?_⟩
  · intro h
    rw [evaluate, evaluate, hblock h none]
  · intro h head operands r hform
    exact evaluate_application h c operands r hform

/-- An assignment in an inner block, before an empty one, is seen behind it, with the NaN that it has
made; one in an argument is not seen in the next argument. -/
theorem evaluate_inlined_assignment :
    let x : Arg Node := ⟨none, .symbol "x" .nowhere⟩
    let call (name : String) (args : List Node) : Node :=
      .call (.symbol name .nowhere) (args.map (⟨none, ·⟩)) .nowhere
    let assign (value : Node) : Arg Node := ⟨none, call "<-" [.symbol "x" .nowhere, value]⟩
    let one : Node := .constant (.integer 1) .nowhere
    let block (args : List (Arg Node)) : Node := .call (.symbol "\x7b" .nowhere) args .nowhere
    let nan := call "nan" []
    let args := [assign one, ⟨none, block [assign nan, ⟨none, block []⟩]⟩, x]
    let f : Foreign := ⟨0, "function", "<function nan>"⟩
    let c : Context := ⟨[⟨"list", .function (.builtin .list)⟩, ⟨"nan", .function (.foreign f)⟩], []⟩
    let h : Host := { Host.plain 100 with call := fun _ object _ _ => .ok (.atom (.nan (object 0))) }
    (∀ a ∈ args.getLast?, a.value.endsEmpty = false) ∧
      inlinedArgs args = [assign one, assign nan, x] ∧
      (block args).evaluate h c =
        (block [assign one, assign nan, x]).evaluate (h.moved (origin args)) c ∧
      (block args).evaluate h c = .ok (.atom (.nan (.made [2, 1, 2] 0))) ∧
      (Node.symbol "list" .nowhere).name?.bind Form.ofName? = none ∧
      (Node.call (.symbol "list" .nowhere) [⟨none, block [assign one]⟩, x] .nowhere).evaluate h c =
        .error (.unbound "x") := by
  intro x call assign one block nan args f c h
  have hends : ∀ a ∈ args.getLast?, a.value.endsEmpty = false := by
    rintro a ⟨⟩
    rfl
  obtain ⟨-, -, hblock, -, happly⟩ := evaluate_inlined c args .nowhere .nowhere hends
  have hform : (Node.symbol "list" .nowhere).name?.bind Form.ofName? = none := by decide
  refine ⟨hends, rfl, hblock h, rfl, hform, ?_⟩
  rw [happly h _ _ _ hform]
  rfl

end Node

end RCode
