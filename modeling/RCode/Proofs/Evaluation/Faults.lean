import RCode.Proofs.Evaluation.Rule
import RCode.Proofs.Value.Functions

/-!
# Errors of evaluation

An error of evaluation is raised at one of the parts that are evaluated on the way, and passed on
from there. `Reaches` says which parts these are, and with which private frame. Where a context
binds what the base functions can make, the errors are those that evaluation has names of its own
for (`EvalError.isOwn`), with two exceptions: an assignment to the empty text, and a call of
something that is no function and too long to be shown. `eval_ends` and `eval_of_fault` say that
these two places, and no others, give an error without such a name.
-/

set_option autoImplicit false

namespace RCode

/-- Evaluation has a name of its own for the error. The others are those of nodes that cannot be
built and of texts that cannot be read or written. -/
def EvalError.isOwn : EvalError → Bool
  | .emptyName | .unwritable | .literal _ | .unreadable _ _ => false
  | _ => true

/-! ## Contexts of well-formed values -/

/-- Every value in the frame is well formed. -/
def Frame.WellFormed (frame : Frame) : Prop :=
  ∀ e ∈ frame, e.value.WellFormed

/-- Every value that the context binds is well formed. -/
def Context.WellFormed (c : Context) : Prop :=
  ∀ frame ∈ c.bindings :: c.outer, Frame.WellFormed frame

namespace Context

variable {c : Context}

theorem WellFormed.lookup? (h : c.WellFormed) {name : String} {v : Value}
    (hv : c.lookup? name = some v) : v.WellFormed := by
  have hchain : ∀ frames : List Frame, (∀ frame ∈ frames, Frame.WellFormed frame) →
      lookupIn? name frames = some v → v.WellFormed := by
    intro frames hframes hv
    induction frames with
    | nil => cases hv
    | cons frame outer ih =>
      obtain ⟨hframe, houter⟩ := List.forall_mem_cons.mp hframes
      rcases Option.or_eq_some_iff.mp hv with hv | ⟨-, hv⟩
      · exact Entry.of_find? hframe hv
      · exact ih houter hv
  exact hchain _ h hv

/-- The base functions with well-formed bindings on top. -/
theorem wellFormed_base {bindings : Frame} (h : Frame.WellFormed bindings) :
    (base bindings).WellFormed := by
  refine List.forall_mem_cons.mpr ⟨h, List.forall_mem_singleton.mpr ?_⟩
  exact List.forall_mem_map.mpr fun b hb => .function (List.mem_map_of_mem hb)

end Context

namespace Evaluation

/-- Every value in the private frame is well formed. -/
def Locals.WellFormed (locals : Locals) : Prop :=
  ∀ frame ∈ locals, Frame.WellFormed frame

variable {c : Context} {h h' : Host} {hs : Nat → Host} {locals locals' : Locals} {n n' : Node}
  {e : EvalError}

theorem wellFormed_none : Locals.WellFormed none := by
  rintro _ ⟨⟩

theorem wellFormed_scope (hc : c.WellFormed) (hlocals : Locals.WellFormed locals) :
    (scope c locals).WellFormed := by
  cases locals with
  | none => exact hc
  | some frame => exact List.forall_mem_cons.mpr ⟨hlocals frame rfl, hc⟩

/-- The frame of a block, whether it is the outermost one or not. -/
theorem wellFormed_block (hlocals : Locals.WellFormed locals) :
    Locals.WellFormed (some (locals.getD [])) := by
  rintro _ ⟨⟩
  cases locals with
  | none => exact List.forall_mem_nil _
  | some frame => exact hlocals frame rfl

/-- The frame after an assignment. -/
theorem wellFormed_put (hlocals : Locals.WellFormed locals) {v : Value} (hv : v.WellFormed)
    (name : String) :
    Locals.WellFormed (locals.map fun frame => Entry.put frame name v) := by
  intro frame hframe
  obtain ⟨old, hold, rfl⟩ := Option.map_eq_some_iff.mp hframe
  exact Entry.forall_put (hlocals old hold) hv

/-! ## The parts that are evaluated -/

/-- The evaluation of arguments from left to right comes to one of them with this private frame. -/
inductive Sequence (c : Context) :
    (Nat → Host) → Locals → List (Arg Node) → Host → Locals → Node → Prop where
  | first {hs : Nat → Host} {locals : Locals} {a : Arg Node} {rest : List (Arg Node)} :
      Sequence c hs locals (a :: rest) (hs 0) locals a.value
  | later {hs : Nat → Host} {h' : Host} {locals locals₁ locals' : Locals} {a : Arg Node}
      {rest : List (Arg Node)} {v : Value} {n : Node} :
      eval (hs 0) c locals a.value = .ok (v, locals₁) →
        Sequence c (fun i => hs (i + 1)) locals₁ rest h' locals' n →
          Sequence c hs locals (a :: rest) h' locals' n

/-- The evaluation of a tree evaluates a part of it with this private frame. -/
inductive Part (c : Context) : Host → Locals → Node → Host → Locals → Node → Prop where
  | group {h : Host} {locals : Locals} {head operand : Node} {args : List (Arg Node)}
      {p : Position} : Rule.of head args = .group operand →
        Part c h locals (.call head args p) (h.arguments 0) locals operand
  | block {h h' : Host} {locals locals' : Locals} {head n : Node} {args : List (Arg Node)}
      {p : Position} : Rule.of head args = .block →
        Sequence c h.arguments (some (locals.getD [])) args h' locals' n →
          Part c h locals (.call head args p) h' locals' n
  | assignment {h : Host} {frame : Frame} {head target value : Node} {args : List (Arg Node)}
      {p : Position} {name : String} : Rule.of head args = .assignment target value →
        targetName target = .ok name →
          Part c h (some frame) (.call head args p) (h.arguments 1) (some frame) value
  | test {h : Host} {locals : Locals} {head test yes : Node} {no : Option Node}
      {args : List (Arg Node)} {p : Position} : Rule.of head args = .conditional test yes no →
        Part c h locals (.call head args p) (h.arguments 0) locals test
  | yes {h : Host} {locals locals' : Locals} {head test yes : Node} {no : Option Node}
      {args : List (Arg Node)} {p : Position} {v : Value} :
      Rule.of head args = .conditional test yes no →
        eval (h.arguments 0) c locals test = .ok (v, locals') → v.condition = .ok true →
          Part c h locals (.call head args p) (h.arguments 1) locals' yes
  | no {h : Host} {locals locals' : Locals} {head test yes no : Node} {args : List (Arg Node)}
      {p : Position} {v : Value} : Rule.of head args = .conditional test yes (some no) →
        eval (h.arguments 0) c locals test = .ok (v, locals') → v.condition = .ok false →
          Part c h locals (.call head args p) (h.arguments 2) locals' no
  | head {h : Host} {locals : Locals} {head : Node} {args : List (Arg Node)} {p : Position} :
      Rule.of head args = .application →
        Part c h locals (.call head args p) (h.under 0) locals head
  | argument {h h' : Host} {locals locals₁ locals' : Locals} {head n : Node}
      {args : List (Arg Node)} {p : Position} {f : Callable} :
      Rule.of head args = .application →
        eval (h.under 0) c locals head = .ok (.function f, locals₁) →
          Sequence c h.arguments locals₁ args h' locals' n →
            Part c h locals (.call head args p) h' locals' n

/-- The evaluation of a tree comes, part by part, to this tree with this private frame. -/
inductive Reaches (c : Context) : Host → Locals → Node → Host → Locals → Node → Prop where
  | here {h : Host} {locals : Locals} {n : Node} : Reaches c h locals n h locals n
  | part {h h₁ h' : Host} {locals locals₁ locals' : Locals} {n n₁ n' : Node} :
      Part c h locals n h₁ locals₁ n₁ → Reaches c h₁ locals₁ n₁ h' locals' n' →
        Reaches c h locals n h' locals' n'

theorem Sequence.mem {args : List (Arg Node)} (hseq : Sequence c hs locals args h' locals' n) :
    ∃ a ∈ args, a.value = n := by
  induction hseq with
  | first => exact ⟨_, List.mem_cons_self, rfl⟩
  | later _ _ ih =>
    obtain ⟨a, ha, rfl⟩ := ih
    exact ⟨a, List.mem_cons_of_mem _ ha, rfl⟩

/-- Only the head and the arguments of a call are evaluated. -/
theorem Part.mem {head : Node} {args : List (Arg Node)} {p : Position}
    (hpart : Part c h locals (.call head args p) h' locals' n) :
    n = head ∨ ∃ a ∈ args, a.value = n := by
  cases hpart with
  | group hrule | assignment hrule | test hrule | yes hrule | no hrule =>
    have hoperand : n ∈ (Rule.of head args).operands := by
      rw [hrule]
      simp [Rule.operands]
    exact .inr (Rule.operands_subset hoperand)
  | head => exact .inl rfl
  | block _ hseq | argument _ _ hseq => exact .inr hseq.mem

/-! ## Errors are passed on -/

theorem Sequence.evalArgs_error {args : List (Arg Node)}
    (hseq : Sequence c hs locals args h' locals' n) (he : eval h' c locals' n = .error e) :
    evalArgs hs c locals args = .error e := by
  induction hseq with
  | first => rw [evalArgs, he, error_bind]
  | later hv _ ih =>
    rw [evalArgs, hv, ok_bind]
    dsimp only
    rw [ih he, error_bind]

theorem Sequence.evalBlock_error {args : List (Arg Node)}
    (hseq : Sequence c hs locals args h' locals' n) (he : eval h' c locals' n = .error e)
    (last : Value) : evalBlock hs c locals last args = .error e := by
  induction hseq generalizing last with
  | first => rw [evalBlock, he, error_bind]
  | later hv _ ih =>
    rw [evalBlock, hv, ok_bind]
    exact ih he _

/-- A tree fails with the error of the part that it evaluates. -/
theorem Part.error (hpart : Part c h locals n h' locals' n')
    (he : eval h' c locals' n' = .error e) : eval h c locals n = .error e := by
  cases hpart with
  | group hrule =>
    rw [eval_call, hrule]
    exact he
  | block hrule hseq =>
    rw [eval_call, hrule]
    have hblock := hseq.evalBlock_error he .null
    cases locals with
    | none => exact congrArg (Except.map _) hblock
    | some frame => exact hblock
  | assignment hrule hname =>
    rw [eval_call, hrule]
    dsimp only
    rw [hname, ok_bind, he, error_bind]
  | test hrule =>
    rw [eval_call, hrule]
    dsimp only
    rw [he, error_bind]
  | yes hrule hv hcondition | no hrule hv hcondition =>
    rw [eval_call, hrule]
    dsimp only
    rw [hv, ok_bind]
    dsimp only
    rw [hcondition]
    exact he
  | head hrule =>
    rw [eval_call, hrule]
    dsimp only
    rw [he, error_bind]
  | argument hrule hf hseq =>
    rw [eval_call, hrule]
    dsimp only
    rw [hf, ok_bind]
    dsimp only
    rw [hseq.evalArgs_error he, error_bind]

/-- What fails where evaluation comes to fails for the tree. -/
theorem Reaches.error (hreaches : Reaches c h locals n h' locals' n')
    (he : eval h' c locals' n' = .error e) : eval h c locals n = .error e := by
  induction hreaches with
  | here => exact he
  | part hpart _ ih => exact hpart.error (ih he)

/-! ## Faults -/

/-- The call has an error that evaluation has no name for. -/
inductive Faulty (h : Host) (c : Context) : Locals → Node → EvalError → Prop where
  /-- The target of an assignment in a block is the empty text. -/
  | emptyName {frame : Frame} {head value : Node} {args : List (Arg Node)} {p q : Position} :
      Rule.of head args = .assignment (.constant (.text "") q) value →
        Faulty h c (some frame) (.call head args p) .emptyName
  /-- What is called has no text, and so is no function. -/
  | unwritable {locals locals' : Locals} {head : Node} {args : List (Arg Node)} {p : Position}
      {v : Value} : Rule.of head args = .application →
        eval (h.under 0) c locals head = .ok (v, locals') → v.isWritable = false →
          Faulty h c locals (.call head args p) .unwritable

/-- The evaluation of a tree comes to a faulty call. -/
def Fault (h : Host) (c : Context) (locals : Locals) (n : Node) (e : EvalError) : Prop :=
  ∃ h' locals' n', Reaches c h locals n h' locals' n' ∧ Faulty h' c locals' n' e

theorem Faulty.error (hfaulty : Faulty h c locals n e) : eval h c locals n = .error e := by
  cases hfaulty with
  | emptyName hrule =>
    rw [eval_call, hrule]
    rfl
  | @unwritable _ _ _ _ _ v hrule hv hwritable =>
    rw [eval_call, hrule]
    dsimp only
    rw [hv, ok_bind]
    have hshown : v.shown? = none := by rw [Value.shown?, hwritable]; rfl
    cases v with
    | function f => cases hwritable
    | _ =>
      dsimp only
      rw [hshown]
      rfl

/-- A tree whose evaluation comes to a faulty call has its error. -/
theorem eval_of_fault (hfault : Fault h c locals n e) : eval h c locals n = .error e := by
  obtain ⟨h', locals', n', hreaches, hfaulty⟩ := hfault
  exact hreaches.error hfaulty.error

/-! ## All other errors are named -/

/-- A value and a private frame that are well formed. -/
structure Sound (r : Value × Locals) : Prop where
  value : r.1.WellFormed
  locals : Locals.WellFormed r.2

/-- The errors that a tree may have. -/
def Expected (h : Host) (c : Context) (locals : Locals) (n : Node) (e : EvalError) : Prop :=
  e.isOwn = true ∨ Fault h c locals n e

theorem Expected.part (hpart : Part c h locals n h' locals' n')
    (he : Expected h' c locals' n' e) : Expected h c locals n e := by
  rcases he with he | ⟨h₂, locals₂, n₂, hreaches, hfaulty⟩
  · exact .inl he
  · exact .inr ⟨h₂, locals₂, n₂, .part hpart hreaches, hfaulty⟩

variable {P : EvalError → Prop} {args : List (Arg Node)}

theorem evalArgs_ends (hlocals : Locals.WellFormed locals)
    (hargs : ∀ h' locals' n, Sequence c hs locals args h' locals' n → Locals.WellFormed locals' →
      Ends P Sound (eval h' c locals' n)) :
    Ends P (fun r => (∀ a ∈ r.1, a.value.WellFormed) ∧ Locals.WellFormed r.2)
      (evalArgs hs c locals args) := by
  induction args generalizing hs locals with
  | nil => exact .ok ⟨List.forall_mem_nil _, hlocals⟩
  | cons a rest ih =>
    rw [evalArgs]
    refine (hargs (hs 0) locals a.value .first hlocals).bind ?_
    rintro ⟨v, locals₁⟩ hv ⟨hvalue, hlocals₁⟩
    have hrest := ih hlocals₁ fun h' locals' n hseq => hargs h' locals' n (.later hv hseq)
    refine hrest.bind ?_
    rintro ⟨vs, locals₂⟩ - ⟨hvalues, hlocals₂⟩
    exact .ok ⟨List.forall_mem_cons.mpr ⟨hvalue, hvalues⟩, hlocals₂⟩

theorem evalBlock_ends {last : Value} (hlast : last.WellFormed) (hlocals : Locals.WellFormed locals)
    (hargs : ∀ h' locals' n, Sequence c hs locals args h' locals' n → Locals.WellFormed locals' →
      Ends P Sound (eval h' c locals' n)) : Ends P Sound (evalBlock hs c locals last args) := by
  induction args generalizing hs locals last with
  | nil => exact .ok ⟨hlast, hlocals⟩
  | cons a rest ih =>
    rw [evalBlock]
    refine (hargs (hs 0) locals a.value .first hlocals).bind ?_
    rintro ⟨v, locals₁⟩ hv ⟨hvalue, hlocals₁⟩
    exact ih hvalue hlocals₁ fun h' locals' n hseq => hargs h' locals' n (.later hv hseq)

theorem positional_wellFormed {args : List (Arg Value)} (hargs : ∀ a ∈ args, a.value.WellFormed) :
    ∀ v ∈ positional args, v.WellFormed := by
  refine List.forall_mem_filterMap.mpr fun a ha v hv => ?_
  split at hv
  · exact Option.some.inj hv ▸ hargs a ha
  · cases hv

theorem named_wellFormed {args : List (Arg Value)} (hargs : ∀ a ∈ args, a.value.WellFormed) :
    ∀ e ∈ named args, e.value.WellFormed := by
  refine Entry.forall_distinct (List.forall_mem_filterMap.mpr fun a ha e he => ?_)
  obtain ⟨name, -, rfl⟩ := Option.map_eq_some_iff.mp he
  exact hargs a ha

/-- A base function that is applied gives a well-formed value, or a failed call. -/
theorem applyFunction_ends {f : Callable} (hf : (Value.function f).WellFormed) (h : Host)
    (name : String) {args : List (Arg Value)} (hargs : ∀ a ∈ args, a.value.WellFormed) :
    Ends (fun e => e.isOwn = true) Value.WellFormed (applyFunction h name f args) := by
  cases hf with
  | function hbase =>
    refine (Builtin.apply_ends hbase (positional_wellFormed hargs) (named_wellFormed hargs)
      h.workspace).mapError fun e he => ?_
    cases e with
    | failure | refused => rfl
    | literal | unreadable => cases he

theorem targetName_ends {target : Node} (htarget : target.WellFormed) :
    Ends (fun e => e.isOwn = true ∨ e = .emptyName ∧ ∃ q, target = .constant (.text "") q)
      (fun _ => True) (targetName target) := by
  unfold targetName
  cases target with
  | constant a q =>
    cases a with
    | text s =>
      by_cases hs : s = ""
      · subst hs
        exact .error (.inr ⟨rfl, q, rfl⟩)
      · simp only [Node.targetName?, hs, if_false]
        exact .ok trivial
    | _ => exact .error (.inl rfl)
  | symbol name q =>
    have hname : name ≠ "" := htarget
    simp only [Node.targetName?, hname, if_false]
    exact .ok trivial
  | _ => exact .error (.inl rfl)

/-- A call that is refused has an error with a name. -/
theorem Rule.isOwn_of_refusal {head : Node} (h : Rule.of head args = .refusal e) :
    e.isOwn = true := by
  unfold Rule.of at h
  split at h <;> cases h <;> rfl

theorem Rule.mem_of_quotation {head operand : Node} (h : Rule.of head args = .quotation operand) :
    ∃ a ∈ args, a.value = operand := by
  unfold Rule.of at h
  split at h <;> cases h
  exact ⟨_, List.mem_cons_self, rfl⟩

theorem Rule.mem_of_assignment {head target value : Node}
    (h : Rule.of head args = .assignment target value) : ∃ a ∈ args, a.value = target := by
  unfold Rule.of at h
  split at h <;> cases h
  exact ⟨_, List.mem_cons_self, rfl⟩

/-- In a context of well-formed values the evaluation of a well-formed tree gives a well-formed
value, or it fails with a named error, or it comes to a faulty call. -/
theorem eval_ends (hc : c.WellFormed) (n : Node) : n.WellFormed → ∀ h locals,
    Locals.WellFormed locals → Ends (Expected h c locals n) Sound (eval h c locals n) := by
  induction n using Node.ind with
  | constant a p => exact fun _ h locals hlocals => .ok ⟨.atom a, hlocals⟩
  | symbol name p =>
    intro _ h locals hlocals
    rw [eval]
    cases hv : (scope c locals).lookup? name with
    | none => exact .error (.inl rfl)
    | some v => exact .ok ⟨(wellFormed_scope hc hlocals).lookup? hv, hlocals⟩
  | missing => exact fun _ _ _ _ => .error (.inl rfl)
  | params items p => exact fun _ _ _ _ => .error (.inl rfl)
  | call head args p ihHead ihArgs =>
    rintro ⟨-, -, hhead, hargs⟩ h locals hlocals
    have hvalue : ∀ {a : Arg Node}, a ∈ args → a.value.WellFormed :=
      fun ha => (Node.wellFormed_arg hargs ha).2.2
    -- the errors of the parts are errors of the call
    have hpart : ∀ {h' locals' n}, Part c h locals (.call head args p) h' locals' n →
        Locals.WellFormed locals' →
          Ends (Expected h c locals (.call head args p)) Sound (eval h' c locals' n) := by
      intro h' locals' n hpart hlocals'
      have hn : Ends (Expected h' c locals' n) Sound (eval h' c locals' n) := by
        rcases hpart.mem with rfl | ⟨a, ha, rfl⟩
        · exact ihHead hhead h' locals' hlocals'
        · exact ihArgs a ha (hvalue ha) h' locals' hlocals'
      exact hn.mono fun e => Expected.part hpart
    rw [eval_call]
    cases hrule : Rule.of head args with
    | quotation operand =>
      obtain ⟨a, ha, rfl⟩ := Rule.mem_of_quotation hrule
      exact .ok ⟨.node (hvalue ha), hlocals⟩
    | group operand => exact hpart (.group hrule) hlocals
    | block =>
      have hnull : Value.null.WellFormed := .atom .null
      have hblock := evalBlock_ends hnull (wellFormed_block hlocals)
        fun h' locals' n hseq => hpart (.block hrule hseq)
      cases locals with
      | some frame => exact hblock
      | none => exact hblock.map fun r hr => ⟨hr.value, wellFormed_none⟩
    | assignment target value =>
      obtain ⟨a, ha, rfl⟩ := Rule.mem_of_assignment hrule
      cases locals with
      | none => exact .error (.inl rfl)
      | some frame =>
        -- the target is looked at before the value is evaluated
        have htarget := (targetName_ends (hvalue ha)).mono
          (s := Expected h c (some frame) (.call head args p)) fun e he => ?_
        · refine htarget.bind fun name hname _ => ?_
          refine (hpart (.assignment hrule hname) hlocals).bind ?_
          rintro ⟨v, locals'⟩ - ⟨hv, hlocals'⟩
          exact .ok ⟨hv, wellFormed_put hlocals' hv name⟩
        · rcases he with he | ⟨rfl, q, heq⟩
          · exact .inl he
          · rw [heq] at hrule
            exact .inr ⟨_, _, _, .here, .emptyName hrule⟩
    | conditional test yes no =>
      refine (hpart (.test hrule) hlocals).bind ?_
      rintro ⟨v, locals'⟩ hv ⟨-, hlocals'⟩
      dsimp only
      cases hcondition : v.condition with
      | error problem => exact .error (.inl rfl)
      | ok truth =>
        cases truth with
        | true => exact hpart (.yes hrule hv hcondition) hlocals'
        | false =>
          cases no with
          | some no => exact hpart (.no hrule hv hcondition) hlocals'
          | none => exact .ok ⟨.atom .null, hlocals'⟩
    | refusal e => exact .error (.inl (Rule.isOwn_of_refusal hrule))
    | application =>
      refine (hpart (.head hrule) hlocals).bind ?_
      rintro ⟨f, locals₁⟩ hf ⟨hfunction, hlocals₁⟩
      -- what is no function is shown in a message, if it can be
      have hother : Expected h c locals (.call head args p)
          (f.shown?.elim .unwritable .notAFunction) := by
        rw [Value.shown?]
        cases hwritable : f.isWritable with
        | true => exact .inl rfl
        | false => exact .inr ⟨_, _, _, .here, .unwritable hrule hf hwritable⟩
      cases f with
      | function f =>
        have hvalues := evalArgs_ends hlocals₁
          fun h' locals' n hseq => hpart (.argument hrule hf hseq)
        refine hvalues.bind ?_
        rintro ⟨values, locals₂⟩ - ⟨hvalues, hlocals₂⟩
        have happlied := (applyFunction_ends hfunction h (head.name?.getD "function") hvalues).mono
          fun e he => (Or.inl he : Expected h c locals (.call head args p) e)
        refine happlied.bind fun v _ hv => .ok ⟨hv, hlocals₂⟩
      | _ => exact .error hother

end Evaluation

/-- A well-formed tree is evaluated to a well-formed value, or it has one of the errors that are
expected. -/
theorem Node.evaluate_ends {n : Node} {c : Context} (h : Host) (hn : n.WellFormed)
    (hc : c.WellFormed) :
    Ends (Evaluation.Expected h c none n) Value.WellFormed (n.evaluate h c) :=
  (Evaluation.eval_ends hc n hn h none Evaluation.wellFormed_none).map fun _ hr => hr.value

end RCode
