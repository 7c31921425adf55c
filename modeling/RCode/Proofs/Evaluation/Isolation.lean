import RCode.Proofs.Evaluation.MemoryRun
import RCode.Proofs.Node.Traversal

/-!
# Evaluation and its context

All that a tree takes from its context is what the context binds its symbols to, and nothing that
evaluation does can be seen in the context (`Node.evaluate_isolated`). The functions of the caller may
be any that are honest.
-/

set_option autoImplicit false

namespace RCode

namespace Evaluation

variable {c₁ c₂ : Context}

theorem evalArgs_congr {args : List (Arg Node)}
    (ih : ∀ a ∈ args, ∀ h locals, eval h c₁ locals a.value = eval h c₂ locals a.value) :
    ∀ hs locals, evalArgs hs c₁ locals args = evalArgs hs c₂ locals args := by
  induction args with
  | nil => exact fun _ _ => rfl
  | cons a rest tail =>
    intro hs locals
    obtain ⟨iha, ihrest⟩ := List.forall_mem_cons.mp ih
    simp only [evalArgs, iha, tail ihrest]

theorem evalBlock_congr {args : List (Arg Node)}
    (ih : ∀ a ∈ args, ∀ h locals, eval h c₁ locals a.value = eval h c₂ locals a.value) :
    ∀ hs locals last, evalBlock hs c₁ locals last args = evalBlock hs c₂ locals last args := by
  induction args with
  | nil => exact fun _ _ _ => rfl
  | cons a rest tail =>
    intro hs locals last
    obtain ⟨iha, ihrest⟩ := List.forall_mem_cons.mp ih
    simp only [evalBlock, iha, tail ihrest]

/-- Contexts that bind the symbols of a tree alike give it the same value, the same error and the
same private frame, whatever that frame was before. -/
theorem eval_congr (n : Node) :
    (∀ name ∈ n.symbolNames, c₁.lookup? name = c₂.lookup? name) →
      ∀ h locals, eval h c₁ locals n = eval h c₂ locals n := by
  induction n using Node.ind with
  | constant a p => exact fun _ _ _ => rfl
  | symbol name p =>
    intro hnames h locals
    have hname : c₁.lookup? name = c₂.lookup? name := hnames name (List.mem_singleton.mpr rfl)
    simp only [eval, lookup?_scope, hname]
  | missing => exact fun _ _ _ => rfl
  | params items p => exact fun _ _ _ => rfl
  | call head args p ihHead ihArgs =>
    intro hnames h locals
    have hhead : ∀ h locals, eval h c₁ locals head = eval h c₂ locals head :=
      ihHead fun name hname => hnames name (List.mem_append_left _ hname)
    have hargs : ∀ a ∈ args, ∀ h locals, eval h c₁ locals a.value = eval h c₂ locals a.value := by
      intro a ha
      refine ihArgs a ha fun name hname => hnames name ?_
      exact List.mem_append_right _ (Node.mem_symbolNamesArgs ha hname)
    have operand : ∀ n ∈ (Rule.of head args).operands, ∀ h locals,
        eval h c₁ locals n = eval h c₂ locals n := by
      intro n hn
      obtain ⟨a, ha, rfl⟩ := Rule.operands_subset hn
      exact hargs a ha
    rw [eval_call, eval_call]
    cases hrule : Rule.of head args with
    | quotation | refusal => rfl
    | group n => exact operand n (by simp [hrule, Rule.operands]) _ locals
    | block => simp only [evalBlock_congr hargs]
    | assignment target value =>
      have hvalue := operand value (by simp [hrule, Rule.operands])
      simp only [hvalue]
    | conditional test yes no =>
      have htest := operand test (by simp [hrule, Rule.operands])
      have hyes := operand yes (by simp [hrule, Rule.operands])
      cases no with
      | none => simp only [htest, hyes]
      | some no =>
        have hno := operand no (by simp [hrule, Rule.operands])
        simp only [htest, hyes, hno]
    | application => simp only [hhead, evalArgs_congr hargs]

end Evaluation

namespace Machine

/-- Evaluation for a caller whose context lies in a memory gives the value of the tree in that
context, or its error, and keeps every frame of the memory. -/
theorem outcome_run (n : Node) {callbacks : Callbacks} {h : Host} (hhonest : callbacks.Honest h)
    {m : Memory} {k : Chain} (hk : ∀ a ∈ k.addresses, a < m.frames.length) :
    (outcome (run callbacks h k none n) m).1 = n.evaluate h (m.context k) ∧
      m.Keeps m.frames.length (outcome (run callbacks h k none n) m).2 := by
  have hs : Situated (m.context k) k m.frames.length m k none none :=
    ⟨hk, Nat.le_refl _, rfl, .inl ⟨rfl, rfl, rfl⟩⟩
  obtain ⟨hkeeps, hr⟩ := run_refines n hhonest hs
  refine ⟨?_, hkeeps⟩
  unfold Node.evaluate
  cases hn : Evaluation.eval h (m.context k) none n with
  | error e =>
    rw [hn] at hr
    exact hr
  | ok r =>
    rw [hn] at hr
    exact hr.1

end Machine

namespace Node

/-- Evaluation only reads its context, and only under the names of the symbols of the tree. Contexts
that bind these names alike give the same value or the same error. Where the frames of a context are
cells of a memory, written in place, evaluation gives that same result; whether it succeeds or fails,
each frame that was there before is as it was, and all the cells written on the way are new. The
functions that the caller has bound may be any that give what the host says and write no frame of
others. -/
theorem evaluate_isolated (n : Node) (h : Host) (c₁ c₂ : Context)
    (hnames : ∀ name ∈ n.symbolNames, c₁.lookup? name = c₂.lookup? name) :
    n.evaluate h c₁ = n.evaluate h c₂ ∧
      ∀ (callbacks : Callbacks) (m : Memory) (k : Chain), callbacks.Honest h →
        (∀ a ∈ k.addresses, a < m.frames.length) → (m.context k = c₁ ∨ m.context k = c₂) →
          (Machine.outcome (Machine.run callbacks h k none n) m).1 = n.evaluate h c₁ ∧
            m.Keeps m.frames.length (Machine.outcome (Machine.run callbacks h k none n) m).2 := by
  have heq : n.evaluate h c₁ = n.evaluate h c₂ := by
    unfold evaluate
    rw [Evaluation.eval_congr n hnames h none]
  refine ⟨heq, fun callbacks m k hhonest hk hc => ?_⟩
  obtain ⟨hresult, hkeeps⟩ := Machine.outcome_run n hhonest hk
  refine ⟨?_, hkeeps⟩
  rcases hc with rfl | rfl
  · exact hresult
  · rw [hresult, heq]

/-- A block that assigns the value of a function of the caller to `x`, which the caller binds too,
and then fails because it calls `x`. The function writes a frame that it makes. -/
theorem evaluate_isolated_block :
    let call (name : String) (args : List Node) : Node :=
      .call (.symbol name .nowhere) (args.map (⟨none, ·⟩)) .nowhere
    let n := call "\x7b" [
      call "<-" [.symbol "x" .nowhere, call "f" [.symbol "y" .nowhere]], call "x" []]
    let h : Host :=
      { Host.plain 100 with call := fun _ _ positional _ => .ok (positional.headD .null) }
    let callbacks : Callbacks := fun _ _ positional _ m =>
      (.ok (positional.headD .null),
        m.extended.assigned m.frames.length "seen" (positional.headD .null))
    let f : Entry Value := ⟨"f", .function (.foreign ⟨0, "function", "<function f>"⟩)⟩
    let m : Memory := { frames := [[⟨"y", .null⟩], [⟨"x", .integer 5⟩, f]] }
    let c : Context := ⟨[⟨"z", .null⟩, ⟨"y", .null⟩], [[f, ⟨"x", .integer 5⟩, ⟨"y", .integer 2⟩]]⟩
    (∀ name ∈ n.symbolNames, (m.context ⟨1, [0]⟩).lookup? name = c.lookup? name) ∧
      callbacks.Honest h ∧
      n.evaluate h (m.context ⟨1, [0]⟩) = n.evaluate h c ∧
      n.evaluate h c = .error (.notAFunction "None") ∧
      (Machine.outcome (Machine.run callbacks h ⟨1, [0]⟩ none n) m).1 =
        n.evaluate h (m.context ⟨1, [0]⟩) ∧
      m.Keeps 2 (Machine.outcome (Machine.run callbacks h ⟨1, [0]⟩ none n) m).2 ∧
      (Machine.outcome (Machine.run callbacks h ⟨1, [0]⟩ none n) m).2.written = [3, 2] := by
  intro call n h callbacks f m c
  have hnames : ∀ name ∈ n.symbolNames, (m.context ⟨1, [0]⟩).lookup? name = c.lookup? name := by
    have : n.symbolNames = ["\x7b", "<-", "x", "f", "y", "x"] := rfl
    rw [this]
    simp only [List.forall_mem_cons]
    exact ⟨rfl, rfl, rfl, rfl, rfl, rfl, nofun⟩
  have hhonest : callbacks.Honest h := by
    refine ⟨fun _ _ _ _ _ => rfl, fun _ _ positional _ m => ?_⟩
    exact (Memory.keeps_extended _ m).trans (Memory.keeps_assigned (Nat.le_refl _) _ _ _)
  obtain ⟨heq, hmemory⟩ := evaluate_isolated n h (m.context ⟨1, [0]⟩) c hnames
  obtain ⟨hresult, hkeeps⟩ := hmemory callbacks m ⟨1, [0]⟩ hhonest (by decide) (.inl rfl)
  exact ⟨hnames, hhonest, heq, rfl, hresult, hkeeps, rfl⟩

end Node

end RCode
