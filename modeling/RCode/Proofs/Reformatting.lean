import RCode.Proofs.Node.ParsedTrees
import RCode.Proofs.Node.RoundTrip
import RCode.Workbench

/-!
# Reformatting

A text that was rendered is rendered as itself when it is read back, and so a text that was
reformatted once is not changed by reformatting it again (`Workbench.reformat_rendered`).
-/

set_option autoImplicit false

namespace RCode

namespace Node

/-- The text of a program depends on the layouts of its trees only. -/
theorem renderProgram_of_layouts {ns ms : List Node} (h : ms.map layout = ns.map layout) :
    renderProgram ms = renderProgram ns := by
  rw [renderProgram_eq, renderProgram_eq, programLayout, h]
  rfl

/-- The text of a program of writable trees is read back as a program with the same text. -/
theorem program_rendered_map {nodes : List Node} (h : ∀ n ∈ nodes, n.WellFormed ∧ n.Writable)
    (name : String) :
    (Source.mk (renderProgram nodes) name).program.map renderProgram =
      .ok (renderProgram nodes) := by
  obtain ⟨again, hagain, -, hlayouts⟩ := exists_program_rendered h name
  rw [hagain]
  exact congrArg Except.ok (renderProgram_of_layouts hlayouts)

end Node

namespace Workbench

namespace Task

variable {α β ε : Type}

/-- A task goes on with what its first step gives, and stops where that step fails. -/
theorem perform_bind (task : Task α) (f : α → Task β) (s : Settings) (j : Journal) :
    perform (task >>= f) s j =
      match perform task s j with
      | (.ok a, k) => perform (f a) s k
      | (.error e, k) => (.error e, k) := by
  unfold perform
  simp only [ReaderT.run_bind, ExceptT.run_bind, StateT.run_bind, Id.run_bind]
  rcases ((ReaderT.run task s).run.run j).run with ⟨r, k⟩
  cases r with
  | ok a => rfl
  | error e => rfl

theorem perform_pure (a : α) (s : Settings) (j : Journal) : perform (pure a) s j = (.ok a, j) := rfl

theorem perform_ofExcept (error : ε → TaskError) (x : Except ε α) (s : Settings) (j : Journal) :
    perform (ofExcept error x) s j = (x.mapError error, j) := by
  cases x with
  | ok a => rfl
  | error e => rfl

theorem perform_log (message : String) (s : Settings) (j : Journal) :
    ∃ k, perform (log message) s j = (.ok (), k) := by
  unfold log write
  rw [perform_bind]
  have : perform read s j = (.ok s, j) := rfl
  rw [this]
  dsimp only
  split
  · exact ⟨_, rfl⟩
  · exact ⟨_, rfl⟩
end Task

theorem perform_nameOr_none (s : Settings) (j : Journal) :
    Task.perform (nameOr none) s j = (.ok s.sourceName, j) := rfl

/-- The trees of a text, under the name that the settings give it. -/
theorem perform_parse (text : String) (s : Settings) (j : Journal) :
    (Task.perform (parse text none) s j).1 =
      (Source.mk text s.sourceName).program.mapError (.source s.sourceName) := by
  unfold parse
  obtain ⟨k, hk⟩ := Task.perform_log ("Lexing " ++ s.sourceName ++ "...") s j
  simp only [Task.perform_bind, perform_nameOr_none, hk, Task.perform_ofExcept]
  rw [Source.program]
  cases Source.tokens ⟨text, s.sourceName⟩ with
  | error e => rfl
  | ok t =>
    obtain ⟨k', hk'⟩ := Task.perform_log ("  " ++ toString (t.tokens.length + 1) ++ " tokens") s k
    have hprogram : (Except.ok t).bind Source.programOf = Source.programOf t := rfl
    simp only [Except.mapError, hk', hprogram]
    cases Source.programOf t with
    | error e => rfl
    | ok nodes =>
      obtain ⟨k'', hk''⟩ :=
        Task.perform_log ("  " ++ toString nodes.length ++ " expression(s)") s k'
      simp only [hk'', Task.perform_pure]

/-- Reformatting gives the text of the program, if there is one. -/
theorem perform_reformat (text : String) (s : Settings) (j : Journal) :
    (Task.perform (reformat text) s j).1 =
      ((Source.mk text s.sourceName).program.map Node.renderProgram).mapError
        (.source s.sourceName) := by
  have hparse := perform_parse text s j
  unfold reformat
  rw [Task.perform_bind]
  rcases hresult : Task.perform (parse text none) s j with ⟨r, k⟩
  rw [hresult] at hparse
  obtain rfl : r = _ := hparse
  cases Source.program ⟨text, s.sourceName⟩ with
  | ok nodes => rfl
  | error e => rfl

/-- Reformatting a text whose trees are writable succeeds, and doing it again changes nothing. -/
theorem reformat_twice {text : String} {s : Settings} {nodes : List Node}
    (hprogram : (Source.mk text s.sourceName).program = .ok nodes)
    (h : ∀ n ∈ nodes, n.Writable) (j : Journal) (s' : Settings) (j' : Journal) :
    ∃ out, (Task.perform (reformat text) s j).1 = .ok out ∧
      (Task.perform (reformat out) s' j').1 = .ok out := by
  have hwell := Source.program_wellFormed hprogram
  refine ⟨Node.renderProgram nodes, ?_, ?_⟩
  · rw [perform_reformat, hprogram]
    rfl
  · rw [perform_reformat,
      Node.program_rendered_map (fun n hn => ⟨hwell n hn, h n hn⟩) s'.sourceName]
    rfl

/-- Formatting is idempotent: the text of a program of writable trees is read back as a program with
the same text, and a text whose trees are writable is reformatted to one that reformatting leaves as
it is. -/
theorem reformat_rendered :
    (∀ nodes : List Node, (∀ n ∈ nodes, n.WellFormed ∧ n.Writable) → ∀ name,
      (Source.mk (Node.renderProgram nodes) name).program.map Node.renderProgram =
        .ok (Node.renderProgram nodes)) ∧
    ∀ (text : String) (s : Settings) (nodes : List Node),
      (Source.mk text s.sourceName).program = .ok nodes → (∀ n ∈ nodes, n.Writable) →
      ∀ (j : Journal) (s' : Settings) (j' : Journal),
        ∃ out, (Task.perform (reformat text) s j).1 = .ok out ∧
          (Task.perform (reformat out) s' j').1 = .ok out :=
  ⟨fun _ h name => Node.program_rendered_map h name,
    fun _ _ _ hprogram h j s' j' => reformat_twice hprogram h j s' j'⟩

/-- A function that gives a number below zero, and the text `x`. -/
theorem reformat_rendered_definition :
    let s : Settings := { host := .plain 0 }
    (Source.mk (Node.renderProgram [.call (.symbol "function" .nowhere)
        [⟨none, .params [⟨"x", .missing⟩] .nowhere⟩, ⟨none, .constant (.integer (-1)) .nowhere⟩]
        .nowhere]) "<input>").program.map Node.renderProgram =
      .ok (Node.renderProgram [.call (.symbol "function" .nowhere)
        [⟨none, .params [⟨"x", .missing⟩] .nowhere⟩, ⟨none, .constant (.integer (-1)) .nowhere⟩]
        .nowhere]) ∧
    ∃ out, (Task.perform (reformat (Node.renderProgram [.symbol "x" .nowhere])) s {}).1 = .ok out ∧
      (Task.perform (reformat out) s {}).1 = .ok out := by
  intro s
  refine ⟨reformat_rendered.1 _ (List.forall_mem_singleton.mpr ⟨?_, ?_⟩) "<input>", ?_⟩
  · exact ⟨rfl, rfl, (by decide : "function" ≠ ""), nofun, rfl,
      ⟨by decide, (by decide : "x" ≠ ""), trivial, trivial⟩, nofun, rfl, rfl, trivial⟩
  · exact .definition _ _ _
      (List.forall_mem_singleton.mpr fun hmissing => Bool.noConfusion hmissing) (.constant _ _)
  · have hx : ∀ n ∈ [Node.symbol "x" .nowhere], n.WellFormed ∧ n.Writable :=
      List.forall_mem_singleton.mpr ⟨(by decide : "x" ≠ ""), .symbol _ _⟩
    obtain ⟨again, hagain, hreads, -⟩ := Node.exists_program_rendered hx "<input>"
    refine reformat_rendered.2 _ s again hagain ?_ {} s {}
    cases hreads with
    | cons hn hrest =>
      cases hrest
      cases hn with
      | plain hcomes =>
        cases hcomes
        exact List.forall_mem_singleton.mpr (.symbol _ _)
      | inParens hwhy _ => exact absurd (Node.inParens_cases hwhy).1 nofun

end Workbench

end RCode
