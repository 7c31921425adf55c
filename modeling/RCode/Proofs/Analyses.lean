import RCode.Proofs.Node.ParsedTrees
import RCode.Proofs.Scope.Nameless
import RCode.Proofs.Token.Tiling

/-!
# Analyses of programs

What the analyses say of the trees of a text, and which of them can fail. Counting nodes, looking
for symbols and collecting assigned names are walks that go through every tree. The search for
global names builds a symbol of the target of an assignment, and a text can hold a target that makes
none.
-/

set_option autoImplicit false

namespace RCode.Source

variable {s : Source} {ns : List Node}

/-- The search for the global names of a text fails exactly if it comes to an assignment to the
empty text, and it never fails for a text without empty texts. For every tree of a text the analyses
of single trees have their results: the number of its nodes, the symbols with some names in the
order of its nodes, whether there is such a symbol, and the names that the calls in it assign to. -/
theorem program_analysed (h : s.program = .ok ns) (withFunctions : Bool) :
    (∀ e, Node.globals ns withFunctions = .error e ↔
      e = .emptySymbol ∧
        ∃ program, Scope.Visits withFunctions (.trees ns) program ∧ Scope.Nameless program) ∧
      ((∀ n ∈ ns, ∀ p, .constant (.text "") p ∉ n.preorder) →
        ∃ names, Node.globals ns withFunctions = .ok names) ∧
      ∀ n ∈ ns,
        n.count = n.preorder.length ∧
        (∀ names, n.symbolsNamed names = n.preorder.filter (Node.isSymbolOf names)) ∧
        (∀ names, n.uses names = true ↔ ∃ k ∈ n.preorder, k.isSymbolOf names = true) ∧
        ∀ name, name ∈ n.assigned ↔ ∃ k ∈ n.preorder, k.Assigns name := by
  refine ⟨fun e => Node.globals_eq_error_iff, fun hempty => ?_, fun n _ => ?_⟩
  · cases hglobals : Node.globals ns withFunctions with
    | ok names => exact ⟨names, rfl⟩
    | error e =>
      obtain ⟨n, hn, _, hk, p, rfl⟩ :=
        Node.exists_emptyText_of_globals (program_wellFormed h) hglobals
      exact absurd hk (hempty n hn p)
  · refine ⟨n.length_preorder.symm, fun names => n.symbolsNamed_eq names,
      fun names => n.uses_iff names, fun name => ?_⟩
    rw [Node.assigned, mem_sortedNames, Node.mem_assignedNames_iff]

/-- The definition of a function that uses a deprecated name. -/
theorem program_analysed_function :
    ∃ n, (Source.mk "f <- function(x) g(T)" "<input>").program = .ok [n] ∧
      (∃ names, Node.globals [n] true = .ok names) ∧ n.count = n.preorder.length ∧
        n.uses ["T", "F"] = true ∧ "f" ∈ n.assigned := by
  have h : (Source.mk "f <- function(x) g(T)" "<input>").program =
      .ok [.call (.symbol "<-" ⟨1, 3⟩) [⟨none, .symbol "f" ⟨1, 1⟩⟩,
        ⟨none, .call (.symbol "function" ⟨1, 6⟩) [⟨none, .params [⟨"x", .missing⟩] ⟨1, 14⟩⟩,
          ⟨none, .call (.symbol "g" ⟨1, 18⟩) [⟨none, .symbol "T" ⟨1, 20⟩⟩] ⟨1, 18⟩⟩] ⟨1, 6⟩⟩]
        ⟨1, 1⟩] := by cbv
  obtain ⟨-, hglobals, htrees⟩ := program_analysed h true
  obtain ⟨hcount, -, huses, hassigned⟩ := htrees _ List.mem_cons_self
  refine ⟨_, h, hglobals ?_, hcount, (huses ["T", "F"]).mpr ⟨.symbol "T" ⟨1, 20⟩, ?_, rfl⟩,
    (hassigned "f").mpr ⟨_, List.mem_cons_self, rfl⟩⟩
  · refine List.forall_mem_singleton.mpr fun p => ?_
    simp [Node.preorder, Node.preorderArgs, Node.preorderParams]
  · simp [Node.preorder, Node.preorderArgs, Node.preorderParams]

/-- The text `"" <- x` can be parsed, and the search for its global names fails. -/
theorem program_emptyTarget :
    ∃ ns, (Source.mk "\"\" <- x" "<input>").program = .ok ns ∧
      ∀ withFunctions, Node.globals ns withFunctions = .error .emptySymbol := by
  have htext : readLexeme '"' ['"', ' ', '<', '-', ' ', 'x'] =
      .ok (.text "", [' ', '<', '-', ' ', 'x']) := by cbv
  have hrest : TokenText.scan ⟨1, 3⟩ false [' ', '<', '-', ' ', 'x'] =
      .ok ⟨[⟨.operator "<-", ⟨1, 4⟩⟩, ⟨.symbol "x", ⟨1, 7⟩⟩], ⟨1, 8⟩⟩ := by cbv
  have hscans : TokenText.Scans .start false "\"\" <- x".toList
      [⟨.text "", ⟨1, 1⟩⟩, ⟨.operator "<-", ⟨1, 4⟩⟩, ⟨.symbol "x", ⟨1, 7⟩⟩] ⟨1, 8⟩ :=
    .lexeme (by decide) (by decide) (by decide) htext (TokenText.scans_of_scan hrest)
  have h : (Source.mk "\"\" <- x" "<input>").program =
      .ok [.call (.symbol "<-" ⟨1, 4⟩) [⟨none, .constant (.text "") ⟨1, 1⟩⟩,
        ⟨none, .symbol "x" ⟨1, 7⟩⟩] ⟨1, 1⟩] := by
    rw [program, tokens, TokenText.ofText, hscans.scan_eq]
    cbv
  exact ⟨_, h, fun withFunctions => rfl⟩

end RCode.Source
