import RCode.Proofs.Node.GrammarSpacing
import RCode.Proofs.Node.ParsedTrees
import RCode.Proofs.Node.Rereading

/-!
# Rendering and reading back

The text of a program of writable trees is read back as the program itself, up to the brackets and
the minus signs that `Node.Rereads` allows (`reads_rendered`). The text of a program is the spelling
of a spaced layout, so it splits into the lexemes that were laid out; these are the tokens that the
parser reads back.
-/

set_option autoImplicit false

namespace RCode

/-! ## The text of a program -/

namespace Layout

theorem spelling_lines (indent : List Char) (ls : List Layout) :
    String.ofList (spelling indent (lines ls)) =
      "\n".intercalate (ls.map fun l => String.ofList (spelling indent l)) := by
  induction ls with
  | nil => rfl
  | cons l ls ih =>
    cases ls with
    | nil => rw [lines, List.map_singleton, String.intercalate_singleton]
    | cons l' ls =>
      have hbreak : String.ofList (Piece.spelling indent (.lineBreak 0)) = "\n" := rfl
      rw [lines_cons, if_neg (List.cons_ne_nil _ _), spelling_append, spelling_cons,
        String.ofList_append, String.ofList_append, hbreak, ih, List.map_cons (l := l' :: ls),
        String.intercalate_cons_of_ne_nil (by simp), String.append_assoc]

/-- Rows with line breaks between them are spaced. -/
theorem spaced_lines {ls : List Layout} (h : ∀ l ∈ ls, Solid l) {before : Option Piece}
    (hbefore : ∀ q ∈ before, q.AdmitsOperand) : (lines ls).Spaced before := by
  induction ls generalizing before with
  | nil => trivial
  | cons l ls ih =>
    obtain ⟨hl, hls⟩ := List.forall_mem_cons.mp h
    obtain ⟨hspaced, hend⟩ := hl before hbefore
    rw [lines_cons]
    refine spaced_append.mpr ⟨hspaced, ?_⟩
    split
    · trivial
    · exact ⟨hend.beside_lineBreak 0, trivial, ih hls (admits_lineBreak 0)⟩

end Layout

namespace Grammar

/-- A program starts with no separator. -/
theorem skipSeparators_lines {rows : List (Row Node)}
    (h : ∀ r ∈ rows, Spells .statement r.1 (.node r.2)) :
    Parser.skipSeparators (Layout.lines (rows.map Prod.fst)).tokens =
      (Layout.lines (rows.map Prod.fst)).tokens := by
  cases rows with
  | nil => rfl
  | cons r rows =>
    obtain ⟨hr, -⟩ := List.forall_mem_cons.mp h
    rw [List.map_cons, Layout.lines_cons, Layout.tokens_append]
    obtain ⟨-, -, -, hskip⟩ := hr.statement_starts _
    exact hskip

end Grammar

namespace Node

theorem renderProgram_eq (nodes : List Node) :
    renderProgram nodes =
      String.ofList ((programLayout nodes).spelling Printer.standardIndent.toList) := by
  rw [programLayout, Layout.spelling_lines, List.map_map]
  rfl

/-- The text of a program splits into the lexemes that were laid out. -/
theorem tokens_rendered {nodes : List Node} (h : ∀ n ∈ nodes, n.WellFormed ∧ n.Writable) :
    ∃ t, TokenText.ofText (renderProgram nodes) = .ok t ∧
      Parser.lexemes (Parser.skipSeparators t.tokens) =
        Parser.lexemes (programLayout nodes).tokens := by
  obtain ⟨rows, hlayout, hspells, -⟩ :=
    Printer.exists_statement_rows fun n hn => Printer.renders (h n hn).1 (h n hn).2
  have hlines : Layout.lines (rows.map Prod.fst) = programLayout nodes := by
    rw [hlayout]
    rfl
  have hspaced : (programLayout nodes).Spaced none := by
    rw [← hlines]
    refine Layout.spaced_lines (List.forall_mem_map.mpr fun r hr => (hspells r hr).solid) ?_
    exact fun q hq => (Option.not_mem_none q hq).elim
  have hindent : ∀ c ∈ Printer.standardIndent.toList, isBlank c = true :=
    List.all_eq_true.mp (by decide)
  have hbreak : false = true → ∃ depth, none = some (Piece.lineBreak depth) := nofun
  obtain ⟨t, ht, htokens⟩ := TokenText.scan_spaced hindent hspaced hbreak .start
  refine ⟨t, ?_, ?_⟩
  · rw [TokenText.ofText, renderProgram_eq, String.toList_ofList]
    exact ht
  · have hskip := Parser.lexemes_skipSeparators htokens
    rw [← hlines, Grammar.skipSeparators_lines hspells] at hskip
    rw [hskip, hlines]

/-- The text of a program is read back as a program that is laid out the same. -/
theorem exists_program_rendered {nodes : List Node} (h : ∀ n ∈ nodes, n.WellFormed ∧ n.Writable)
    (name : String) :
    ∃ again, (Source.mk (renderProgram nodes) name).program = .ok again ∧
      List.Forall₂ Rereads nodes again ∧ again.map layout = nodes.map layout := by
  obtain ⟨t, ht, htokens⟩ := tokens_rendered h
  obtain ⟨again, hagain, hreads, hlayouts⟩ := exists_reread_program h htokens
  exact ⟨again, Source.program_eq_ok_iff.mpr ⟨t, ht, hagain⟩, hreads, hlayouts⟩

/-- The text of a program of writable trees is read back as the program, tree by tree, except that
numbers below zero and function definitions may come back in brackets and numbers below zero come
back as calls of `-`. A program without them comes back as it is. -/
theorem reads_rendered (nodes : List Node) (h : ∀ n ∈ nodes, n.WellFormed ∧ n.Writable)
    (name : String) :
    ∃ again, (Source.mk (renderProgram nodes) name).program = .ok again ∧
      List.Forall₂ Rereads nodes again ∧
      ((∀ n ∈ nodes, n.IsUnguarded) → sameProgram nodes again = true) := by
  obtain ⟨again, hagain, hreads, -⟩ := exists_program_rendered h name
  exact ⟨again, hagain, hreads, sameProgram_of_unguarded hreads⟩

/-- The negation of a number below zero, which is read back in brackets. -/
theorem reads_rendered_negation :
    (∀ n ∈ [Node.call (.symbol "-" .nowhere)
        [⟨none, .constant (.integer (-2)) .nowhere⟩] .nowhere], n.WellFormed ∧ n.Writable) ∧
      ∃ again, (Source.mk (renderProgram [Node.call (.symbol "-" .nowhere)
          [⟨none, .constant (.integer (-2)) .nowhere⟩] .nowhere]) "<input>").program = .ok again ∧
        List.Forall₂ Rereads [Node.call (.symbol "-" .nowhere)
          [⟨none, .constant (.integer (-2)) .nowhere⟩] .nowhere] again := by
  have h : ∀ n ∈ [Node.call (.symbol "-" .nowhere)
      [⟨none, .constant (.integer (-2)) .nowhere⟩] .nowhere], n.WellFormed ∧ n.Writable := by
    refine List.forall_mem_singleton.mpr ⟨⟨rfl, rfl, (by decide : "-" ≠ ""), nofun, rfl, rfl,
      trivial⟩, ?_⟩
    refine .call _ (.symbol _ _) (List.forall_mem_singleton.mpr (.constant _ _)) ?_
    rintro name p left right - hargs
    cases hargs
  obtain ⟨again, hagain, hreads, -⟩ := reads_rendered _ h "<input>"
  exact ⟨h, again, hagain, hreads⟩

end Node

end RCode
