import RCode.Proofs.Node.GrammarReading
import RCode.Proofs.Node.ParserDerivation
import RCode.Proofs.Node.Widening

/-!
# Reading programs

A program is a row of statements with line breaks between them. Where each of them is a spelling of a
tree, the parser reads these trees, up to the positions that the tokens have.
-/

set_option autoImplicit false

namespace RCode

namespace Layout

/-- Rows with line breaks between them. -/
def lines : List Layout → Layout
  | [] => []
  | [l] => l
  | l :: rest => l ++ .lineBreak 0 :: lines rest

theorem lines_cons (l : Layout) (rest : List Layout) :
    lines (l :: rest) = l ++ if rest = [] then [] else .lineBreak 0 :: lines rest := by
  cases rest with
  | nil => exact (List.append_nil l).symm
  | cons => rfl

end Layout

namespace Grammar

open RCode.Parser

/-- What follows a statement at the top level is not drawn into it. -/
theorem follows_top {power : Nat} {isOpen : Bool} {rest : Tokens}
    (h : endsExpression rest = true) : Follows .top power isOpen rest := by
  cases rest with
  | nil => exact ⟨fun t ht => (Option.not_mem_none t ht).elim, fun _ => rfl⟩
  | cons t rest =>
    obtain ⟨x, p⟩ := t
    cases x with
    | newline | semicolon =>
      refine ⟨?_, fun _ => rfl⟩
      rintro t ⟨⟩
      exact Nat.zero_le _
    | _ => cases h

/-- A statement of the top level is read up to its end. -/
theorem Spells.reads_top {l : Layout} {m : Node} (h : Spells .statement l (.node m))
    {rest : Tokens} (hends : endsExpression rest = true) :
    Reads (.expression .top 0) (l.tokens ++ rest) (.node m) rest := by
  cases h with
  | statement h =>
    refine h.meaning.reads_up_to zero_lt_postfixPower h.whole_or_pos (follows_top hends) ?_
    intro t ht
    cases rest with
    | nil => cases ht
    | cons u rest =>
      obtain ⟨x, p⟩ := u
      cases ht
      cases x with
      | newline | semicolon => exact Nat.le_refl 0
      | _ => cases hends

/-- A statement starts with a token that is no separator. -/
theorem Spells.statement_starts {l : Layout} {m : Node} (h : Spells .statement l (.node m))
    (rest : Tokens) : ∃ t ts, l.tokens ++ rest = t :: ts ∧
      skipSeparators (l.tokens ++ rest) = l.tokens ++ rest := by
  cases h with
  | statement h =>
    obtain ⟨x, ts, hl, hx⟩ := h.starts rfl
    refine ⟨⟨x, .nowhere⟩, ts ++ rest, by rw [hl]; rfl, ?_⟩
    rw [hl, List.cons_append]
    cases x with
    | newline | semicolon => cases hx
    | _ => rfl

/-- The parser reads the trees that the rows of a program spell. -/
theorem program_of_rows {rows : List (Row Node)}
    (h : ∀ r ∈ rows, Spells .statement r.1 (.node r.2)) {us : Tokens}
    (hus : lexemes (skipSeparators us) =
      lexemes (Layout.lines (rows.map Prod.fst)).tokens) :
    ∃ ns, program us = .ok ns ∧ ns.map Node.erase = rows.map fun r => r.2.erase := by
  induction rows generalizing us with
  | nil =>
    cases hskip : skipSeparators us with
    | nil => exact ⟨[], program_of_nil hskip, rfl⟩
    | cons t ts => rw [hskip] at hus; cases hus
  | cons r rows ih =>
    obtain ⟨l, m⟩ := r
    obtain ⟨hm, hrows⟩ := List.forall_mem_cons.mp h
    -- the tokens after the first statement, which start with a line break if there are any
    have htail : ∃ rest, (Layout.lines (l :: rows.map Prod.fst)).tokens = l.tokens ++ rest ∧
        endsExpression rest = true ∧
        skipSeparators rest = (Layout.lines (rows.map Prod.fst)).tokens := by
      rw [Layout.lines_cons, Layout.tokens_append]
      cases rows with
      | nil => exact ⟨[], rfl, rfl, rfl⟩
      | cons r' rows =>
        refine ⟨_, rfl, rfl, ?_⟩
        have hnext := (List.forall_mem_cons.mp hrows).1
        rw [List.map_cons, Layout.lines_cons, if_neg (List.cons_ne_nil _ _), Layout.tokens_lineBreak,
          Layout.tokens_append]
        obtain ⟨_, _, -, hskip⟩ := hnext.statement_starts
          (Layout.tokens (if rows.map Prod.fst = [] then [] else
            .lineBreak 0 :: Layout.lines (rows.map Prod.fst)))
        exact hskip
    obtain ⟨rest, htokens, hends, hskip⟩ := htail
    rw [List.map_cons, htokens] at hus
    obtain ⟨n', us₁, hreads, hn', hus₁⟩ := (hm.reads_top hends).congr .expression hus
    obtain ⟨n, rfl, hn⟩ := Phrase.eq_node_of_erase hn'
    obtain ⟨t, ts, hstart, -⟩ := hm.statement_starts rest
    rw [hstart] at hus
    obtain ⟨t', us₀, hfirst, -, -⟩ := exists_of_lexemes hus
    rw [hfirst] at hreads
    obtain ⟨hlt, hexpression⟩ := hreads.succeeds
    have hskip₁ : lexemes (skipSeparators us₁) =
        lexemes (Layout.lines (rows.map Prod.fst)).tokens := by
      rw [lexemes_skipSeparators hus₁, hskip]
    obtain ⟨ns, hns, herase⟩ := ih hrows hskip₁
    refine ⟨n :: ns, program_of_expression hfirst hexpression ?_ hns, ?_⟩
    · rw [endsExpression_of_lexemes hus₁, hends]
    · rw [List.map_cons, List.map_cons, hn, herase]

end Grammar

end RCode
