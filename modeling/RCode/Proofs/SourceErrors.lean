import RCode.Proofs.Node.Faults
import RCode.Proofs.Token.Faults
import RCode.Proofs.Token.Insertion
import RCode.Proofs.Token.Tiling
import RCode.Proofs.Token.WellFormed
import RCode.Source

/-!
# Errors of source texts

A text that is read as no program is reported with a place in it or at its end
(`Source.program_reported`). There are three other errors: two of numbers out of range, and the one of
an argument that is named by an empty text, which has no place although nothing in the text is out of
range (`Source.program_emptyName`).
-/

set_option autoImplicit false

namespace RCode

namespace Parser

/-- Among the tokens there is an empty text for the name of an argument: behind an opening bracket or
a comma, and before `=`. -/
def NamedByEmptyText (us : Tokens) : Prop :=
  ∃ opener ts p rest q after, opener :: ts <:+ us ∧ startsArgument opener.lexeme = true ∧
    skipBreaks ts = ⟨.text "", p⟩ :: rest ∧ skipBreaks rest = ⟨.operator "=", q⟩ :: after

/-- No symbol has an empty name, so that only a text can be one. -/
theorem NamesArgument.text {us : Tokens} (h : NamesArgument "" us) (hus : WellFormedTokens us) :
    NamedByEmptyText us := by
  obtain ⟨opener, ts, ⟨l, p⟩, rest, after, hts, hopener, hv, hname⟩ := h
  obtain ⟨hl, q, hq⟩ := afterName?_eq_some.mp hname
  have hmem := ((suffix_of_visible hv).trans (rest_suffix hts)).mem List.mem_cons_self
  rcases hl with hl | hl
  · have := hus _ hmem
    rw [hl] at this
    exact absurd rfl this
  · obtain rfl : l = .text "" := hl
    exact ⟨opener, ts, p, rest, q, after, hts, hopener, hv, hq⟩

end Parser

/-- Every token stands behind a part of its text. -/
theorem TokenText.position_of_mem {text : String} {t : TokenText} (h : ofText text = .ok t)
    {u : Token} (hu : u ∈ t.tokens) :
    ∃ pre post, pre ++ post = text.toList ∧ u.position = .behind pre := by
  have hscans := scans_of_scan h
  obtain ⟨before, after, hsplit⟩ := List.append_of_mem hu
  rw [hsplit] at hscans
  obtain ⟨pre, post, htext, hposition, -⟩ := hscans.insert_break .start
  exact ⟨pre, post, htext, hposition.trans (Position.after_start pre)⟩

namespace SourceError

/-- The error is reported at a place in the text or at its end. -/
inductive IsReport (cs : List Char) : SourceError → Prop where
  | lexical {problem : LexicalProblem} {pre post : List Char} :
      pre ++ post = cs → problem.isReported = true → IsReport cs (.lexical problem (.behind pre))
  | malformed {problem : SyntaxProblem} {pre post : List Char} :
      pre ++ post = cs → IsReport cs (.malformed problem (.behind pre))

/-- The error is about a number out of range that stands in the text. -/
def IsOutOfRange (cs : List Char) (e : SourceError) : Prop :=
  ∃ problem pre post, e = .lexical problem (.behind pre) ∧ pre ++ post = cs ∧
    problem.IsOutOfRange post

end SourceError

namespace Source

/-- What keeps a text from being split is reported, or a number out of range. -/
theorem tokens_faults (s : Source) :
    FailsOnly (fun e => e.IsReport s.text.toList ∨ e.IsOutOfRange s.text.toList) s.tokens := by
  intro e he
  unfold tokens at he
  cases hscan : TokenText.ofText s.text with
  | ok t => rw [hscan] at he; cases he
  | error fault =>
    rw [hscan] at he
    cases he
    obtain ⟨problem, p⟩ := fault
    obtain ⟨pre, post, htext, hplace, hrange⟩ := TokenText.scan_faults .start false _ _ hscan
    obtain rfl : p = .behind pre := hplace.trans (Position.after_start pre)
    rcases hrange with hreported | hrange
    · exact .inl (.lexical htext hreported)
    · exact .inr ⟨problem, pre, post, rfl, htext, hrange⟩

/-- What keeps tokens from being a program is reported at one of them or at the end of the text, or
it is an argument that is named by an empty text. -/
theorem programOf_faults {text : String} {t : TokenText} (ht : TokenText.ofText text = .ok t) :
    FailsOnly (fun e => e.IsReport text.toList ∨
      e = .emptyArgumentName ∧ Parser.NamedByEmptyText t.tokens) (programOf t) := by
  intro e he
  unfold programOf at he
  cases hprogram : Parser.program t.tokens with
  | ok ns => rw [hprogram] at he; cases he
  | error fault =>
    rw [hprogram] at he
    cases he
    cases Parser.program_faults (List.suffix_refl _) fault hprogram with
    | atToken hu =>
      obtain ⟨pre, post, htext, hposition⟩ := TokenText.position_of_mem ht hu
      refine .inl ?_
      rw [faultError, Option.getD_some, hposition]
      exact .malformed htext
    | atEnd =>
      have hstop : t.stop = .behind text.toList :=
        (TokenText.scans_of_scan ht).stop_eq.trans (Position.after_start _)
      refine .inl ?_
      rw [faultError, Option.getD_none, hstop]
      exact .malformed (List.append_nil _)
    | emptyName hname => exact .inr ⟨rfl, hname.text (TokenText.wellFormed ht)⟩

/-- A text is read as a program, or its error is reported at a place of the text; unless a number in
it is out of range or one of its arguments is named by an empty text. -/
theorem program_reported (s : Source) :
    (∃ ns, s.program = .ok ns) ∨ ∃ e, s.program = .error e ∧
      (e.IsReport s.text.toList ∨ e.IsOutOfRange s.text.toList ∨
        e = .emptyArgumentName ∧
          ∃ t, TokenText.ofText s.text = .ok t ∧ Parser.NamedByEmptyText t.tokens) := by
  have hfaults : FailsOnly (fun e => e.IsReport s.text.toList ∨ e.IsOutOfRange s.text.toList ∨
      e = .emptyArgumentName ∧
        ∃ t, TokenText.ofText s.text = .ok t ∧ Parser.NamedByEmptyText t.tokens) s.program := by
    refine .bind (f := programOf) (s.tokens_faults.mono fun e he => ?_) fun t ht => ?_
    · rcases he with he | he
      · exact .inl he
      · exact .inr (.inl he)
    · have ht := mapError_eq_ok_iff.mp ht
      refine (programOf_faults ht).mono fun e he => ?_
      rcases he with he | ⟨he, hname⟩
      · exact .inl he
      · exact .inr (.inr ⟨he, t, ht, hname⟩)
  cases hprogram : s.program with
  | ok ns => exact .inl ⟨ns, rfl⟩
  | error e => exact .inr ⟨e, rfl, hfaults e hprogram⟩

set_option maxRecDepth 4096 in
/-- The error of an empty name has no place, although the text holds no escape and no number. -/
theorem program_emptyName :
    (Source.mk "f(\"\" = y)" "<input>").program = .error .emptyArgumentName ∧
      ¬ SourceError.IsReport "f(\"\" = y)".toList .emptyArgumentName ∧
      '\\' ∉ "f(\"\" = y)".toList ∧ '0' ∉ "f(\"\" = y)".toList := by
  refine ⟨?_, nofun, by decide, by decide⟩
  -- a quoted text is read by a recursion that has to be evaluated on its own
  have hname : readLexeme 'f' ['(', '"', '"', ' ', '=', ' ', 'y', ')'] =
      .ok (.symbol "f", ['(', '"', '"', ' ', '=', ' ', 'y', ')']) := by cbv
  have htext : readLexeme '"' ['"', ' ', '=', ' ', 'y', ')'] =
      .ok (.text "", [' ', '=', ' ', 'y', ')']) := by cbv
  have hrest : TokenText.scan ⟨1, 5⟩ false [' ', '=', ' ', 'y', ')'] =
      .ok ⟨[⟨.operator "=", ⟨1, 6⟩⟩, ⟨.symbol "y", ⟨1, 8⟩⟩, ⟨.rightParen, ⟨1, 9⟩⟩], ⟨1, 10⟩⟩ := by cbv
  have hscans : TokenText.Scans .start false "f(\"\" = y)".toList [⟨.symbol "f", ⟨1, 1⟩⟩,
      ⟨.leftParen, ⟨1, 2⟩⟩, ⟨.text "", ⟨1, 3⟩⟩, ⟨.operator "=", ⟨1, 6⟩⟩, ⟨.symbol "y", ⟨1, 8⟩⟩,
      ⟨.rightParen, ⟨1, 9⟩⟩] ⟨1, 10⟩ :=
    .lexeme (by decide) (by decide) (by decide) hname
      (.lexeme (by decide) (by decide) (by decide) rfl
        (.lexeme (by decide) (by decide) (by decide) htext (TokenText.scans_of_scan hrest)))
  rw [program, tokens, TokenText.ofText, hscans.scan_eq]
  cbv

end Source

end RCode
