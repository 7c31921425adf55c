import RCode.Proofs.Failure
import RCode.Proofs.Node.Continuation
import RCode.Proofs.Node.ParsedTrees
import RCode.Proofs.Node.ProgramReading

/-!
# Programs one below the other

Two texts with a line break in between are read as the program of the first and the program of the
second one, which stands below it (`Source.program_below`).
-/

set_option autoImplicit false

namespace RCode

namespace Parser

variable {f : Position → Position} {tail : Tokens}

/-- Separators at the start of a program mean nothing. -/
theorem program_congr {ts us : Tokens} (h : skipSeparators ts = skipSeparators us) :
    program ts = program us := by
  rw [program, program]
  split
  · next hts =>
    split
    · rfl
    · next hus => rw [← h, hts] at hus; cases hus
  · next t rest hts =>
    split
    · next hus => rw [← h, hts] at hus; cases hus
    · next hus =>
      rw [← h, hts] at hus
      cases hus
      rfl

/-- Tokens that are separators only leave what comes after them. -/
theorem Carried.skipSeparators_tail {ts us : Tokens} (h : Carried f tail ts us)
    (hnil : Parser.skipSeparators ts = []) :
    Parser.skipSeparators us = Parser.skipSeparators tail := by
  induction h with
  | nil => rfl
  | lineBreak p _ => rfl
  | @cons ts us t h ih =>
    obtain ⟨l, p⟩ := t
    cases l with
    | newline => exact ih hnil
    | semicolon => exact ih hnil
    | _ => cases hnil

/-- The program of tokens before a line break and more tokens. -/
theorem program_carried (htail : ∀ t ∈ tail.head?, t.lexeme = .newline) {ts us : Tokens}
    {ns ms : List Node} (hus : Carried f tail ts us) (hns : program ts = .ok ns)
    (hms : program tail = .ok ms) : program us = .ok (ns.map (Node.move f) ++ ms) := by
  replace hns := program_eq_ok_iff.mp hns
  induction hns generalizing us with
  | nil hnil =>
    rw [program_congr (hus.skipSeparators_tail hnil), hms]
    rfl
  | cons hfirst hexpression hends _ ih =>
    -- the first expression is read as before, and ends before the line break at the latest
    obtain ⟨us₁, hskip', hus₁⟩ := hus.skipSeparators_cons hfirst
    obtain ⟨r', hreads, hr'⟩ := hexpression.carried htail trivial (absurd rfl) (.cons _ hus₁)
    obtain ⟨hfewer, hexpression'⟩ := hreads.succeeds
    exact program_of_expression hskip' hexpression' (hr'.endsExpression htail hends) (ih hr')

end Parser

namespace TokenText

/-- The tokens of two texts with a line break in between, unless they start with the second text. -/
theorem Joined.carried {more ts us : List Token} {afterBreak : Bool}
    (h : Joined more afterBreak ts us) :
    (afterBreak = true ∧ ts = [] ∧ us = more) ∨
      ∃ p, Parser.Carried id (⟨.newline, p⟩ :: more) ts us := by
  induction h with
  | merged => exact .inl ⟨rfl, rfl, rfl⟩
  | separated p => exact .inr ⟨p, .nil⟩
  | cons t hbreak _ ih =>
    right
    rcases ih with ⟨htrue, rfl, rfl⟩ | ⟨p, hcarried⟩
    · obtain ⟨l, p⟩ := t
      obtain rfl : l = .newline := hbreak htrue
      exact ⟨p, .lineBreak p (List.cons_ne_nil _ _)⟩
    · exact ⟨p, .cons t hcarried⟩

/-- Tokens at other positions, with nothing after them. -/
theorem carried_map (f : Position → Position) (ts : List Token) :
    Parser.Carried f [] ts (ts.map (Token.move f)) := by
  induction ts with
  | nil => exact .nil
  | cons t ts ih => exact .cons t ih

/-- The position below a text: the start, as many lines lower as the text has lines. -/
theorem next_after_start (cs : List Char) :
    (Position.start.after cs).next '\n' = Position.start.down (1 + cs.count '\n') := by
  have hline : (Position.start.after cs).line.toInt + 1 =
      Position.start.line.toInt + (1 + cs.count '\n' : Nat) := by
    rw [Position.line_after]
    omega
  rw [Position.next, if_pos rfl]
  exact congrArg (fun n => (⟨.number n, 1⟩ : Position)) hline

/-- The tokens of two texts with a line break in between are those of the first one, a line break and
those of the second one, which stand lower by the lines of the first one. Only line breaks at the
start of the second one may be missing. -/
theorem Scans.stacked {cs ds : List Char} {ts₁ ts₂ : List Token} {stop₁ stop₂ : Position}
    (h₁ : Scans .start false cs ts₁ stop₁) (h₂ : Scans .start false ds ts₂ stop₂) :
    ∃ us stop p more, Scans .start false (cs ++ '\n' :: ds) us stop ∧
      Parser.Carried id (⟨.newline, p⟩ :: more) ts₁ us ∧
      Parser.skipSeparators more =
        Parser.skipSeparators (ts₂.map (Token.move (.down (1 + cs.count '\n')))) := by
  have hdown := h₂.down (1 + cs.count '\n')
  rw [← next_after_start, ← h₁.stop_eq] at hdown
  obtain ⟨more, hmore, hbreak⟩ := hdown.after_break
  obtain ⟨us, hus, hjoined⟩ := h₁.joined hmore
  have hskip : Parser.skipSeparators more =
      Parser.skipSeparators (ts₂.map (Token.move (.down (1 + cs.count '\n')))) := by
    rcases hbreak with heq | ⟨q, heq⟩
    · rw [heq]
    · rw [heq]
      rfl
  -- at the start of the text no line break has come before
  rcases hjoined.carried with ⟨hfalse, -, -⟩ | ⟨p, hcarried⟩
  · cases hfalse
  · exact ⟨us, _, p, more, hus, hcarried, hskip⟩

end TokenText

namespace Source

/-- The program of two texts with a line break in between is the program of the first one and that of
the second one. The trees of the first one stand where they stood, and those of the second one lower
by the lines of the first one. -/
theorem program_below {text₁ text₂ name : String} {ns₁ ns₂ : List Node}
    (h₁ : (Source.mk text₁ name).program = .ok ns₁)
    (h₂ : (Source.mk text₂ name).program = .ok ns₂) :
    (Source.mk (text₁ ++ "\n" ++ text₂) name).program =
      .ok (ns₁ ++ ns₂.map (Node.move (.down (1 + text₁.toList.count '\n')))) := by
  obtain ⟨t₁, ht₁, hns₁⟩ := program_eq_ok_iff.mp h₁
  obtain ⟨t₂, ht₂, hns₂⟩ := program_eq_ok_iff.mp h₂
  obtain ⟨us, stop, p, more, hscan, hcarried, hskip⟩ :=
    (TokenText.scans_of_scan ht₁).stacked (TokenText.scans_of_scan ht₂)
  -- the second text is read as the same program lower down, with and without a line break before it
  have hmoved := TokenText.carried_map (.down (1 + text₁.toList.count '\n')) t₂.tokens
  have hlower := Parser.program_carried (by intro t ht; cases ht) hmoved hns₂
    (Parser.program_of_nil rfl)
  rw [List.append_nil] at hlower
  have htail : Parser.program (⟨.newline, p⟩ :: more) =
      .ok (ns₂.map (Node.move (.down (1 + text₁.toList.count '\n')))) := by
    rw [← hlower]
    exact Parser.program_congr hskip
  -- and the first text keeps its trees in front of that program
  have hprogram := Parser.program_carried (by rintro t ⟨⟩; rfl) hcarried hns₁ htail
  rw [Node.map_move_id] at hprogram
  have htext : (text₁ ++ "\n" ++ text₂).toList = text₁.toList ++ '\n' :: text₂.toList := by
    rw [String.toList_append, String.toList_append, List.append_assoc]
    rfl
  refine program_eq_ok_iff.mpr ⟨⟨us, stop⟩, ?_, hprogram⟩
  rw [TokenText.ofText, htext]
  exact hscan.scan_eq

set_option maxRecDepth 4096 in
/-- A group below a name is not a list of arguments. -/
theorem program_below_group :
    (Source.mk "if (a)\n  b # then" "<input>").program =
      .ok [.call (.symbol "if" ⟨1, 1⟩) [⟨none, .symbol "a" ⟨1, 5⟩⟩, ⟨none, .symbol "b" ⟨2, 3⟩⟩]
        ⟨1, 1⟩] ∧
    (Source.mk "(c)" "<input>").program =
      .ok [.call (.symbol "(" ⟨1, 1⟩) [⟨none, .symbol "c" ⟨1, 2⟩⟩] ⟨1, 1⟩] ∧
    (Source.mk ("if (a)\n  b # then" ++ "\n" ++ "(c)") "<input>").program =
      .ok [.call (.symbol "if" ⟨1, 1⟩) [⟨none, .symbol "a" ⟨1, 5⟩⟩, ⟨none, .symbol "b" ⟨2, 3⟩⟩]
        ⟨1, 1⟩, .call (.symbol "(" ⟨3, 1⟩) [⟨none, .symbol "c" ⟨3, 2⟩⟩] ⟨3, 1⟩] := by
  have h₁ : (Source.mk "if (a)\n  b # then" "<input>").program =
      .ok [.call (.symbol "if" ⟨1, 1⟩) [⟨none, .symbol "a" ⟨1, 5⟩⟩, ⟨none, .symbol "b" ⟨2, 3⟩⟩]
        ⟨1, 1⟩] := by cbv
  have h₂ : (Source.mk "(c)" "<input>").program =
      .ok [.call (.symbol "(" ⟨1, 1⟩) [⟨none, .symbol "c" ⟨1, 2⟩⟩] ⟨1, 1⟩] := by cbv
  have hlines : "if (a)\n  b # then".toList.count '\n' = 1 := by decide
  have hprogram := program_below h₁ h₂
  rw [hlines] at hprogram
  exact ⟨h₁, h₂, hprogram⟩

end Source

end RCode
