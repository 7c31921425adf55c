import RCode.Proofs.Failure
import RCode.Proofs.Node.HalfBrackets
import RCode.Proofs.Node.ParsedTrees
import RCode.Proofs.Token.Insertion
import RCode.Proofs.Token.Tiling

/-!
# Line breaks in brackets

Inside of round and square brackets a line break before a token changes no tree but its positions, with
one exception (`Source.program_lineBreak`). Between the two closing brackets of a `[[` that does not
stand in brackets itself the expression ends at the line break, and then the text is no program
(`Source.program_lineBreak_halfDouble`).
-/

set_option autoImplicit false

namespace RCode

namespace Parser.Bracket

/-- The innermost open bracket is a round or square one. A `[[` is open up to the second one of its
closing brackets. -/
def Inside (stack : List Bracket) : Prop :=
  ∃ bracket ∈ stack.head?, bracket ≠ .brace

theorem Inside.region_or_halfOpen {stack : List Bracket} (h : Inside stack) :
    region stack = .bracket ∨ HalfOpen stack := by
  obtain ⟨bracket, hhead, hbrace⟩ := h
  cases stack with
  | nil => cases hhead
  | cons first outer =>
    obtain rfl : first = bracket := Option.some.inj hhead
    cases first with
    | brace => exact absurd rfl hbrace
    | round | square | double => exact .inl rfl
    | halfDouble =>
      by_cases hregion : region (.halfDouble :: outer) = .bracket
      · exact .inl hregion
      · exact .inr ⟨rfl, hregion⟩

end Parser.Bracket

namespace TokenText.Separated

open RCode.Parser (Bracket Passes Widened widened_of_lexemes)

/-- A line break in between brackets is one that may be put in. -/
theorem widened {afterBreak : Bool} {before after us : List Token} {stack : List Bracket}
    (h : Separated afterBreak before after us)
    (hregion : Bracket.region (Bracket.afterAll stack before) = .bracket) :
    Widened True stack (before ++ after) us := by
  induction h generalizing stack with
  | merged _ hus => exact widened_of_lexemes stack hus
  | lineBreak p hus => exact .lineBreak p trivial hregion (widened_of_lexemes stack hus)
  | cons hu _ _ ih => exact .cons hu (ih hregion)

/-- Between the closing brackets of a `[[` outside of brackets none is put in: neither the tokens
without it nor those with it would be a program. -/
theorem not_halfOpen {afterBreak : Bool} {before after us : List Token}
    {stack stack₁ stack₂ : List Bracket} (h : Separated afterBreak before after us)
    (hbreak : afterBreak = true → ¬ Bracket.HalfOpen stack)
    (hwithout : Passes stack (before ++ after) stack₁ []) (hwith : Passes stack us stack₂ []) :
    ¬ Bracket.HalfOpen (Bracket.afterAll stack before) := by
  induction h generalizing stack with
  | @merged afterBreak after us hnext _ =>
    rcases hnext with hafter | ⟨t, ht, hnewline⟩
    · exact hbreak hafter
    · -- the line break that follows is a token of the program without the one put in
      cases after with
      | nil => cases ht
      | cons first rest =>
        obtain rfl : first = t := Option.some.inj ht
        cases hwithout with
        | step hfirst _ => exact hfirst hnewline
  | lineBreak p _ =>
    cases hwith with
    | step hfirst _ => exact hfirst rfl
  | @cons _ _ t u _ _ _ hu hnewline _ ih =>
    cases hwithout with
    | step hfirst hwithout =>
      cases hwith with
      | step _ hwith =>
        rw [hu] at hwith
        -- a line break opens and closes no bracket
        refine @ih (Bracket.after stack t.lexeme) (fun hafter => ?_) hwithout hwith
        rw [hnewline hafter]
        exact hfirst (hnewline hafter)

end TokenText.Separated

namespace Source

/-- The tokens of a text with a line break before one of them. -/
theorem tokens_lineBreak {pre post : String} {t : TokenText} {before after : List Token} {tok : Token}
    (ht : TokenText.ofText (pre ++ post) = .ok t) (htokens : t.tokens = before ++ tok :: after)
    (hposition : tok.position = .behind pre.toList) :
    ∃ us stop, TokenText.ofText (pre ++ "\n" ++ post) = .ok ⟨us, stop⟩ ∧
      TokenText.Separated false before (tok :: after) us := by
  have hscans := TokenText.scans_of_scan ht
  rw [htokens, String.toList_append] at hscans
  obtain ⟨pre', post', htext, hplace, us, stop, hus, hseparated⟩ := hscans.insert_break .start
  -- the token is found at the place where the text is taken apart
  have hplaces : Position.start.after pre' = Position.start.after pre.toList := by
    rw [← hplace, hposition, Position.after_start]
  obtain ⟨rfl, rfl⟩ := Position.after_inj htext hplaces
  have hinserted : (pre ++ "\n" ++ post).toList = pre.toList ++ '\n' :: post.toList := by
    rw [String.toList_append, String.toList_append, List.append_assoc]
    rfl
  refine ⟨us, stop, ?_, hseparated⟩
  rw [TokenText.ofText, hinserted]
  exact hus.scan_eq

/-- A text that is read as a program is read as the same program, up to positions, with a line break
before a token inside of round or square brackets; except between the closing brackets of a `[[` that
itself stands outside of them, where a line break is never allowed. -/
theorem program_lineBreak {pre post name : String} {ns : List Node} {t : TokenText}
    {before after : List Token} {tok : Token}
    (hns : (Source.mk (pre ++ post) name).program = .ok ns)
    (ht : TokenText.ofText (pre ++ post) = .ok t) (htokens : t.tokens = before ++ tok :: after)
    (hposition : tok.position = .behind pre.toList)
    (hinside : Parser.Bracket.Inside (Parser.Bracket.afterAll [] before)) :
    (∃ ms, (Source.mk (pre ++ "\n" ++ post) name).program = .ok ms ∧
        ms.map Node.erase = ns.map Node.erase) ↔
      Parser.Bracket.region (Parser.Bracket.afterAll [] before) = .bracket := by
  obtain ⟨t', ht', hprogram⟩ := program_eq_ok_iff.mp hns
  obtain rfl : t = t' := Except.ok.inj (ht.symm.trans ht')
  rw [htokens] at hprogram
  have hreads := Parser.program_eq_ok_iff.mp hprogram
  obtain ⟨us, stop, hus, hseparated⟩ := tokens_lineBreak ht htokens hposition
  constructor
  · rintro ⟨ms, hms, -⟩
    obtain ⟨t', ht', hms⟩ := program_eq_ok_iff.mp hms
    obtain rfl : ⟨us, stop⟩ = t' := Except.ok.inj (hus.symm.trans ht')
    have hpasses := (Parser.program_eq_ok_iff.mp hms).passes
    -- in a `[[` that is half closed, one of the two token lists would not be a program
    exact hinside.region_or_halfOpen.resolve_right
      (hseparated.not_halfOpen nofun hreads.passes hpasses)
  · intro hregion
    obtain ⟨ms, hms, herase⟩ := hreads.widened (hseparated.widened hregion)
    exact ⟨ms, program_eq_ok_iff.mpr ⟨⟨us, stop⟩, hus, Parser.program_eq_ok_iff.mpr hms⟩, herase⟩

set_option maxRecDepth 4096 in
/-- In a list of arguments a `[[` may be closed on two lines. -/
theorem program_lineBreak_arguments :
    ∃ ms, (Source.mk ("f(x[[y]" ++ "\n" ++ "])") "<input>").program = .ok ms ∧
      ms.map Node.erase =
        [.call (.symbol "f" .nowhere) [⟨none, .call (.symbol "[[" .nowhere)
          [⟨none, .symbol "x" .nowhere⟩, ⟨none, .symbol "y" .nowhere⟩] .nowhere⟩] .nowhere] := by
  have hns : (Source.mk ("f(x[[y]" ++ "])") "<input>").program =
      .ok [.call (.symbol "f" ⟨1, 1⟩) [⟨none, .call (.symbol "[[" ⟨1, 4⟩)
        [⟨none, .symbol "x" ⟨1, 3⟩⟩, ⟨none, .symbol "y" ⟨1, 6⟩⟩] ⟨1, 3⟩⟩] ⟨1, 1⟩] := by cbv
  have ht : TokenText.ofText ("f(x[[y]" ++ "])") =
      .ok ⟨[⟨.symbol "f", ⟨1, 1⟩⟩, ⟨.leftParen, ⟨1, 2⟩⟩, ⟨.symbol "x", ⟨1, 3⟩⟩,
        ⟨.leftDouble, ⟨1, 4⟩⟩, ⟨.symbol "y", ⟨1, 6⟩⟩, ⟨.rightBracket, ⟨1, 7⟩⟩] ++
        ⟨.rightBracket, ⟨1, 8⟩⟩ :: [⟨.rightParen, ⟨1, 9⟩⟩], ⟨1, 10⟩⟩ := by cbv
  obtain ⟨ms, hms, herase⟩ :=
    (program_lineBreak hns ht rfl (by decide) ⟨.halfDouble, rfl, by decide⟩).mpr rfl
  refine ⟨ms, hms, ?_⟩
  rw [herase]
  rfl

set_option maxRecDepth 4096 in
/-- At the top level the closing brackets of a `[[` have to stand on one line: behind the first one
the `[[` is still open, but a line break there ends the expression. -/
theorem program_lineBreak_halfDouble :
    (Source.mk "x[[y]]" "<input>").program =
      .ok [.call (.symbol "[[" ⟨1, 2⟩) [⟨none, .symbol "x" ⟨1, 1⟩⟩, ⟨none, .symbol "y" ⟨1, 4⟩⟩]
        ⟨1, 1⟩] ∧
    TokenText.ofText "x[[y]]" =
      .ok ⟨[⟨.symbol "x", ⟨1, 1⟩⟩, ⟨.leftDouble, ⟨1, 2⟩⟩, ⟨.symbol "y", ⟨1, 4⟩⟩,
        ⟨.rightBracket, ⟨1, 5⟩⟩, ⟨.rightBracket, ⟨1, 6⟩⟩], ⟨1, 7⟩⟩ ∧
    Parser.Bracket.afterAll [] [⟨.symbol "x", ⟨1, 1⟩⟩, ⟨.leftDouble, ⟨1, 2⟩⟩, ⟨.symbol "y", ⟨1, 4⟩⟩,
      ⟨.rightBracket, ⟨1, 5⟩⟩] = [.halfDouble] ∧
    (Source.mk ("x[[y]" ++ "\n" ++ "]") "<input>").program =
      .error (.malformed (.expected "RBRACKET" (some .newline)) ⟨1, 6⟩) := by
  refine ⟨by cbv, by cbv, by decide, by cbv⟩

end Source

end RCode
