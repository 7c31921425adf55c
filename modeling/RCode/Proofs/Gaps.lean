import RCode.Proofs.Node.ParsedTrees
import RCode.Proofs.Node.Widening
import RCode.Proofs.Token.GapInsertion

/-!
# Gaps between tokens

A gap may be put in before any token and at the end of the text: blanks, and a comment where the line
or the text ends. The tokens stay the same, and so do the trees, but for positions
(`Source.program_gap`).
-/

set_option autoImplicit false

namespace RCode

open RCode.Parser (lexemes widened_of_lexemes)

namespace TokenText

/-- A text comes apart in one way only before the token that starts at a place, or at its end. -/
theorem Scans.split_unique {pre post : List Char} {ts : List Token} {stop : Position}
    (h : Scans .start false (pre ++ post) ts stop)
    (hplace : .behind pre ∈ ts.map Token.position ++ [stop]) :
    ∃ before after, before ++ after = ts ∧ ∀ pre' post', pre' ++ post' = pre ++ post →
      (∀ t ∈ after.head?, t.position = Position.start.after pre') → (after = [] → post' = []) →
        pre' = pre ∧ post' = post := by
  rw [← Position.after_start] at hplace
  rcases List.mem_append.mp hplace with hmem | hmem
  · obtain ⟨t, ht, hposition⟩ := List.mem_map.mp hmem
    obtain ⟨before, after, hsplit⟩ := List.append_of_mem ht
    refine ⟨before, t :: after, hsplit.symm, ?_⟩
    intro pre' post' htext hfirst _
    exact Position.after_inj htext ((hfirst t rfl).symm.trans hposition)
  · refine ⟨ts, [], List.append_nil _, ?_⟩
    intro pre' post' htext _ hend
    have hstop := h.stop_eq
    rw [← List.mem_singleton.mp hmem, ← htext] at hstop
    obtain rfl := hend rfl
    exact Position.after_inj htext ((congrArg _ (List.append_nil pre')).symm.trans hstop.symm)

/-- The tokens of a text with a gap at a place where a token starts, or at its end. -/
theorem ofText_gap {pre post gap : String} {t : TokenText} (ht : ofText (pre ++ post) = .ok t)
    (hplace : .behind pre.toList ∈ t.tokens.map Token.position ++ [t.stop])
    (hgap : Gap false gap.toList post.toList) :
    ∃ t', ofText (pre ++ gap ++ post) = .ok t' ∧ lexemes t'.tokens = lexemes t.tokens := by
  have hscans := scans_of_scan ht
  rw [String.toList_append] at hscans
  obtain ⟨before, after, htokens, hunique⟩ := hscans.split_unique hplace
  rw [← htokens] at hscans
  obtain ⟨pre', post', htext, hfirst, hend, hinsert⟩ := hscans.insert_gap
  obtain ⟨rfl, rfl⟩ := hunique pre' post' htext hfirst hend
  obtain ⟨us, stop, hus, heq⟩ := hinsert gap.toList hgap .start
  refine ⟨⟨us, stop⟩, ?_, ?_⟩
  · rw [ofText, String.toList_append, String.toList_append]
    exact hus.scan_eq
  · rw [← htokens]
    exact heq

end TokenText

namespace Source

/-- Texts whose tokens are the same are read as the same programs, but for positions. -/
theorem program_of_lexemes (s s' : Source) {t t' : TokenText}
    (ht : TokenText.ofText s.text = .ok t) (ht' : TokenText.ofText s'.text = .ok t')
    (h : lexemes t'.tokens = lexemes t.tokens) {ns : List Node} (hns : s.program = .ok ns) :
    ∃ ms, s'.program = .ok ms ∧ ms.map Node.erase = ns.map Node.erase := by
  obtain ⟨u, hu, hprogram⟩ := program_eq_ok_iff.mp hns
  obtain rfl : t = u := Except.ok.inj (ht.symm.trans hu)
  have hreads := Parser.program_eq_ok_iff.mp hprogram
  have hwidened : Parser.Widened False [] t.tokens t'.tokens := widened_of_lexemes [] h
  obtain ⟨ms, hms, herase⟩ := hreads.widened hwidened
  exact ⟨ms, program_eq_ok_iff.mpr ⟨t', ht', Parser.program_eq_ok_iff.mpr hms⟩, herase⟩

/-- Layout between tokens does not count. A gap at a place where a token starts, or at the end of the
text, leaves the tokens as they are but for their positions: any blanks, and a comment if the end of
the line or of the text follows. So the text with the gap is a program exactly if the text without it
is one, and the trees are the same but for their positions. -/
theorem program_gap {pre post gap name : String} {t : TokenText}
    (ht : TokenText.ofText (pre ++ post) = .ok t)
    (hplace : .behind pre.toList ∈ t.tokens.map Token.position ++ [t.stop])
    (hgap : Gap false gap.toList post.toList) :
    (∃ t', TokenText.ofText (pre ++ gap ++ post) = .ok t' ∧
        lexemes t'.tokens = lexemes t.tokens) ∧
      ∀ trees : List Node,
        (∃ ms, (Source.mk (pre ++ gap ++ post) name).program = .ok ms ∧
            ms.map Node.erase = trees) ↔
          ∃ ns, (Source.mk (pre ++ post) name).program = .ok ns ∧ ns.map Node.erase = trees := by
  obtain ⟨t', ht', heq⟩ := TokenText.ofText_gap ht hplace hgap
  refine ⟨⟨t', ht', heq⟩, ?_⟩
  intro trees
  constructor
  · rintro ⟨ms, hms, rfl⟩
    exact program_of_lexemes ⟨pre ++ gap ++ post, name⟩ ⟨pre ++ post, name⟩ ht' ht heq.symm hms
  · rintro ⟨ns, hns, rfl⟩
    exact program_of_lexemes ⟨pre ++ post, name⟩ ⟨pre ++ gap ++ post, name⟩ ht ht' heq hns

set_option maxRecDepth 4096 in
/-- A blank and a comment at the end of a line, directly before the token of the line break. -/
theorem program_gap_comment :
    (∃ t, TokenText.ofText ("x<-a" ++ " # b" ++ "\ny") = .ok t ∧
        lexemes t.tokens =
          [.symbol "x", .operator "<-", .symbol "a", .newline, .symbol "y"]) ∧
      ∃ ms, (Source.mk ("x<-a" ++ " # b" ++ "\ny") "<input>").program = .ok ms ∧
        ms.map Node.erase =
          [.call (.symbol "<-" .nowhere) [⟨none, .symbol "x" .nowhere⟩,
            ⟨none, .symbol "a" .nowhere⟩] .nowhere, .symbol "y" .nowhere] := by
  have hns : (Source.mk ("x<-a" ++ "\ny") "<input>").program =
      .ok [.call (.symbol "<-" ⟨1, 2⟩) [⟨none, .symbol "x" ⟨1, 1⟩⟩, ⟨none, .symbol "a" ⟨1, 4⟩⟩]
        ⟨1, 1⟩, .symbol "y" ⟨2, 1⟩] := by cbv
  have ht : TokenText.ofText ("x<-a" ++ "\ny") =
      .ok ⟨[⟨.symbol "x", ⟨1, 1⟩⟩, ⟨.operator "<-", ⟨1, 2⟩⟩, ⟨.symbol "a", ⟨1, 4⟩⟩,
        ⟨.newline, ⟨1, 5⟩⟩, ⟨.symbol "y", ⟨2, 1⟩⟩], ⟨2, 2⟩⟩ := by cbv
  have hplace : Position.behind "x<-a".toList ∈
      [(⟨1, 1⟩ : Position), ⟨1, 2⟩, ⟨1, 4⟩, ⟨1, 5⟩, ⟨2, 1⟩] ++ [⟨2, 2⟩] := by decide
  have hgap : Gap false " # b".toList "\ny".toList := by
    have hcomment : Gap false ('#' :: [' ', 'b'] ++ []) ['\n', 'y'] :=
      .comment (by decide) (by decide) (.nil _)
    exact .blank rfl hcomment
  obtain ⟨htokens, hprograms⟩ := program_gap ht hplace hgap
  exact ⟨htokens, (hprograms _).mpr ⟨_, hns, rfl⟩⟩

end Source

end RCode
