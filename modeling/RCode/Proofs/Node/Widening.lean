import RCode.Proofs.Node.Brackets

/-!
# Line breaks in brackets mean nothing

From tokens with further line breaks in brackets the parser reads the same trees, up to positions
(`Reads.widened`). The induction follows the open brackets: each goal starts between certain brackets
and ends between others (`Goal.Spans`). Without further line breaks this says that reading does not
depend on positions (`Reads.congr`).
-/

set_option autoImplicit false

namespace RCode.Parser

open RCode.Parser.Bracket (after)

/-- The lexeme of a closing bracket. -/
def Closing.lexeme : Closing → Lexeme
  | .paren => .rightParen
  | .bracket => .rightBracket

theorem Closing.eq_lexeme {closing : Closing} {l : Lexeme} (h : closing.accepts l = true) :
    l = closing.lexeme := by
  cases closing with
  | _ => cases l <;> first | rfl | cases h

/-- The brackets open where the goal starts, after the token it has taken, and where it ends. -/
inductive Goal.Spans : Goal → List Bracket → List Bracket → Prop where
  | expression {power : Nat} (stack : List Bracket) :
      Spans (.expression (Bracket.region stack) power) stack stack
  | operators {power : Nat} {left : Node} (stack : List Bracket) :
      Spans (.operators (Bracket.region stack) power left) stack stack
  | operand (t : Token) (stack : List Bracket) :
      Spans (.operand (Bracket.region stack) t) (after stack t.lexeme) stack
  | operatorForm (t : Token) {left : Node} (stack : List Bracket) :
      Spans (.operatorForm (Bracket.region stack) t left) (after stack t.lexeme) stack
  | condition (stack : List Bracket) : Spans (.condition (Bracket.region stack)) stack stack
  | statements {opening : Position} (stack : List Bracket) :
      Spans (.statements opening) (.brace :: stack) stack
  | parameters (stack : List Bracket) : Spans .parameters (.round :: stack) stack
  | parameterList {seen : List String} (stack : List Bracket) :
      Spans (.parameterList seen) (.round :: stack) stack
  | parameterDefault (stack : List Bracket) :
      Spans .parameterDefault (.round :: stack) (.round :: stack)
  | arguments {closing : Closing} {stack : List Bracket} : Bracket.region stack = .bracket →
      Spans (.arguments closing) stack (after stack closing.lexeme)
  | argumentList {closing : Closing} {stack : List Bracket} : Bracket.region stack = .bracket →
      Spans (.argumentList closing) stack (after stack closing.lexeme)
  | argument {closing : Closing} {stack : List Bracket} : Bracket.region stack = .bracket →
      Spans (.argument closing) stack stack

/-- Every goal has brackets between which it can start. -/
theorem Goal.exists_spans (g : Goal) : ∃ stack stack', g.Spans stack stack' := by
  cases g with
  | expression region power =>
    obtain ⟨stack, rfl⟩ := Bracket.exists_region region
    exact ⟨_, _, .expression stack⟩
  | operators region power left =>
    obtain ⟨stack, rfl⟩ := Bracket.exists_region region
    exact ⟨_, _, .operators stack⟩
  | operand region t =>
    obtain ⟨stack, rfl⟩ := Bracket.exists_region region
    exact ⟨_, _, .operand t stack⟩
  | operatorForm region t left =>
    obtain ⟨stack, rfl⟩ := Bracket.exists_region region
    exact ⟨_, _, .operatorForm t stack⟩
  | condition region =>
    obtain ⟨stack, rfl⟩ := Bracket.exists_region region
    exact ⟨_, _, .condition stack⟩
  | statements => exact ⟨_, _, .statements []⟩
  | parameters => exact ⟨_, _, .parameters []⟩
  | parameterList => exact ⟨_, _, .parameterList []⟩
  | parameterDefault => exact ⟨_, _, .parameterDefault []⟩
  | arguments => exact ⟨[.round], _, .arguments rfl⟩
  | argumentList => exact ⟨[.round], _, .argumentList rfl⟩
  | argument => exact ⟨[.round], _, .argument rfl⟩

theorem after_literal {l : Lexeme} (h : isLiteral l = true) (stack : List Bracket) :
    after stack l = stack := by
  cases l with
  | integer | double | text | constant => rfl
  | _ => cases h

theorem after_member {t : Token} {n : Node} (h : memberNode? t = some n) (stack : List Bracket) :
    after stack t.lexeme = stack := by
  obtain ⟨l, p⟩ := t
  cases l with
  | symbol | text => rfl
  | _ => cases h

/-- What is read from some tokens is read, up to positions, from tokens with the same lexemes and
further line breaks in brackets. -/
theorem Reads.widened {wide : Prop} {g : Goal} {ts rest : Tokens} {r : Phrase}
    (h : Reads g ts r rest) :
    ∀ {g' : Goal} {us : Tokens} {stack stack' : List Bracket}, Goal.Like g' g →
      g.Spans stack stack' → Widened wide stack ts us →
        ∃ r' rest', Reads g' us r' rest' ∧ r'.erase = r.erase ∧ Widened wide stack' rest rest' := by
  -- each part starts between the brackets between which the part before it has ended
  induction h with
  | @expression region power ts ts₁ ts₂ rest t left n hv _ _ iho ihr =>
    rintro _ us stack _ ⟨⟩ ⟨⟩ hus
    obtain ⟨u, us₁, hv', ht, hus₁⟩ := hus.of_visible rfl hv
    obtain ⟨r, us₂, ho, hr, hus₂⟩ := iho (.operand ht) (.operand t stack) hus₁
    obtain ⟨left', rfl, hleft⟩ := Phrase.eq_node_of_erase hr
    obtain ⟨r, rest', hn, hr, hrest⟩ := ihr (.operators hleft) (.operators stack) hus₂
    obtain ⟨n', rfl, hn'⟩ := Phrase.eq_node_of_erase hr
    exact ⟨_, _, .expression hv' ho hn, hr, hrest⟩
  | @done region power left ts hstop =>
    rintro g' us stack _ hg ⟨⟩ hus
    obtain ⟨m, rfl, hleft⟩ := hg.eq_operators
    -- the region sees the same lexeme in both lists, so that the expression stops in both
    have hvis := hus.visible rfl
    refine ⟨_, _, .done ?_, congrArg Phrase.node hleft, hvis.widened⟩
    intro u hu
    have := hvis.found_eq
    simp only [found, Option.mem_def.mp hu, Option.map_some] at this
    obtain ⟨t, ht, htu⟩ := Option.map_eq_some_iff.mp this.symm
    rw [← htu]
    exact hstop t ht
  | @more region power left left' n ts ts₁ ts₂ rest t hv hpower _ _ ihf iho =>
    rintro g' us stack _ hg ⟨⟩ hus
    obtain ⟨m, rfl, hleft⟩ := hg.eq_operators
    obtain ⟨u, us₁, hv', ht, hus₁⟩ := hus.of_visible rfl hv
    obtain ⟨r, us₂, hf, hr, hus₂⟩ := ihf (.operatorForm ht hleft) (.operatorForm t stack) hus₁
    obtain ⟨m, rfl, hm⟩ := Phrase.eq_node_of_erase hr
    obtain ⟨r, rest', hn, hr, hrest⟩ := iho (.operators hm) (.operators stack) hus₂
    obtain ⟨n', rfl, hn'⟩ := Phrase.eq_node_of_erase hr
    exact ⟨_, _, .more hv' (ht ▸ hpower) hf hn, hr, hrest⟩
  | @literal region t ts hl =>
    rintro g' us stack stack' hg ⟨⟩ hus
    obtain ⟨u, rfl, ht⟩ := hg.eq_operand
    rw [after_literal hl] at hus
    exact ⟨_, _, .literal (ht ▸ hl), by simp only [Phrase.erase, Node.erase, ht], hus⟩
  | @symbol region t ts name hname =>
    rintro g' us stack stack' hg ⟨⟩ hus
    obtain ⟨u, rfl, ht⟩ := hg.eq_operand
    rw [hname] at hus
    exact ⟨_, _, .symbol (ht.trans hname), rfl, hus⟩
  | @prefixed region t ts rest name power inner hname hp _ ih =>
    rintro g' us stack stack' hg ⟨⟩ hus
    obtain ⟨u, rfl, ht⟩ := hg.eq_operand
    rw [hname] at hus
    obtain ⟨r, rest', hi, hr, hrest⟩ := ih .expression (.expression stack') hus.skipBreaks.widened
    obtain ⟨inner', rfl, hinner⟩ := Phrase.eq_node_of_erase hr
    exact ⟨_, _, .prefixed (ht.trans hname) hp hi,
      congrArg Phrase.node (keywordCall_erase (by simp only [List.map_cons, hinner])), hrest⟩
  | @group region t ts ts₁ rest p inner hopen _ hclose ih =>
    rintro g' us stack stack' hg ⟨⟩ hus
    obtain ⟨u, rfl, ht⟩ := hg.eq_operand
    rw [hopen] at hus
    obtain ⟨r, us₁, hi, hr, hus₁⟩ := ih .expression (.expression (.round :: stack')) hus
    obtain ⟨inner', rfl, hinner⟩ := Phrase.eq_node_of_erase hr
    obtain ⟨q, rest', hclose', hrest⟩ := hus₁.of_visible_lexeme rfl hclose
    exact ⟨_, _, .group (ht.trans hopen) hi hclose',
      congrArg Phrase.node (keywordCall_erase (by simp only [List.map_cons, hinner])), hrest⟩
  | @block region t ts rest body hopen _ ih =>
    rintro g' us stack stack' hg ⟨⟩ hus
    obtain ⟨u, rfl, ht⟩ := hg.eq_operand
    rw [hopen] at hus
    obtain ⟨r, rest', hb, hr, hrest⟩ := ih .statements (.statements stack') hus
    obtain ⟨body', rfl, hbody⟩ := Phrase.eq_nodes_of_erase hr
    exact ⟨_, _, .block (ht.trans hopen) hb, congrArg Phrase.node (keywordCall_erase hbody), hrest⟩
  | @conditional region t ts ts₁ rest c body hword _ _ helse ihc ihb =>
    rintro g' us stack stack' hg ⟨⟩ hus
    obtain ⟨u, rfl, ht⟩ := hg.eq_operand
    rw [hword] at hus
    obtain ⟨r, us₁, hc, hr, hus₁⟩ := ihc .condition (.condition stack') hus
    obtain ⟨c', rfl, hc'⟩ := Phrase.eq_node_of_erase hr
    obtain ⟨r, rest', hb, hr, hrest⟩ := ihb .expression (.expression stack') hus₁.skipBreaks.widened
    obtain ⟨body', rfl, hbody⟩ := Phrase.eq_node_of_erase hr
    exact ⟨_, _, .conditional (ht.trans hword) hc hb (hrest.afterElse_none rfl helse),
      congrArg Phrase.node (keywordCall_erase (by simp only [List.map_cons, hc', hbody])), hrest⟩
  | @alternative region t ts ts₁ ts₂ ts₃ rest c body other hword _ _ helse _ ihc ihb iho =>
    rintro g' us stack stack' hg ⟨⟩ hus
    obtain ⟨u, rfl, ht⟩ := hg.eq_operand
    rw [hword] at hus
    obtain ⟨r, us₁, hc, hr, hus₁⟩ := ihc .condition (.condition stack') hus
    obtain ⟨c', rfl, hc'⟩ := Phrase.eq_node_of_erase hr
    obtain ⟨r, us₂, hb, hr, hus₂⟩ := ihb .expression (.expression stack') hus₁.skipBreaks.widened
    obtain ⟨body', rfl, hbody⟩ := Phrase.eq_node_of_erase hr
    obtain ⟨us₃, helse', hus₃⟩ := hus₂.afterElse rfl helse
    obtain ⟨r, rest', ho, hr, hrest⟩ := iho .expression (.expression stack') hus₃.skipBreaks.widened
    obtain ⟨other', rfl, hother⟩ := Phrase.eq_node_of_erase hr
    exact ⟨_, _, .alternative (ht.trans hword) hc hb helse' ho,
      congrArg Phrase.node (keywordCall_erase (by simp only [List.map_cons, hc', hbody, hother])),
      hrest⟩
  | @whileLoop region t ts ts₁ rest c body hword _ _ ihc ihb =>
    rintro g' us stack stack' hg ⟨⟩ hus
    obtain ⟨u, rfl, ht⟩ := hg.eq_operand
    rw [hword] at hus
    obtain ⟨r, us₁, hc, hr, hus₁⟩ := ihc .condition (.condition stack') hus
    obtain ⟨c', rfl, hc'⟩ := Phrase.eq_node_of_erase hr
    obtain ⟨r, rest', hb, hr, hrest⟩ := ihb .expression (.expression stack') hus₁.skipBreaks.widened
    obtain ⟨body', rfl, hbody⟩ := Phrase.eq_node_of_erase hr
    exact ⟨_, _, .whileLoop (ht.trans hword) hc hb,
      congrArg Phrase.node (keywordCall_erase (by simp only [List.map_cons, hc', hbody])), hrest⟩
  | @forLoop region t ts ts₁ ts₂ ts₃ ts₄ ts₅ rest p q r s name sequence body hword hopen hname hin _
      hclose _ ihs ihb =>
    rintro g' us stack stack' hg ⟨⟩ hus
    obtain ⟨u, rfl, ht⟩ := hg.eq_operand
    rw [hword] at hus
    obtain ⟨_, us₁, hopen', hus₁⟩ := hus.of_visible_lexeme rfl hopen
    obtain ⟨q', us₂, hname', hus₂⟩ := hus₁.of_visible_lexeme rfl hname
    obtain ⟨_, us₃, hin', hus₃⟩ := hus₂.of_visible_lexeme rfl hin
    obtain ⟨r, us₄, hs, hr, hus₄⟩ := ihs .expression (.expression (.round :: stack')) hus₃
    obtain ⟨sequence', rfl, hsequence⟩ := Phrase.eq_node_of_erase hr
    obtain ⟨_, us₅, hclose', hus₅⟩ := hus₄.of_visible_lexeme rfl hclose
    obtain ⟨r, rest', hb, hr, hrest⟩ := ihb .expression (.expression stack') hus₅.skipBreaks.widened
    obtain ⟨body', rfl, hbody⟩ := Phrase.eq_node_of_erase hr
    refine ⟨_, _, .forLoop (ht.trans hword) hopen' hname' hin' hs hclose' hb, ?_, hrest⟩
    refine congrArg Phrase.node (keywordCall_erase ?_)
    simp only [List.map_cons, Node.erase, hsequence, hbody]
  | @repeatLoop region t ts rest body hword _ ih =>
    rintro g' us stack stack' hg ⟨⟩ hus
    obtain ⟨u, rfl, ht⟩ := hg.eq_operand
    rw [hword] at hus
    obtain ⟨r, rest', hb, hr, hrest⟩ := ih .expression (.expression stack') hus.skipBreaks.widened
    obtain ⟨body', rfl, hbody⟩ := Phrase.eq_node_of_erase hr
    exact ⟨_, _, .repeatLoop (ht.trans hword) hb,
      congrArg Phrase.node (keywordCall_erase (by simp only [List.map_cons, hbody])), hrest⟩
  | @definition region t ts ts₁ ts₂ rest p items body hword hopen _ _ ihi ihb =>
    rintro g' us stack stack' hg ⟨⟩ hus
    obtain ⟨u, rfl, ht⟩ := hg.eq_operand
    rw [hword] at hus
    obtain ⟨p', us₁, hopen', hus₁⟩ := hus.of_visible_lexeme rfl hopen
    obtain ⟨r, us₂, hi, hr, hus₂⟩ := ihi .parameters (.parameters stack') hus₁
    obtain ⟨items', rfl, hitems⟩ := Phrase.eq_params_of_erase hr
    obtain ⟨r, rest', hb, hr, hrest⟩ := ihb .expression (.expression stack') hus₂.skipBreaks.widened
    obtain ⟨body', rfl, hbody⟩ := Phrase.eq_node_of_erase hr
    refine ⟨_, _, .definition (ht.trans hword) hopen' hi hb, ?_, hrest⟩
    refine congrArg Phrase.node (keywordCall_erase ?_)
    simp only [List.map_cons, Node.erase, hitems, hbody]
  | @breakJump region t ts hword =>
    rintro g' us stack stack' hg ⟨⟩ hus
    obtain ⟨u, rfl, ht⟩ := hg.eq_operand
    rw [hword] at hus
    exact ⟨_, _, .breakJump (ht.trans hword), congrArg Phrase.node (keywordCall_erase rfl), hus⟩
  | @nextJump region t ts hword =>
    rintro g' us stack stack' hg ⟨⟩ hus
    obtain ⟨u, rfl, ht⟩ := hg.eq_operand
    rw [hword] at hus
    exact ⟨_, _, .nextJump (ht.trans hword), congrArg Phrase.node (keywordCall_erase rfl), hus⟩
  | @condition region ts ts₁ ts₂ rest p q n hopen _ hclose ih =>
    rintro _ us stack _ ⟨⟩ ⟨⟩ hus
    obtain ⟨_, us₁, hopen', hus₁⟩ := hus.of_visible_lexeme rfl hopen
    obtain ⟨r, us₂, hi, hr, hus₂⟩ := ih .expression (.expression (.round :: stack)) hus₁
    obtain ⟨n', rfl, hn⟩ := Phrase.eq_node_of_erase hr
    obtain ⟨_, rest', hclose', hrest⟩ := hus₂.of_visible_lexeme rfl hclose
    exact ⟨_, _, .condition hopen' hi hclose', hr, hrest⟩
  | @blockEnd opening p ts rest hs =>
    rintro _ us _ stack' ⟨⟩ ⟨⟩ hus
    obtain ⟨q, rest', hs', hrest⟩ := hus.skipSeparators.of_eq_lexeme hs
    exact ⟨_, _, .blockEnd hs', rfl, hrest⟩
  | @statement opening ts ts₁ ts₂ rest t n more hs hne _ hends _ ihe ihm =>
    rintro _ us _ stack' ⟨⟩ ⟨⟩ hus
    obtain ⟨u, us₁, hs', ht, hus₁⟩ := hus.skipSeparators.of_eq hs
    obtain ⟨r, us₂, he, hr, hus₂⟩ :=
      ihe .expression (.expression (.brace :: stack')) (.cons ht hus₁)
    obtain ⟨n', rfl, hn⟩ := Phrase.eq_node_of_erase hr
    obtain ⟨r, rest', hm, hr, hrest⟩ := ihm .statements (.statements stack') hus₂
    obtain ⟨more', rfl, hmore⟩ := Phrase.eq_nodes_of_erase hr
    have hends' := (hus₂.aligned Region.noConfusion).endsStatement_eq
    refine ⟨_, _, .statement hs' (ht ▸ hne) he (hends' ▸ hends) hm, ?_, hrest⟩
    simp only [Phrase.erase, List.map_cons, hn, hmore]
  | @noParameters ts rest p hclose =>
    rintro _ us _ stack' ⟨⟩ ⟨⟩ hus
    obtain ⟨_, rest', hclose', hrest⟩ := hus.of_visible_lexeme rfl hclose
    exact ⟨_, _, .noParameters hclose', rfl, hrest⟩
  | @someParameters ts rest items hne _ ih =>
    rintro _ us _ stack' ⟨⟩ ⟨⟩ hus
    obtain ⟨r, rest', hi, hr, hrest⟩ := ih .parameterList (.parameterList stack') hus
    obtain ⟨items', rfl, -⟩ := Phrase.eq_params_of_erase hr
    exact ⟨_, _, .someParameters (hus.skipBreaks.ne hne) hi, hr, hrest⟩
  | @lastParameter seen ts ts₁ ts₂ rest name p q default hname hseen _ hclose ih =>
    rintro _ us _ stack' ⟨⟩ ⟨⟩ hus
    obtain ⟨p', us₁, hname', hus₁⟩ := hus.of_visible_lexeme rfl hname
    obtain ⟨r, us₂, hd, hr, hus₂⟩ := ih .parameterDefault (.parameterDefault stack') hus₁
    obtain ⟨default', rfl, hdefault⟩ := Phrase.eq_node_of_erase hr
    obtain ⟨_, rest', hclose', hrest⟩ := hus₂.of_visible_lexeme rfl hclose
    refine ⟨_, _, .lastParameter hname' hseen hd hclose', ?_, hrest⟩
    simp only [Phrase.erase, Node.eraseParams, hdefault]
  | @parameter seen ts ts₁ ts₂ ts₃ rest name p q default more hname hseen _ hcomma _ ihd ihm =>
    rintro _ us _ stack' ⟨⟩ ⟨⟩ hus
    obtain ⟨p', us₁, hname', hus₁⟩ := hus.of_visible_lexeme rfl hname
    obtain ⟨r, us₂, hd, hr, hus₂⟩ := ihd .parameterDefault (.parameterDefault stack') hus₁
    obtain ⟨default', rfl, hdefault⟩ := Phrase.eq_node_of_erase hr
    obtain ⟨_, us₃, hcomma', hus₃⟩ := hus₂.of_visible_lexeme rfl hcomma
    obtain ⟨r, rest', hm, hr, hrest⟩ := ihm .parameterList (.parameterList stack') hus₃
    obtain ⟨more', rfl, hmore⟩ := Phrase.eq_params_of_erase hr
    refine ⟨_, _, .parameter hname' hseen hd hcomma' hm, ?_, hrest⟩
    simp only [Phrase.erase, Node.eraseParams, hdefault, hmore]
  | @withDefault ts ts₁ rest p default heq _ ih =>
    rintro _ us _ _ ⟨⟩ hspans hus
    cases hspans with
    | parameterDefault stack =>
      obtain ⟨_, us₁, heq', hus₁⟩ := hus.of_visible_lexeme rfl heq
      obtain ⟨r, rest', hd, hr, hrest⟩ := ih .expression (.expression (.round :: stack)) hus₁
      obtain ⟨default', rfl, -⟩ := Phrase.eq_node_of_erase hr
      exact ⟨_, _, .withDefault heq' hd, hr, hrest⟩
  | @noDefault ts hne =>
    rintro _ us _ _ ⟨⟩ ⟨⟩ hus
    exact ⟨_, _, .noDefault (hus.skipBreaks.ne hne), rfl, hus⟩
  | @application region t left ts rest args hopen _ ih =>
    rintro g' us _ stack' hg ⟨⟩ hus
    obtain ⟨u, m, rfl, ht, hleft⟩ := hg.eq_operatorForm
    rw [hopen] at hus
    obtain ⟨r, rest', ha, hr, hrest⟩ := ih .arguments (.arguments rfl) hus
    obtain ⟨args', rfl, hargs⟩ := Phrase.eq_args_of_erase hr
    refine ⟨_, _, .application (ht.trans hopen) ha, ?_, hrest⟩
    simp only [Phrase.erase, Node.erase, hleft, hargs]
  | @index region t left ts rest args hopen _ ih =>
    rintro g' us _ stack' hg ⟨⟩ hus
    obtain ⟨u, m, rfl, ht, hleft⟩ := hg.eq_operatorForm
    rw [hopen] at hus
    obtain ⟨r, rest', ha, hr, hrest⟩ := ih .arguments (.arguments rfl) hus
    obtain ⟨args', rfl, hargs⟩ := Phrase.eq_args_of_erase hr
    refine ⟨_, _, .index (ht.trans hopen) ha, ?_, hrest⟩
    simp only [Phrase.erase, Node.erase, Node.eraseArgs, hleft, hargs]
  | @doubleIndex region t left ts ts₁ rest p args hopen _ hclose ih =>
    rintro g' us _ stack' hg ⟨⟩ hus
    obtain ⟨u, m, rfl, ht, hleft⟩ := hg.eq_operatorForm
    rw [hopen] at hus
    -- the arguments end with one of the two closing brackets
    obtain ⟨r, us₁, ha, hr, hus₁⟩ := ih .arguments (.arguments rfl) hus
    obtain ⟨args', rfl, hargs⟩ := Phrase.eq_args_of_erase hr
    obtain ⟨_, rest', hclose', hrest⟩ := hus₁.of_visible_lexeme rfl hclose
    refine ⟨_, _, .doubleIndex (ht.trans hopen) ha hclose', ?_, hrest⟩
    simp only [Phrase.erase, Node.erase, Node.eraseArgs, hleft, hargs]
  | @member region t u left right ts rest name hname hmember hs hu =>
    rintro g' us _ stack' hg ⟨⟩ hus
    obtain ⟨u', m, rfl, ht, hleft⟩ := hg.eq_operatorForm
    rw [hname] at hus
    obtain ⟨v, rest', hs', hv, hrest⟩ := hus.skipBreaks.of_eq hs
    rw [after_member hu] at hrest
    obtain ⟨right', hright', hright⟩ := memberNode?_like hu hv
    have hmember' := hmember
    unfold TakesMember at hmember'
    rw [← isNamespace_of_erase hleft] at hmember'
    refine ⟨_, _, .member (ht.trans hname) hmember' hs' hright', ?_, hrest⟩
    simp only [Phrase.erase, Node.erase, Node.eraseArgs, hleft, hright]
  | @binary region t left right n ts rest name binding hname hm hq hb _ hcombine ih =>
    rintro g' us _ stack' hg ⟨⟩ hus
    obtain ⟨u, m, rfl, ht, hleft⟩ := hg.eq_operatorForm
    rw [hname] at hus
    obtain ⟨r, rest', he, hr, hrest⟩ := ih .expression (.expression stack') hus.skipBreaks.widened
    obtain ⟨right', rfl, hright⟩ := Phrase.eq_node_of_erase hr
    obtain ⟨n', hcombine', hn⟩ := combine_like hcombine hleft hright
    exact ⟨_, _, .binary (ht.trans hname) hm hq hb he hcombine', congrArg Phrase.node hn, hrest⟩
  | @noArguments closing ts rest t hv hclose =>
    rintro _ us _ _ ⟨⟩ hspans hus
    cases hspans with
    | arguments hbracket =>
      obtain ⟨u, rest', hv', ht, hrest⟩ := hus.of_visible hbracket hv
      rw [Closing.eq_lexeme hclose] at hrest
      exact ⟨_, _, .noArguments hv' (ht ▸ hclose), rfl, hrest⟩
  | @someArguments closing ts ts₁ rest t args hv hopen _ ih =>
    rintro _ us _ _ ⟨⟩ hspans hus
    cases hspans with
    | arguments hbracket =>
      obtain ⟨u, us₁, hv', ht, -⟩ := hus.of_visible hbracket hv
      obtain ⟨r, rest', ha, hr, hrest⟩ := ih .argumentList (.argumentList hbracket) hus
      obtain ⟨args', rfl, -⟩ := Phrase.eq_args_of_erase hr
      exact ⟨_, _, .someArguments hv' (ht ▸ hopen) ha, hr, hrest⟩
  | @lastArgument closing ts ts₁ rest t a _ hv hclose ih =>
    rintro _ us _ _ ⟨⟩ hspans hus
    cases hspans with
    | argumentList hbracket =>
      obtain ⟨r, us₁, ha, hr, hus₁⟩ := ih .argument (.argument hbracket) hus
      obtain ⟨a', rfl⟩ := ha.eq_singleton
      obtain ⟨u, rest', hv', ht, hrest⟩ := hus₁.of_visible hbracket hv
      rw [Closing.eq_lexeme hclose] at hrest
      exact ⟨_, _, .lastArgument ha hv' (ht ▸ hclose), hr, hrest⟩
  | @argument closing ts ts₁ ts₂ rest p a more _ hcomma _ iha ihm =>
    rintro _ us _ _ ⟨⟩ hspans hus
    cases hspans with
    | argumentList hbracket =>
      obtain ⟨r, us₁, ha, hr, hus₁⟩ := iha .argument (.argument hbracket) hus
      obtain ⟨a', rfl⟩ := ha.eq_singleton
      obtain ⟨_, us₂, hcomma', hus₂⟩ := hus₁.of_visible_lexeme hbracket hcomma
      obtain ⟨r', rest', hm, hr', hrest⟩ := ihm .argumentList (.argumentList hbracket) hus₂
      obtain ⟨more', rfl, hmore⟩ := Phrase.eq_args_of_erase hr'
      refine ⟨_, _, .argument ha hcomma' hm, ?_, hrest⟩
      have hsingle : Node.eraseArgs [a'] = Node.eraseArgs [a] := Phrase.args.inj hr
      simp only [Phrase.erase, Node.eraseArgs, hmore, (List.cons.inj hsingle).1]
  | @unnamed closing ts ts₁ rest t value hv hends hname _ ih =>
    rintro _ us stack _ ⟨⟩ hspans hus
    cases hspans with
    | argument hbracket =>
      obtain ⟨u, us₁, hv', ht, hus₁⟩ := hus.of_visible hbracket hv
      -- the value is read as in brackets, which is the region of the brackets the argument stands in
      have hspan : Goal.Spans (.expression (Bracket.region stack) 0) stack stack := .expression stack
      rw [hbracket] at hspan
      obtain ⟨r, rest', he, hr, hrest⟩ := ih .expression hspan hus
      obtain ⟨value', rfl, hvalue⟩ := Phrase.eq_node_of_erase hr
      refine ⟨_, _, .unnamed hv' (ht ▸ hends) (hus₁.afterName_none ht hname) he, ?_, hrest⟩
      simp only [Phrase.erase, Node.eraseArgs, hvalue]
  | @named closing ts ts₁ ts₂ rest t name value hv hends hname hempty hfound _ ih =>
    rintro _ us stack _ ⟨⟩ hspans hus
    cases hspans with
    | argument hbracket =>
      obtain ⟨u, us₁, hv', ht, hus₁⟩ := hus.of_visible hbracket hv
      obtain ⟨us₂, hname', hus₂⟩ := Widened.afterName ht hus₁ hname
      have hspan : Goal.Spans (.expression (Bracket.region stack) Operator.assignPower) stack stack :=
        .expression stack
      rw [hbracket] at hspan
      obtain ⟨r, rest', he, hr, hrest⟩ := ih .expression hspan hus₂
      obtain ⟨value', rfl, hvalue⟩ := Phrase.eq_node_of_erase hr
      have hfound' := (hus₂.visible hbracket).found_eq
      refine ⟨_, _, .named hv' (ht ▸ hends) hname' hempty (hfound' ▸ hfound) he, ?_, hrest⟩
      simp only [Phrase.erase, Node.eraseArgs, hvalue]

/-- What is read from some tokens is read from all tokens with the same lexemes, up to
positions. -/
theorem Reads.congr {g g' : Goal} {ts us rest : Tokens} {r : Phrase} (h : Reads g ts r rest)
    (hg : Goal.Like g' g) (hus : lexemes us = lexemes ts) :
    ∃ r' rest', Reads g' us r' rest' ∧ r'.erase = r.erase ∧ lexemes rest' = lexemes rest := by
  obtain ⟨stack, stack', hspans⟩ := g.exists_spans
  have hwidened : Widened False stack ts us := widened_of_lexemes stack hus
  obtain ⟨r', rest', hr', hr, hrest⟩ := h.widened hg hspans hwidened
  exact ⟨r', rest', hr', hr, lexemes_of_widened hrest⟩

/-- The programs of some tokens and of the same lexemes with further line breaks in brackets are
equal up to positions. -/
theorem ReadsProgram.widened {wide : Prop} {ts us : Tokens} {ns : List Node}
    (h : ReadsProgram ts ns) (hus : Widened wide [] ts us) :
    ∃ ms, ReadsProgram us ms ∧ ms.map Node.erase = ns.map Node.erase := by
  induction h generalizing us with
  | nil hnil =>
    have haligned := hus.skipSeparators
    rw [hnil] at haligned
    cases hskip : skipSeparators us with
    | nil => exact ⟨[], .nil hskip, rfl⟩
    | cons => rw [hskip] at haligned; cases haligned
  | cons hskip hexpression hends _ ih =>
    obtain ⟨u, us₁, hskip', ht, hus₁⟩ := hus.skipSeparators.of_eq hskip
    obtain ⟨r, rest', hr, herase, hrest⟩ :=
      hexpression.widened .expression (.expression []) (.cons ht hus₁)
    obtain ⟨m, rfl, hm⟩ := Phrase.eq_node_of_erase herase
    obtain ⟨ms, hms, hmap⟩ := ih hrest
    have hends' := (hrest.aligned Region.noConfusion).endsExpression_eq
    refine ⟨m :: ms, .cons hskip' hr (hends' ▸ hends) hms, ?_⟩
    rw [List.map_cons, List.map_cons, hm, hmap]

end RCode.Parser
