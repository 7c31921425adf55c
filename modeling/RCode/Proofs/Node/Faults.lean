import RCode.Proofs.Node.Leftover
import RCode.Proofs.Node.ParserDerivation

/-!
# Why tokens form no program

The fault of tokens that form no program lies at one of them or at their end, except for one kind of
fault (`program_faults`): an argument that is named by an empty text has no place. As in the proof that
what is read is derived, the theorems follow the recursion of the parser.
-/

set_option autoImplicit false

namespace RCode.Parser

/-- Behind such a lexeme an argument may start. -/
def startsArgument : Lexeme → Bool
  | .leftParen => true
  | .leftBracket => true
  | .leftDouble => true
  | .comma => true
  | _ => false

/-- Among the tokens there is the start of an argument with the given name. -/
def NamesArgument (name : String) (us : Tokens) : Prop :=
  ∃ opener ts t rest after, opener :: ts <:+ us ∧ startsArgument opener.lexeme = true ∧
    visible .bracket ts = t :: rest ∧ afterName? t rest = some (name, after)

/-- The fault lies in the tokens. -/
inductive IsFaultOf (us : Tokens) : ParseFault → Prop
  | atToken {problem : SyntaxProblem} {t : Token} :
      t ∈ us → IsFaultOf us (.malformed problem (some t.position))
  | atEnd {problem : SyntaxProblem} : IsFaultOf us (.malformed problem none)
  | emptyName : NamesArgument "" us → IsFaultOf us .emptyArgumentName

variable {us : Tokens}

/-! ## Single tokens -/

/-- A problem with the first of the tokens lies there, or at the end if there are none. -/
theorem problemAt_faults {α : Type} {ts : Tokens} (hts : ts <:+ us) (problem : SyntaxProblem) :
    FailsOnly (IsFaultOf us) (problemAt ts problem : Except ParseFault α) := by
  cases ts with
  | nil => exact .error .atEnd
  | cons t ts => exact .error (.atToken (hts.mem List.mem_cons_self))

theorem unexpected_faults {α : Type} {ts : Tokens} (hts : ts <:+ us) :
    FailsOnly (IsFaultOf us) (unexpected ts : Except ParseFault α) :=
  problemAt_faults hts _

theorem expect_faults {region : Region} {wanted : String} {accepts : Lexeme → Bool} {ts : Tokens}
    (hts : ts <:+ us) : FailsOnly (IsFaultOf us) (expect region wanted accepts ts) := by
  unfold expect
  split
  · next hv =>
    split
    · exact .ok _
    · exact problemAt_faults ((suffix_of_visible hv).trans hts) _
  · exact problemAt_faults (List.nil_suffix) _

theorem expectSymbol_faults {ts : Tokens} (hts : ts <:+ us) :
    FailsOnly (IsFaultOf us) (expectSymbol ts) := by
  unfold expectSymbol
  split
  · exact .ok _
  · exact problemAt_faults ((visible_suffix _ _).trans hts) _

theorem member_faults {operator : String} {ts : Tokens} (hts : ts <:+ us) :
    FailsOnly (IsFaultOf us) (member operator ts) := by
  unfold member
  split
  · exact .ok _
  · exact .ok _
  · exact problemAt_faults ((skipBreaks_suffix ts).trans hts) _

theorem combine_faults {operator : String} {t : Token} {left right : Node} (ht : t ∈ us) :
    FailsOnly (IsFaultOf us) (combine operator t.position left right) := by
  unfold combine
  dsimp only
  split
  · exact .ok _
  · split
    · exact .ok _
    · split
      · split
        · split
          · exact .error (.atToken ht)
          · exact .ok _
        · exact .error (.atToken ht)
      · exact .ok _

/-! ## The functions of the parser -/

theorem suffix_of_expect {region : Region} {wanted : String} {accepts : Lexeme → Bool}
    {ts : Tokens} {r : Fewer ts} (h : expect region wanted accepts ts = .ok r) : r.1 <:+ ts := by
  obtain ⟨t, hv, -⟩ := expect_inv h
  exact rest_suffix_of_visible hv

theorem suffix_of_expectSymbol {ts : Tokens} {name : String} {p : Position} {r : Fewer ts}
    (h : expectSymbol ts = .ok (name, p, r)) : r.1 <:+ ts :=
  rest_suffix_of_visible (expectSymbol_inv h)

mutual

theorem expression_faults {region : Region} {power : Nat} {ts : Tokens} (hts : ts <:+ us) :
    FailsOnly (IsFaultOf us) (expression region power ts) := by
  rw [Parser.expression]
  split
  · exact unexpected_faults List.nil_suffix
  · next t ts₁ hv =>
    have hlt := visible_cons_length hv
    have hts₁ := (suffix_of_visible hv).trans hts
    refine .bind (operand_faults hts₁) ?_
    rintro ⟨left, ts₂, h₂⟩ ho
    have hts₂ := (reads_operand ho).suffix.trans (rest_suffix hts₁)
    refine .bind (operators_faults hts₂) ?_
    rintro ⟨n, rest, h₃⟩ -
    exact .ok _
termination_by 5 * ts.length

theorem operators_faults {region : Region} {power : Nat} {left : Node} {ts : Tokens}
    (hts : ts <:+ us) : FailsOnly (IsFaultOf us) (operators region power left ts) := by
  rw [operators]
  split
  · exact .ok _
  · next t ts₁ hv =>
    have hlt := visible_cons_length hv
    have hts₁ := (suffix_of_visible hv).trans hts
    split
    · exact .ok _
    · refine .bind (operatorForm_faults hts₁) ?_
      rintro ⟨left', ts₂, h₂⟩ hf
      have hts₂ := (reads_operatorForm hf).suffix.trans (rest_suffix hts₁)
      refine .bind (operators_faults hts₂) ?_
      rintro ⟨n, rest, h₃⟩ -
      exact .ok _
termination_by 5 * ts.length

theorem operand_faults {region : Region} {t : Token} {ts : Tokens} (hts : t :: ts <:+ us) :
    FailsOnly (IsFaultOf us) (operand region t ts) := by
  have hskip := skipBreaks_length ts
  have hrest := rest_suffix hts
  rw [operand]
  split
  -- literals and names take no more tokens
  · exact .ok _
  · exact .ok _
  · exact .ok _
  · exact .ok _
  · exact .ok _
  -- a prefix operator, or another one where an operand has to stand
  · split
    · exact unexpected_faults hts
    · refine .bind (expression_faults ((skipBreaks_suffix ts).trans hrest)) ?_
      rintro ⟨inner, rest, h₁⟩ -
      exact .ok _
  -- a group
  · refine .bind (expression_faults hrest) ?_
    rintro ⟨inner, ts₁, h₁⟩ hi
    refine .bind (expect_faults ((reads_expression hi).suffix.trans hrest)) ?_
    rintro ⟨rest, h₂⟩ -
    exact .ok _
  -- a block, which is said to be unclosed where it was opened
  · refine .bind (statements_faults hrest (hts.mem List.mem_cons_self)) ?_
    rintro ⟨body, rest, h₁⟩ -
    exact .ok _
  -- `if`, with or without an `else`
  · refine .bind (condition_faults hrest) ?_
    rintro ⟨c, ts₁, h₁⟩ hc
    have hts₁ := (reads_condition hc).suffix.trans hrest
    have := skipBreaks_length ts₁
    refine .bind (expression_faults ((skipBreaks_suffix ts₁).trans hts₁)) ?_
    rintro ⟨body, ts₂, h₂⟩ hb
    have hts₂ := (reads_expression hb).suffix.trans ((skipBreaks_suffix ts₁).trans hts₁)
    dsimp only
    split
    · exact .ok _
    · next ts₃ h₃ he =>
      have hts₃ := (suffix_of_afterElse (afterElse?_eq he)).trans hts₂
      have := skipBreaks_length ts₃
      refine .bind (expression_faults ((skipBreaks_suffix ts₃).trans hts₃)) ?_
      rintro ⟨other, rest, h₄⟩ -
      exact .ok _
  -- `while`
  · refine .bind (condition_faults hrest) ?_
    rintro ⟨c, ts₁, h₁⟩ hc
    have hts₁ := (reads_condition hc).suffix.trans hrest
    have := skipBreaks_length ts₁
    refine .bind (expression_faults ((skipBreaks_suffix ts₁).trans hts₁)) ?_
    rintro ⟨body, rest, h₂⟩ -
    exact .ok _
  -- `for`: its header token by token, then the sequence and the body
  · refine .bind (expect_faults hrest) ?_
    rintro ⟨ts₁, h₁⟩ hopen
    have hts₁ := (suffix_of_expect hopen).trans hrest
    refine .bind (expectSymbol_faults hts₁) ?_
    rintro ⟨name, q, ts₂, h₂⟩ hname
    have hts₂ := (suffix_of_expectSymbol hname).trans hts₁
    refine .bind (expect_faults hts₂) ?_
    rintro ⟨ts₃, h₃⟩ hin
    have hts₃ := (suffix_of_expect hin).trans hts₂
    refine .bind (expression_faults hts₃) ?_
    rintro ⟨sequence, ts₄, h₄⟩ hs
    have hts₄ := (reads_expression hs).suffix.trans hts₃
    refine .bind (expect_faults hts₄) ?_
    rintro ⟨ts₅, h₅⟩ hclose
    have hts₅ := (suffix_of_expect hclose).trans hts₄
    have := skipBreaks_length ts₅
    refine .bind (expression_faults ((skipBreaks_suffix ts₅).trans hts₅)) ?_
    rintro ⟨body, rest, h₆⟩ -
    exact .ok _
  -- `repeat`
  · refine .bind (expression_faults ((skipBreaks_suffix ts).trans hrest)) ?_
    rintro ⟨body, rest, h₁⟩ -
    exact .ok _
  -- `function`
  · refine .bind (expect_faults hrest) ?_
    rintro ⟨ts₁, h₁⟩ hopen
    have hts₁ := (suffix_of_expect hopen).trans hrest
    refine .bind (parameters_faults hts₁) ?_
    rintro ⟨items, ts₂, h₂⟩ hi
    have hts₂ := (reads_parameters hi).suffix.trans hts₁
    have := skipBreaks_length ts₂
    refine .bind (expression_faults ((skipBreaks_suffix ts₂).trans hts₂)) ?_
    rintro ⟨body, rest, h₃⟩ -
    exact .ok _
  -- `break` and `next`, and lexemes that start no operand
  · exact .ok _
  · exact .ok _
  · exact unexpected_faults hts
termination_by 5 * ts.length + 4

theorem condition_faults {region : Region} {ts : Tokens} (hts : ts <:+ us) :
    FailsOnly (IsFaultOf us) (condition region ts) := by
  rw [condition]
  refine .bind (expect_faults hts) ?_
  rintro ⟨ts₁, h₁⟩ hopen
  have hts₁ := (suffix_of_expect hopen).trans hts
  refine .bind (expression_faults hts₁) ?_
  rintro ⟨n, ts₂, h₂⟩ hn
  refine .bind (expect_faults ((reads_expression hn).suffix.trans hts₁)) ?_
  rintro ⟨rest, h₃⟩ -
  exact .ok _
termination_by 5 * ts.length + 1

theorem statements_faults {t : Token} {ts : Tokens} (hts : ts <:+ us) (ht : t ∈ us) :
    FailsOnly (IsFaultOf us) (statements t.position ts) := by
  have hskip := skipSeparators_length ts
  rw [statements]
  split
  -- at the end of the text the opening brace is at fault
  · exact .error (.atToken ht)
  · exact .ok _
  · next u ts₁ hne hs =>
    have hlength : ts₁.length + 1 ≤ ts.length := by rw [hs] at hskip; exact hskip
    have hts₁ := (suffix_of_skipSeparators hs).trans hts
    refine .bind (expression_faults hts₁) ?_
    rintro ⟨n, ts₂, h₂⟩ hn
    have hlt : ts₂.length < ts.length := Nat.lt_of_lt_of_le h₂ hlength
    have hts₂ := (reads_expression hn).suffix.trans hts₁
    dsimp only
    split
    · refine .bind (statements_faults hts₂ ht) ?_
      rintro ⟨more, rest, h₃⟩ -
      exact .ok _
    · exact unexpected_faults hts₂
termination_by 5 * ts.length + 1

theorem parameters_faults {ts : Tokens} (hts : ts <:+ us) :
    FailsOnly (IsFaultOf us) (parameters ts) := by
  rw [parameters]
  split
  · exact .ok _
  · exact parameterList_faults hts
termination_by 5 * ts.length + 2

theorem parameterList_faults {seen : List String} {ts : Tokens} (hts : ts <:+ us) :
    FailsOnly (IsFaultOf us) (parameterList seen ts) := by
  rw [parameterList]
  refine .bind (expectSymbol_faults hts) ?_
  rintro ⟨name, p, ts₁, h₁⟩ hname
  have hv := (suffix_of_visible (expectSymbol_inv hname)).trans hts
  dsimp only
  split
  -- a repeated name is at fault where it stands
  · exact .error (.atToken (hv.mem List.mem_cons_self))
  · refine .bind (parameterDefault_faults (rest_suffix hv)) ?_
    rintro ⟨default, ts₂, h₂⟩ hd
    have hts₂ := (reads_parameterDefault hd).suffix.trans (rest_suffix hv)
    dsimp only
    split
    · exact .ok _
    · next q ts₃ hcomma =>
      have := visible_cons_length hcomma
      refine .bind (parameterList_faults ((rest_suffix_of_visible hcomma).trans hts₂)) ?_
      rintro ⟨more, rest, h₃⟩ -
      exact .ok _
    · exact problemAt_faults ((visible_suffix _ _).trans hts₂) _
termination_by 5 * ts.length + 1

theorem parameterDefault_faults {ts : Tokens} (hts : ts <:+ us) :
    FailsOnly (IsFaultOf us) (parameterDefault ts) := by
  rw [parameterDefault]
  split
  · next p ts₁ hv =>
    have := visible_cons_length hv
    refine .bind (expression_faults ((rest_suffix_of_visible hv).trans hts)) ?_
    rintro ⟨default, rest, h₁⟩ -
    exact .ok _
  · exact .ok _
termination_by 5 * ts.length + 1

theorem operatorForm_faults {region : Region} {t : Token} {left : Node} {ts : Tokens}
    (hts : t :: ts <:+ us) : FailsOnly (IsFaultOf us) (operatorForm region t left ts) := by
  have hskip := skipBreaks_length ts
  have hrest := rest_suffix hts
  rw [operatorForm]
  split
  · next ht =>
    refine .bind (arguments_faults hts (by rw [ht]; rfl)) ?_
    rintro ⟨args, rest, h₁⟩ -
    exact .ok _
  · next ht =>
    refine .bind (arguments_faults hts (by rw [ht]; rfl)) ?_
    rintro ⟨args, rest, h₁⟩ -
    exact .ok _
  -- a `[[`, whose second closing bracket is looked for behind the arguments
  · next ht =>
    refine .bind (arguments_faults hts (by rw [ht]; rfl)) ?_
    rintro ⟨args, ts₁, h₁⟩ ha
    refine .bind (expect_faults ((reads_arguments ha).suffix.trans hrest)) ?_
    rintro ⟨rest, h₂⟩ -
    exact .ok _
  -- operators, first those that take the name of a member
  · split
    · refine .bind (member_faults hrest) ?_
      rintro ⟨right, rest, h₁⟩ -
      exact .ok _
    · split
      · exact unexpected_faults hts
      · split
        · exact unexpected_faults hts
        · refine .bind (expression_faults ((skipBreaks_suffix ts).trans hrest)) ?_
          rintro ⟨right, rest, h₁⟩ -
          refine .bind (combine_faults (hts.mem List.mem_cons_self)) ?_
          rintro n -
          exact .ok _
  · exact unexpected_faults hts
termination_by 5 * ts.length + 4

theorem arguments_faults {closing : Closing} {opener : Token} {ts : Tokens}
    (hts : opener :: ts <:+ us) (hopener : startsArgument opener.lexeme = true) :
    FailsOnly (IsFaultOf us) (arguments closing ts) := by
  rw [arguments]
  split
  · exact unexpected_faults List.nil_suffix
  · split
    · exact .ok _
    · exact argumentList_faults hts hopener
termination_by 5 * ts.length + 3

theorem argumentList_faults {closing : Closing} {opener : Token} {ts : Tokens}
    (hts : opener :: ts <:+ us) (hopener : startsArgument opener.lexeme = true) :
    FailsOnly (IsFaultOf us) (argumentList closing ts) := by
  rw [argumentList]
  refine .bind (argument_faults hts hopener) ?_
  rintro ⟨a, ts₁, h₁⟩ ha
  have hts₁ := (reads_argument ha).suffix.trans (rest_suffix hts)
  dsimp only
  split
  · exact problemAt_faults List.nil_suffix _
  · next t ts₂ hv =>
    have := visible_cons_length hv
    have hts₂ := (suffix_of_visible hv).trans hts₁
    split
    · exact .ok _
    · split
      · next hcomma =>
        obtain ⟨l, p⟩ := t
        obtain rfl : l = .comma := hcomma
        refine .bind (argumentList_faults hts₂ rfl) ?_
        rintro ⟨more, rest, h₂⟩ -
        exact .ok _
      · exact problemAt_faults hts₂ _
termination_by 5 * ts.length + 2

theorem argument_faults {closing : Closing} {opener : Token} {ts : Tokens}
    (hts : opener :: ts <:+ us) (hopener : startsArgument opener.lexeme = true) :
    FailsOnly (IsFaultOf us) (argument closing ts) := by
  have hrest := rest_suffix hts
  rw [argument]
  split
  · exact unexpected_faults List.nil_suffix
  · next t ts₁ hv =>
    have hlt := visible_cons_length hv
    have hts₁ := (suffix_of_visible hv).trans hrest
    split
    · exact problemAt_faults hts₁ _
    · split
      -- an argument without a name
      · refine .bind (expression_faults hrest) ?_
        rintro ⟨value, rest⟩ -
        exact .ok _
      · next name ts₂ h₂ hname =>
        have hts₂ := (suffix_of_afterName (afterName?_eq hname)).trans (rest_suffix hts₁)
        split
        · exact problemAt_faults ((visible_suffix _ _).trans hts₂) _
        · refine .bind (expression_faults hts₂) ?_
          rintro ⟨value, rest, h₃⟩ -
          dsimp only
          split
          -- the name is looked at only behind the value
          · next hempty =>
            subst hempty
            exact .error (.emptyName ⟨opener, ts, t, ts₁, ts₂, hts, hopener, hv, afterName?_eq hname⟩)
          · exact .ok _
termination_by 5 * ts.length + 1

end

/-- The fault of tokens that form no program lies in them. -/
theorem program_faults {ts : Tokens} (hts : ts <:+ us) :
    FailsOnly (IsFaultOf us) (program ts) := by
  fun_induction program ts with
  | case1 => exact .ok _
  | case2 ts hskip t rest hfirst hlength ih =>
    have hts₁ := (suffix_of_skipSeparators hfirst).trans hts
    refine .bind (expression_faults hts₁) ?_
    rintro ⟨n, ts₂, h₂⟩ hn
    have hts₂ := (reads_expression hn).suffix.trans hts₁
    dsimp only
    split
    · exact .bind (ih ts₂ h₂ hts₂) fun _ _ => .ok _
    · exact unexpected_faults hts₂

end RCode.Parser
