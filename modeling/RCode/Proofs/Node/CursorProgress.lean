import RCode.Proofs.Node.CursorReading
import RCode.Proofs.Node.Grammar

/-!
# A cursor makes progress

Wherever it starts, with whatever power and whatever operator or bracket just taken, a run of the
functions in `RCode.Proofs.Node.Cursor` ends: with all fuel beyond a bound that the number of tokens
gives it has the same outcome (`Cursor.Ends`). It looks at no cell outside of the row, and if it has
a result, the cursor is further on and in the regions where it started (`Cursor.run_balanced`).

For the powers of the parser this is read off the agreement with the parser, whose functions say how
many tokens they leave. A power below 0 takes any cell for an operator, the end of the row included;
such a run goes on as long as there are operators and stops at the first cell that is none.
-/

set_option autoImplicit false

namespace RCode

namespace Parser

/-! ## Operands of several tokens -/

/-- An operand that starts with the lexeme has further tokens. -/
def isCompound : Lexeme → Bool
  | .leftBrace => true
  | .keyword .ifWord => true
  | .keyword .whileWord => true
  | .keyword .forWord => true
  | .keyword .functionWord => true
  | _ => false

/-- An operand of several tokens leaves fewer than stand behind the first. -/
theorem operand_length {region : Region} {t : Token} {ts : Tokens} {n : Node} {r : NoMore ts}
    (ht : isCompound t.lexeme = true) (h : operand region t ts = .ok (n, r)) :
    r.1.length < ts.length := by
  obtain ⟨rest, hrest⟩ := r
  have hexpression : ∀ {region : Region} {us rest : Tokens} {m : Node},
      Reads (.expression region 0) (skipBreaks us) (.node m) rest → rest.length < us.length := by
    intro region us rest m hm
    obtain ⟨hlt, -⟩ := hm.succeeds
    exact Nat.lt_of_lt_of_le hlt (skipBreaks_length us)
  have hreads : Reads (.operand region t) ts (.node n) rest := reads_operand h
  show rest.length < ts.length
  cases hreads with
  | block _ hbody =>
    obtain ⟨hlt, -⟩ := hbody.succeeds
    exact hlt
  | conditional _ hcondition hbody _ =>
    obtain ⟨hlt, -⟩ := hcondition.succeeds
    exact Nat.lt_trans (hexpression hbody) hlt
  | alternative _ hcondition hbody helse hother =>
    obtain ⟨hlt, -⟩ := hcondition.succeeds
    obtain ⟨hle, -⟩ := elseBranch?_eq helse
    have := hexpression hbody
    have := hexpression hother
    omega
  | whileLoop _ hcondition hbody =>
    obtain ⟨hlt, -⟩ := hcondition.succeeds
    exact Nat.lt_trans (hexpression hbody) hlt
  | forLoop _ hopen hname hin hsequence hclose hbody =>
    obtain ⟨hlt, -⟩ := hsequence.succeeds
    have := visible_cons_length hopen
    have := visible_cons_length hname
    have := visible_cons_length hin
    have := visible_cons_length hclose
    have := hexpression hbody
    omega
  | definition _ hopen hparameters hbody =>
    obtain ⟨hlt, -⟩ := hparameters.succeeds
    have := visible_cons_length hopen
    have := hexpression hbody
    omega
  | literal hl =>
    obtain ⟨l, p⟩ := t
    cases l <;> cases hl <;> cases ht
  | symbol heq | prefixed heq | group heq | repeatLoop heq | breakJump heq | nextJump heq =>
    rw [heq] at ht
    cases ht

end Parser

namespace Cursor

open RCode.Parser (Tokens Fewer)

variable {α β : Type} {text : TokenText} {c c' : Cursor} {least fuel : Nat}

/-! ## Runs that settle -/

/-- The cursor gets at least `least` cells on, stays in the row and is in the same regions again. -/
structure Reaches (text : TokenText) (c : Cursor) (least : Nat) (c' : Cursor) : Prop where
  regions_eq : c'.regions = c.regions
  forward : c.place + least ≤ c'.place
  inside : c'.place ≤ text.tokens.length

/-- The outcome of a run that ends. It never was outside of the row, nor without a region. -/
inductive Settles (text : TokenText) (c : Cursor) (least : Nat) :
    Option (Except Fault (α × Cursor)) → Prop
  | result {a : α} {c' : Cursor} :
      Reaches text c least c' → Settles text c least (some (.ok (a, c')))
  | fault {e : Fault} : e ≠ .outside → e ≠ .noRegion → Settles text c least (some (.error e))

/-- A text that is refused settles the run. -/
theorem settles_malformed {problem : SyntaxProblem} {p : Position} :
    Settles text c least
      (some (.error (.malformed problem p)) : Option (Except Fault (α × Cursor))) :=
  .fault (by rintro ⟨⟩) (by rintro ⟨⟩)

/-- A node that cannot be built settles the run. -/
theorem settles_refused {e : NodeError} :
    Settles text c least (some (.error (.refused e)) : Option (Except Fault (α × Cursor))) :=
  .fault (by rintro ⟨⟩) (by rintro ⟨⟩)

theorem settles_noOperator :
    Settles text c least (some (.error .noOperator) : Option (Except Fault (α × Cursor))) :=
  .fault (by rintro ⟨⟩) (by rintro ⟨⟩)

theorem Settles.mono {more : Nat} (hle : least ≤ more) {o : Option (Except Fault (α × Cursor))}
    (h : Settles text c more o) : Settles text c least o := by
  cases h with
  | result hr => exact .result ⟨hr.regions_eq, by have := hr.forward; omega, hr.inside⟩
  | fault houtside hregion => exact .fault houtside hregion

/-- Steps that settle wherever the steps before them end settle after them. -/
theorem Settles.bind {first second : Nat} {x : Run α} {f : α → Run β}
    (h : Settles text c first (outcome x c))
    (hnext : ∀ a c', Reaches text c first c' → Settles text c' second (outcome (f a) c')) :
    Settles text c (first + second) (outcome (x >>= f) c) := by
  rw [outcome_bind]
  generalize outcome x c = o at h
  cases h with
  | fault houtside hregion => exact .fault houtside hregion
  | @result a c' hr =>
    have hsecond := hnext a c' hr
    dsimp only
    generalize outcome (f a) c' = o at hsecond
    cases hsecond with
    | fault houtside hregion => exact .fault houtside hregion
    | result hr' =>
      refine .result ⟨hr'.regions_eq.trans hr.regions_eq, ?_, hr'.inside⟩
      have := hr.forward
      have := hr'.forward
      omega

/-- The steps at the start take the cursor on, and those behind them do not take it back. -/
theorem Settles.first {x : Run α} {f : α → Run β} (h : Settles text c least (outcome x c))
    (hnext : ∀ a c', Reaches text c least c' → Settles text c' 0 (outcome (f a) c')) :
    Settles text c least (outcome (x >>= f) c) :=
  h.bind hnext

/-- The steps behind others take the cursor on. -/
theorem Settles.next {x : Run α} {f : α → Run β} (h : Settles text c 0 (outcome x c))
    (hnext : ∀ a c', Reaches text c 0 c' → Settles text c' least (outcome (f a) c')) :
    Settles text c least (outcome (x >>= f) c) := by
  rw [← Nat.zero_add least]
  exact h.bind hnext

theorem settles_fault {e : ParseFault} :
    Settles text c least
      (some (.error (.ofParse text.stop e)) : Option (Except Fault (α × Cursor))) := by
  cases e with
  | malformed => exact settles_malformed
  | emptyArgumentName => exact settles_refused

/-- The number of tokens from the cursor on tells its place. -/
theorem Stands.place_add {regions : List Region} {ts : Tokens} (h : Stands text c regions ts) :
    c.place + ts.length = text.tokens.length := by
  rw [← h.left, List.length_drop]
  exact Nat.add_sub_cancel' h.inside

theorem Stands.reaches {regions : List Region} {ts rest : Tokens} (h : Stands text c regions ts)
    (h' : Stands text c' regions rest) (hlength : rest.length + least ≤ ts.length) :
    Reaches text c least c' := by
  refine ⟨h'.regions_eq.trans h.regions_eq.symm, ?_, h'.inside⟩
  have := h.place_add
  have := h'.place_add
  omega

/-- A run that does as the parser does settles, by as many cells as the parser takes tokens. -/
theorem Agrees.settles {regions : List Region} {ts : Tokens} {p : Tokens → Prop}
    {o : Option (Except Fault (α × Cursor))} {r : Except ParseFault (α × { rest // p rest })}
    (h : Agrees text (Leaves text regions) o r) (hc : Stands text c regions ts)
    (hr : ∀ a b, r = .ok (a, b) → b.1.length + least ≤ ts.length) : Settles text c least o := by
  cases h with
  | ok hleaves => exact .result (hc.reaches hleaves.2 (hr _ _ rfl))
  | error e => exact settles_fault
  | refused _ => exact settles_refused

/-- What a run results in, and the tokens from the cursor on. -/
def reading (text : TokenText) (x : Run α) (c : Cursor) : Option (Except Fault (α × Tokens)) :=
  (outcome x c).map (Except.map fun r => (r.1, text.tokens.drop r.2.place))

/-- If the tokens are well formed, a run that does as the parser does reads what it reads. -/
theorem Agrees.reading_eq {regions : List Region} {p : Tokens → Prop} {x : Run α}
    {r : Except ParseFault (α × { rest // p rest })}
    (h : Agrees text (Leaves text regions) (outcome x c) r) (hw : WellFormedTokens text.tokens) :
    reading text x c =
      some ((r.map fun b => (b.1, b.2.1)).mapError (Fault.ofParse text.stop)) := by
  unfold reading
  generalize outcome x c = o at h
  cases h with
  | @ok a c' b hleaves =>
    obtain ⟨rfl, hs⟩ := hleaves
    rw [Option.map_some, Except.map, hs.left]
    rfl
  | error e => rfl
  | refused hill => exact absurd hw hill

/-! ## Steps -/

/-- The number of tokens from the cursor on. -/
def unread (text : TokenText) (c : Cursor) : Nat :=
  (text.tokens.drop c.place).length

theorem Reaches.unread_add (h : Reaches text c least c') :
    unread text c' + least ≤ unread text c := by
  have := h.forward
  have := h.inside
  rw [unread, unread, List.length_drop, List.length_drop]
  omega

/-- A cursor in the row and in some region. -/
def Ready (text : TokenText) (c : Cursor) : Prop :=
  c.place ≤ text.tokens.length ∧ c.regions ≠ []

theorem Reaches.ready (hc : Ready text c) (h : Reaches text c least c') : Ready text c' :=
  ⟨h.inside, h.regions_eq ▸ hc.2⟩

theorem Ready.stands (hc : Ready text c) :
    ∃ region outer, Stands text c (region :: outer) (text.tokens.drop c.place) := by
  obtain ⟨region, outer, hregions⟩ := List.exists_cons_of_ne_nil hc.2
  exact ⟨region, outer, hregions, hc.1, rfl⟩

theorem Ready.settles_pure (hc : Ready text c) (a : α) :
    Settles text c 0 (outcome (pure a : Run α) c) :=
  .result ⟨rfl, Nat.le_refl _, hc.1⟩

theorem Ready.settles_build (hc : Ready text c) (x : Except NodeError α) :
    Settles text c 0 (outcome (build x) c) := by
  cases x with
  | ok a => exact hc.settles_pure a
  | error e => exact settles_refused

theorem Ready.settles_skipBreaks (hc : Ready text c) :
    Settles text c 0 (outcome (skipBreaks text) c) := by
  obtain ⟨region, outer, hs⟩ := hc.stands
  obtain ⟨c', hskip, hs'⟩ := hs.skipBreaks
  rw [hskip]
  exact .result (hs.reaches hs' (Parser.skipBreaks_length _))

theorem Ready.settles_peek (hc : Ready text c) : Settles text c 0 (outcome (peek text) c) := by
  obtain ⟨region, outer, hs⟩ := hc.stands
  obtain ⟨c', hpeek, hs'⟩ := hs.peek
  rw [hpeek]
  exact .result (hs.reaches hs' (Parser.visible_length region _))

theorem Ready.settles_advance (hc : Ready text c) :
    Settles text c 0 (outcome (advance text) c) := by
  obtain ⟨region, outer, hs⟩ := hc.stands
  obtain ⟨c', hadvance, hs'⟩ := hs.advance
  rw [hadvance]
  refine .result (hs.reaches hs' ?_)
  have := Parser.visible_length region (text.tokens.drop c.place)
  rw [List.length_tail]
  omega

theorem Ready.settles_expect (hc : Ready text c) (wanted : String) (accepts : Lexeme → Bool) :
    Settles text c 1 (outcome (expect text wanted accepts) c) := by
  obtain ⟨region, outer, hs⟩ := hc.stands
  have h := hs.expect wanted accepts
  generalize outcome (expect text wanted accepts) c = o at h
  generalize Parser.expect region wanted accepts (text.tokens.drop c.place) = r at h
  cases h with
  | @ok token c' b hp => exact .result (hs.reaches hp.2 b.2)
  | error e => exact settles_fault
  | refused _ => exact settles_refused

theorem Ready.settles_member (hc : Ready text c) (operator : String) :
    Settles text c 1 (outcome (member text operator) c) := by
  obtain ⟨region, outer, hs⟩ := hc.stands
  exact (hs.member operator).settles hs fun _ b _ => b.2

/-! ## Operands and arguments -/

/-- What the parser's own powers have is settled by the parser. -/
theorem Ready.settles_expression_of_nat (hc : Ready text c)
    (hf : 5 * unread text c + 1 < fuel) (power : Nat) :
    Settles text c 1 (outcome (expression text fuel power) c) := by
  obtain ⟨region, outer, hs⟩ := hc.stands
  exact ((faithful text fuel).expression hf hs.sees).settles hs fun _ b _ => b.2

theorem Ready.settles_arguments (hc : Ready text c) (hf : 5 * unread text c + 4 < fuel)
    (closing : Parser.Closing) :
    Settles text c 1 (outcome (arguments text fuel closing) c) := by
  obtain ⟨region, outer, hs⟩ := hc.stands
  exact ((faithful text fuel).arguments hf hs).settles hs fun _ b _ => b.2

/-- Any token may stand for an operand, also one that makes no node. -/
theorem Ready.settles_operand (hc : Ready text c) (hf : 5 * unread text c + 5 < fuel)
    (token : Option Token) : Settles text c 0 (outcome (operand text fuel token) c) := by
  obtain ⟨region, outer, hs⟩ := hc.stands
  obtain ⟨less, rfl⟩ : ∃ less, fuel = less + 1 := ⟨fuel - 1, by omega⟩
  cases token with
  | none =>
    rw [operand]
    exact settles_malformed
  | some t =>
    by_cases ht : t.lexeme.WellFormed
    · exact ((faithful text _).operand (fun _ => ht) hf hs).settles hs fun _ b _ => b.2
    · obtain ⟨l, p⟩ := t
      cases l with
      | symbol name | integer n =>
        rw [operand]
        exact hc.settles_build _
      | _ => exact absurd trivial ht

section

variable (hc : Ready text c) (hf : 5 * unread text c + 4 < fuel) (t : Token)

include hc hf

theorem Ready.settles_block : Settles text c 1 (outcome (block text fuel t) c) := by
  obtain ⟨region, outer, hs⟩ := hc.stands
  have hfollows := (faithful text fuel).block t hf hs
  exact hfollows.settles hs fun _ _ h => Parser.operand_length rfl h

theorem Ready.settles_conditional : Settles text c 1 (outcome (conditional text fuel t) c) := by
  obtain ⟨region, outer, hs⟩ := hc.stands
  have hfollows := (faithful text fuel).conditional t hf hs
  exact hfollows.settles hs fun _ _ h => Parser.operand_length rfl h

theorem Ready.settles_whileLoop : Settles text c 1 (outcome (whileLoop text fuel t) c) := by
  obtain ⟨region, outer, hs⟩ := hc.stands
  have hfollows := (faithful text fuel).whileLoop t hf hs
  exact hfollows.settles hs fun _ _ h => Parser.operand_length rfl h

theorem Ready.settles_forLoop : Settles text c 1 (outcome (forLoop text fuel t) c) := by
  obtain ⟨region, outer, hs⟩ := hc.stands
  have hfollows := (faithful text fuel).forLoop t hf hs
  exact hfollows.settles hs fun _ _ h => Parser.operand_length rfl h

theorem Ready.settles_definition : Settles text c 1 (outcome (definition text fuel t) c) := by
  obtain ⟨region, outer, hs⟩ := hc.stands
  have hfollows := (faithful text fuel).definition t hf hs
  exact hfollows.settles hs fun _ _ h => Parser.operand_length rfl h

end

/-! ## Operators -/

/-- Whatever is taken for an operator, there is an operand behind it, or the run stops. -/
theorem Ready.settles_infixForm (hc : Ready text c) (hf : 5 * unread text c + 4 < fuel)
    (name : String) (p : Position) (left : Node) :
    Settles text c 1 (outcome (infixForm text fuel name p left) c) := by
  obtain ⟨less, rfl⟩ : ∃ less, fuel = less + 1 := ⟨fuel - 1, by omega⟩
  rw [infixForm]
  refine (hc.settles_build _).next fun head c₁ h₁ => ?_
  have hc₁ := h₁.ready hc
  split
  · exact (hc₁.settles_member name).first fun right c₂ h₂ => (h₂.ready hc₁).settles_pure _
  · split
    · exact settles_malformed
    · cases hbinary : Operator.binary? name with
      | none => exact settles_noOperator
      | some b =>
        have hpower : (if b.rightAssociative then (b.power : Int) - 1 else b.power) =
            ((Parser.rightPower b : Nat) : Int) := by
          have := (Grammar.binary?_power hbinary).1
          rw [Parser.rightPower]
          split <;> omega
        dsimp only
        rw [hpower]
        refine hc₁.settles_skipBreaks.next fun _ c₂ h₂ => ?_
        have hc₂ := h₂.ready hc₁
        have := h₁.unread_add
        have := h₂.unread_add
        refine (hc₂.settles_expression_of_nat (by omega) _).first fun right c₃ h₃ => ?_
        cases Parser.combine name p left right with
        | ok n => exact (h₃.ready hc₂).settles_pure n
        | error e => exact settles_fault

theorem Ready.settles_operatorForm (hc : Ready text c) (hf : 5 * unread text c + 5 < fuel)
    (token : Option Token) (left : Node) :
    Settles text c 1 (outcome (operatorForm text fuel token left) c) := by
  obtain ⟨less, rfl⟩ : ∃ less, fuel = less + 1 := ⟨fuel - 1, by omega⟩
  have hless : 5 * unread text c + 4 < less := by omega
  cases token with
  | none =>
    rw [operatorForm]
    exact settles_refused
  | some t =>
    obtain ⟨l, p⟩ := t
    cases l with
    | leftParen | leftBracket =>
      rw [operatorForm]
      exact (hc.settles_arguments hless _).first fun args c₁ h₁ => (h₁.ready hc).settles_pure _
    | leftDouble =>
      rw [operatorForm]
      refine (hc.settles_arguments hless _).first fun args c₁ h₁ => ?_
      have hc₁ := h₁.ready hc
      refine .mono (Nat.zero_le 1) ?_
      exact (hc₁.settles_expect _ _).first fun token c₂ h₂ => (h₂.ready hc₁).settles_pure _
    | _ =>
      rw [operatorForm]
      dsimp only
      split
      · exact hc.settles_infixForm hless _ _ _
      · exact settles_refused

/-- Each operator takes the cursor further on, so the operators come to an end. -/
theorem Ready.settles_operators {c : Cursor} {fuel : Nat} (hc : Ready text c)
    (hf : 5 * unread text c + 6 < fuel) (power : Int) (left : Node) :
    Settles text c 0 (outcome (operators text fuel power left) c) := by
  obtain ⟨less, hless⟩ : ∃ less, fuel = less + 1 := ⟨fuel - 1, by omega⟩
  rw [hless, operators]
  refine hc.settles_peek.next fun token c₁ h₁ => ?_
  have hc₁ := h₁.ready hc
  split
  · exact hc₁.settles_pure left
  · refine hc₁.settles_advance.next fun _ c₂ h₂ => ?_
    have hc₂ := h₂.ready hc₁
    have := h₁.unread_add
    have := h₂.unread_add
    have hform := hc₂.settles_operatorForm (by omega : 5 * unread text c₂ + 5 < less) token left
    refine .mono (Nat.zero_le 1) (hform.first fun left' c₃ h₃ => ?_)
    have := h₃.unread_add
    exact (h₃.ready hc₂).settles_operators (by omega) power left'
termination_by fuel

/-- An expression takes the token that it starts with. -/
theorem Ready.settles_expression (hc : Ready text c) (hf : 5 * unread text c + 6 < fuel)
    (power : Int) : Settles text c 1 (outcome (expression text fuel power) c) := by
  obtain ⟨region, outer, hs⟩ := hc.stands
  obtain ⟨less, rfl⟩ : ∃ less, fuel = less + 1 := ⟨fuel - 1, by omega⟩
  rw [expression]
  cases hv : Parser.visible region (text.tokens.drop c.place) with
  | nil =>
    obtain ⟨c₁, hadvance⟩ := hs.advance_nil hv
    obtain ⟨least, rfl⟩ : ∃ least, less = least + 1 := ⟨less - 1, by omega⟩
    rw [outcome_bind_of_ok hadvance, operand]
    exact settles_malformed
  | cons t rest =>
    obtain ⟨c₁, hadvance, hs₁⟩ := hs.advance_cons hv
    have hfirst : Settles text c 1 (outcome (advance text) c) := by
      rw [hadvance]
      exact .result (hs.reaches hs₁ (Parser.visible_cons_length hv))
    refine hfirst.first fun token c₂ h₂ => ?_
    have hc₂ := h₂.ready hc
    have := h₂.unread_add
    refine (hc₂.settles_operand (by omega) token).next fun left c₃ h₃ => ?_
    have := h₃.unread_add
    exact (h₃.ready hc₂).settles_operators (by omega) power left

/-! ## Balance -/

/-- Fuel enough for every run over the row. -/
def enough (text : TokenText) : Nat :=
  5 * text.tokens.length + 7

/-- The run has one outcome for all fuel that is enough, and that settles. -/
def Ends (text : TokenText) (c : Cursor) (least : Nat) (run : Nat → Run α) : Prop :=
  ∃ o, Settles text c least o ∧ ∀ fuel, enough text ≤ fuel → outcome (run fuel) c = o

/-- A run that settles with enough fuel does not change with more. -/
theorem Settles.ends {run : Nat → Run α} (hgrows : ∀ fuel, Extends (run fuel) (run (fuel + 1)))
    (h : Settles text c least (outcome (run (enough text)) c)) : Ends text c least run := by
  refine ⟨_, h, fun fuel hle => ?_⟩
  have hextends := outcome_of_le hgrows hle
  cases ho : outcome (run (enough text)) c with
  | none =>
    rw [ho] at h
    cases h
  | some r => exact hextends c r ho

/-- From the cursor on every function of the parser ends, with at least one cell taken. An operand
starts with a token that has been taken before, and need not have others. -/
structure Balanced (text : TokenText) (c : Cursor) : Prop where
  expression (power : Int) : Ends text c 1 (expression text · power)
  operand (token : Option Token) : Ends text c 0 (operand text · token)
  operatorForm (token : Option Token) (left : Node) :
    Ends text c 1 (operatorForm text · token left)
  block (t : Token) : Ends text c 1 (block text · t)
  conditional (t : Token) : Ends text c 1 (conditional text · t)
  forLoop (t : Token) : Ends text c 1 (forLoop text · t)
  whileLoop (t : Token) : Ends text c 1 (whileLoop text · t)
  definition (t : Token) : Ends text c 1 (definition text · t)
  arguments (closing : Parser.Closing) : Ends text c 1 (arguments text · closing)

theorem unread_le (text : TokenText) (c : Cursor) : unread text c ≤ text.tokens.length := by
  rw [unread, List.length_drop]
  exact Nat.sub_le _ _

theorem Ready.balanced (hc : Ready text c) : Balanced text c := by
  have hunread := unread_le text c
  have hf : 5 * unread text c + 6 < enough text := by
    rw [enough]
    omega
  exact {
    expression := fun power =>
      (hc.settles_expression hf power).ends fun fuel => (grows text fuel).expression power
    operand := fun token =>
      (hc.settles_operand (by omega) token).ends fun fuel => (grows text fuel).operand token
    operatorForm := fun token left =>
      (hc.settles_operatorForm (by omega) token left).ends
        fun fuel => (grows text fuel).operatorForm token left
    block := fun t =>
      (hc.settles_block (by omega) t).ends fun fuel => (grows text fuel).block t
    conditional := fun t =>
      (hc.settles_conditional (by omega) t).ends fun fuel => (grows text fuel).conditional t
    forLoop := fun t =>
      (hc.settles_forLoop (by omega) t).ends fun fuel => (grows text fuel).forLoop t
    whileLoop := fun t =>
      (hc.settles_whileLoop (by omega) t).ends fun fuel => (grows text fuel).whileLoop t
    definition := fun t =>
      (hc.settles_definition (by omega) t).ends fun fuel => (grows text fuel).definition t
    arguments := fun closing =>
      (hc.settles_arguments (by omega) closing).ends
        fun fuel => (grows text fuel).arguments closing
  }

/-- The cursor at the start of the row. -/
def start : Cursor := ⟨0, [.top]⟩

theorem stands_start : Stands text start [.top] text.tokens :=
  ⟨rfl, Nat.zero_le _, rfl⟩

theorem settles_program (hf : 5 * text.tokens.length + 2 < fuel) :
    Settles text start 0 (outcome (program text fuel) start) := by
  have h := program_agrees hf stands_start
  generalize outcome (program text fuel) start = o at h
  generalize Parser.program text.tokens = r at h
  cases h with
  | ok hp => exact .result (stands_start.reaches hp.2 (Nat.zero_le _))
  | error e => exact settles_fault
  | refused _ => exact settles_refused

/-- If the tokens are well formed, a run over the whole row reads what the parser reads. -/
theorem program_eq (hf : 5 * text.tokens.length + 2 < fuel) (hw : WellFormedTokens text.tokens) :
    (outcome (program text fuel) start).map (Except.map Prod.fst) =
      some ((Parser.program text.tokens).mapError (Fault.ofParse text.stop)) := by
  have h := program_agrees hf stands_start
  generalize outcome (program text fuel) start = o at h
  generalize Parser.program text.tokens = r at h
  cases h with
  | ok hp =>
    obtain ⟨rfl, -⟩ := hp
    rfl
  | error e => rfl
  | refused hill => exact absurd hw hill

/-- From every cell and in all regions every function of the parser ends for every power, and so
does a run over the whole row. What is read from well-formed tokens is what the parser reads. -/
theorem run_balanced (text : TokenText) (c : Cursor) (hinside : c.place ≤ text.tokens.length)
    (hregions : c.regions ≠ []) :
    Balanced text c ∧ Ends text start 0 (program text) ∧
      (WellFormedTokens text.tokens → ∀ fuel, enough text ≤ fuel →
        (∀ (region : Region) (outer : List Region) (power : Nat), c.regions = region :: outer →
          reading text (expression text fuel power) c =
            some (((Parser.expression region power (text.tokens.drop c.place)).map
              fun r => (r.1, r.2.1)).mapError (Fault.ofParse text.stop))) ∧
        (outcome (program text fuel) start).map (Except.map Prod.fst) =
          some ((Parser.program text.tokens).mapError (Fault.ofParse text.stop))) := by
  have hready : Ready text c := ⟨hinside, hregions⟩
  have hprogram : Settles text start 0 (outcome (program text (enough text)) start) :=
    settles_program (by rw [enough]; omega)
  refine ⟨hready.balanced, hprogram.ends (program_grows text), fun hw fuel hfuel => ?_⟩
  have hunread := unread_le text c
  rw [enough] at hfuel
  refine ⟨fun region outer power hc => ?_, program_eq (by omega) hw⟩
  have hs : Stands text c (region :: outer) (text.tokens.drop c.place) := ⟨hc, hinside, rfl⟩
  have hf : 5 * unread text c + 1 < fuel := by omega
  exact ((faithful text fuel).expression hf hs.sees).reading_eq hw

/-- A call over several lines in a block, with brackets inside of brackets: every run from before it
ends with the regions as they were, and the call is what is read. -/
theorem run_balanced_lines :
    let text : TokenText := ⟨[⟨.symbol "f", ⟨1, 1⟩⟩, ⟨.leftParen, ⟨1, 2⟩⟩, ⟨.newline, ⟨1, 3⟩⟩,
      ⟨.leftParen, ⟨2, 3⟩⟩, ⟨.symbol "x", ⟨2, 4⟩⟩, ⟨.newline, ⟨2, 5⟩⟩, ⟨.rightParen, ⟨3, 3⟩⟩,
      ⟨.newline, ⟨3, 4⟩⟩, ⟨.rightParen, ⟨4, 1⟩⟩, ⟨.newline, ⟨4, 2⟩⟩], ⟨5, 1⟩⟩
    let c : Cursor := ⟨0, [.block, .top]⟩
    let inner := Parser.keywordCall "(" ⟨2, 3⟩ [.symbol "x" ⟨2, 4⟩]
    let n : Node := .call (.symbol "f" ⟨1, 1⟩) [⟨none, inner⟩] ⟨1, 1⟩
    c.place ≤ text.tokens.length ∧ c.regions ≠ [] ∧ Balanced text c ∧
      WellFormedTokens text.tokens ∧ enough text ≤ 57 ∧
        reading text (expression text 57 0) c = some (.ok (n, [⟨.newline, ⟨4, 2⟩⟩])) := by
  intro text c inner n
  have hinside : c.place ≤ text.tokens.length := Nat.zero_le 10
  have hregions : c.regions ≠ [] := List.cons_ne_nil _ _
  have hw : WellFormedTokens text.tokens := by
    simp [text, WellFormedTokens, Lexeme.WellFormed]
  have hfuel : enough text ≤ 57 := Nat.le_refl 57
  obtain ⟨hbalanced, -, hreads⟩ := run_balanced text c hinside hregions
  refine ⟨hinside, hregions, hbalanced, hw, hfuel, ?_⟩
  -- the parser reads the inner brackets, the arguments with the outer ones, and the call
  have hinner : Parser.Reads (.expression .bracket 0) (text.tokens.drop 2) (.node inner)
      (text.tokens.drop 8) := by
    refine .expression rfl (.group rfl (.expression rfl (.symbol rfl) (.done ?_)) rfl) (.done ?_)
    · rintro t ⟨⟩
      exact Nat.le_refl 0
    · rintro t ⟨⟩
      exact Nat.le_refl 0
  have hargs : Parser.Reads (.arguments .paren) (text.tokens.drop 2) (.args [⟨none, inner⟩])
      (text.tokens.drop 9) :=
    .someArguments rfl rfl (.lastArgument (.unnamed rfl rfl rfl hinner) rfl rfl)
  have hcall : Parser.Reads (.expression .block 0) text.tokens (.node n) (text.tokens.drop 9) := by
    refine .expression rfl (.symbol rfl) (.more rfl (by decide) (.application rfl hargs) (.done ?_))
    rintro t ⟨⟩
    exact Nat.le_refl 0
  obtain ⟨_, hparser⟩ : ∃ h, Parser.expression .block 0 (text.tokens.drop c.place) =
      .ok (n, ⟨text.tokens.drop 9, h⟩) := hcall.succeeds
  exact ((hreads hw 57 hfuel).1 .block [.top] 0 rfl).trans (by rw [hparser]; rfl)

end Cursor

end RCode
