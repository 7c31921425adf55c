import RCode.Proofs.Node.CursorFuel
import RCode.Proofs.Node.ParsedTrees

/-!
# A cursor reads what the parser reads

From a cursor that stands before some tokens, in some regions, a run of a function in
`RCode.Proofs.Node.Cursor` ends with what the function of the parser returns for these tokens in the
innermost region: with the same result, before the tokens that the parser leaves over and in the
regions where it started, or with the same fault (`Cursor.faithful`).

The places of the cursor are views of the tokens that are left (`Stands`), and sequences of steps
are compared bind by bind (`Agrees.bind`). The proof is an induction over the fuel: a function
follows the parser if the functions that it calls do so with one less.
-/

set_option autoImplicit false

namespace RCode.Cursor

open RCode.Parser (Tokens Fewer)

variable {α β γ δ : Type}

/-! ## Places in the row -/

/-- The cursor is in the regions, and the tokens `ts` are those from it on. -/
structure Stands (text : TokenText) (c : Cursor) (regions : List Region) (ts : Tokens) : Prop where
  regions_eq : c.regions = regions
  inside : c.place ≤ text.tokens.length
  left : text.tokens.drop c.place = ts

variable {text : TokenText} {c : Cursor} {regions outer : List Region} {region : Region}
  {ts rest : Tokens} {t : Token}

theorem cells_getElem? {i : Nat} (hi : i ≤ text.tokens.length) :
    text.cells[i]? = some (text.tokens.drop i).head? := by
  rw [TokenText.cells, List.head?_drop]
  rcases Nat.lt_or_eq_of_le hi with hlt | rfl
  · rw [List.getElem?_append_left (by simpa using hlt)]
    simp [hlt]
  · simp

theorem outcome_cell {i : Nat} (hi : i ≤ text.tokens.length) (c : Cursor) :
    outcome (cell text i) c = some (.ok ((text.tokens.drop i).head?, c)) := by
  unfold cell
  rw [cells_getElem? hi]
  rfl

theorem past_eq (skipped : Lexeme → Bool) {i : Nat} (hi : i ≤ text.tokens.length) :
    past text skipped i =
      if holds skipped (text.tokens.drop i).head? then past text skipped (i + 1) else pure i := by
  rw [past]
  split
  · next hnone =>
    rw [cells_getElem? hi] at hnone
    cases hnone
  · next token hsome =>
    rw [cells_getElem? hi] at hsome
    cases hsome
    rfl

/-- The cells that pass a test are passed one by one. The end passes none. -/
theorem outcome_past (skipped : Lexeme → Bool) (ts : Tokens) :
    ∀ i, i ≤ text.tokens.length → text.tokens.drop i = ts → ∃ j,
      (∀ c, outcome (past text skipped i) c = some (.ok (j, c))) ∧ j ≤ text.tokens.length ∧
        text.tokens.drop j = ts.dropWhile fun t => skipped t.lexeme := by
  induction ts with
  | nil =>
    intro i hi hleft
    refine ⟨i, fun c => ?_, hi, hleft⟩
    rw [past_eq skipped hi, hleft]
    rfl
  | cons t rest ih =>
    intro i hi hleft
    have hlt : i < text.tokens.length := by
      refine Nat.lt_of_le_of_ne hi fun heq => ?_
      rw [heq, List.drop_length] at hleft
      cases hleft
    have hnext : text.tokens.drop (i + 1) = rest := by
      rw [← List.tail_drop, hleft]
      rfl
    have hfirst : holds skipped (some t) = skipped t.lexeme := rfl
    cases hskip : skipped t.lexeme with
    | false =>
      refine ⟨i, fun c => ?_, hi, ?_⟩
      · rw [past_eq skipped hi, hleft, List.head?_cons, hfirst, hskip, if_neg (by decide)]
        rfl
      · rw [hleft, List.dropWhile_cons_of_neg (by simp [hskip])]
    | true =>
      obtain ⟨j, hrun, hj, hdrop⟩ := ih (i + 1) hlt hnext
      refine ⟨j, fun c => ?_, hj, ?_⟩
      · rw [past_eq skipped hi, hleft, List.head?_cons, hfirst, hskip, if_pos rfl]
        exact hrun c
      · rw [hdrop, List.dropWhile_cons, hskip, if_pos rfl]

theorem skipBreaks_eq (ts : Tokens) :
    Parser.skipBreaks ts = ts.dropWhile fun t => isBreak t.lexeme := by
  fun_induction Parser.skipBreaks ts with
  | case1 p rest ih => exact ih
  | case2 ts hne =>
    cases ts with
    | nil => rfl
    | cons t rest =>
      obtain ⟨l, p⟩ := t
      cases l with
      | newline => exact absurd rfl (hne p rest)
      | _ => rfl

theorem skipSeparators_eq (ts : Tokens) :
    Parser.skipSeparators ts = ts.dropWhile fun t => isSeparator t.lexeme := by
  fun_induction Parser.skipSeparators ts with
  | case1 p rest ih => exact ih
  | case2 p rest ih => exact ih
  | case3 ts hnewline hsemicolon =>
    cases ts with
    | nil => rfl
    | cons t rest =>
      obtain ⟨l, p⟩ := t
      cases l with
      | newline => exact absurd rfl (hnewline p rest)
      | semicolon => exact absurd rfl (hsemicolon p rest)
      | _ => rfl

namespace Stands

theorem skip (h : Stands text c regions ts) (skipped : Lexeme → Bool) :
    ∃ c', outcome (Cursor.skip text skipped) c = some (.ok ((), c')) ∧
      Stands text c' regions (ts.dropWhile fun t => skipped t.lexeme) := by
  obtain ⟨j, hrun, hj, hleft⟩ := outcome_past skipped ts c.place h.inside h.left
  refine ⟨{ c with place := j }, ?_, h.regions_eq, hj, hleft⟩
  have hget : outcome (get : Run Cursor) c = some (.ok (c, c)) := rfl
  rw [Cursor.skip, outcome_bind_of_ok hget, outcome_bind_of_ok (hrun c)]
  rfl

theorem skipBreaks (h : Stands text c regions ts) :
    ∃ c', outcome (Cursor.skipBreaks text) c = some (.ok ((), c')) ∧
      Stands text c' regions (Parser.skipBreaks ts) := by
  rw [skipBreaks_eq]
  exact h.skip _

theorem skipSeparators (h : Stands text c regions ts) :
    ∃ c', outcome (Cursor.skipSeparators text) c = some (.ok ((), c')) ∧
      Stands text c' regions (Parser.skipSeparators ts) := by
  rw [skipSeparators_eq]
  exact h.skip _

theorem top (h : Stands text c (region :: outer) ts) :
    outcome Cursor.region c = some (.ok (region, c)) := by
  have hget : outcome (get : Run Cursor) c = some (.ok (c, c)) := rfl
  rw [Cursor.region, outcome_bind_of_ok hget, h.regions_eq]
  rfl

theorem enter (h : Stands text c regions ts) (r : Region) :
    ∃ c', outcome (Cursor.enter r) c = some (.ok ((), c')) ∧ Stands text c' (r :: regions) ts :=
  ⟨_, rfl, congrArg (List.cons r) h.regions_eq, h.inside, h.left⟩

theorem leave (h : Stands text c (region :: outer) ts) :
    ∃ c', outcome Cursor.leave c = some (.ok ((), c')) ∧ Stands text c' outer ts := by
  refine ⟨{ c with regions := outer }, ?_, rfl, h.inside, h.left⟩
  have hget : outcome (get : Run Cursor) c = some (.ok (c, c)) := rfl
  rw [Cursor.leave, outcome_bind_of_ok hget, h.regions_eq]
  rfl

/-- The cursor sees the tokens that the region shows. -/
theorem peek (h : Stands text c (region :: outer) ts) :
    ∃ c', outcome (Cursor.peek text) c =
        some (.ok ((Parser.visible region ts).head?, c')) ∧
      Stands text c' (region :: outer) (Parser.visible region ts) := by
  have hget : ∀ c, outcome (get : Run Cursor) c = some (.ok (c, c)) := fun _ => rfl
  rw [Cursor.peek, outcome_bind_of_ok h.top]
  cases region with
  | bracket =>
    obtain ⟨c', hskip, h'⟩ := h.skipBreaks
    refine ⟨c', ?_, h'⟩
    rw [outcome_bind_of_ok hskip, outcome_bind_of_ok (hget c'), outcome_cell h'.inside, h'.left]
    rfl
  | top | block =>
    refine ⟨c, ?_, h⟩
    rw [outcome_bind_of_ok (hget c), outcome_cell h.inside, h.left]
    rfl

/-- The cursor takes the first token that the region shows. At the end it stays there. -/
theorem advance (h : Stands text c (region :: outer) ts) :
    ∃ c', outcome (Cursor.advance text) c =
        some (.ok ((Parser.visible region ts).head?, c')) ∧
      Stands text c' (region :: outer) (Parser.visible region ts).tail := by
  obtain ⟨c', hpeek, h'⟩ := h.peek
  have hget : outcome (get : Run Cursor) c' = some (.ok (c', c')) := rfl
  have hlength : text.cells.length = text.tokens.length + 1 := by simp [TokenText.cells]
  rw [Cursor.advance, outcome_bind_of_ok hpeek, outcome_bind_of_ok hget, hlength]
  rcases Nat.lt_or_eq_of_le h'.inside with hlt | heq
  · refine ⟨{ c' with place := c'.place + 1 }, ?_, h'.regions_eq, hlt, ?_⟩
    · rw [if_pos (Nat.succ_lt_succ hlt)]
      rfl
    · rw [← h'.left, List.tail_drop]
  · refine ⟨c', ?_, h'.regions_eq, h'.inside, ?_⟩
    · rw [if_neg (by omega)]
      rfl
    · rw [← h'.left, List.tail_drop, heq, List.drop_length, List.drop_eq_nil_of_le (by omega)]

theorem peek_nil (h : Stands text c (region :: outer) ts) (hv : Parser.visible region ts = []) :
    ∃ c', outcome (Cursor.peek text) c = some (.ok (none, c')) ∧
      Stands text c' (region :: outer) [] := by
  obtain ⟨c', hpeek, h'⟩ := h.peek
  rw [hv] at hpeek h'
  exact ⟨c', hpeek, h'⟩

theorem advance_nil (h : Stands text c (region :: outer) ts)
    (hv : Parser.visible region ts = []) :
    ∃ c', outcome (Cursor.advance text) c = some (.ok (none, c')) := by
  obtain ⟨c', hadvance, -⟩ := h.advance
  rw [hv] at hadvance
  exact ⟨c', hadvance⟩

theorem advance_cons (h : Stands text c (region :: outer) ts)
    (hv : Parser.visible region ts = t :: rest) :
    ∃ c', outcome (Cursor.advance text) c = some (.ok (some t, c')) ∧
      Stands text c' (region :: outer) rest := by
  obtain ⟨c', hadvance, h'⟩ := h.advance
  rw [hv] at hadvance h'
  exact ⟨c', hadvance, h'⟩

/-- The cursor sees a token and can take it then. -/
theorem peek_cons (h : Stands text c (region :: outer) ts)
    (hv : Parser.visible region ts = t :: rest) :
    ∃ c₁ c₂, outcome (Cursor.peek text) c = some (.ok (some t, c₁)) ∧
      Stands text c₁ (region :: outer) (t :: rest) ∧
      outcome (Cursor.advance text) c₁ = some (.ok (some t, c₂)) ∧
      Stands text c₂ (region :: outer) rest := by
  obtain ⟨c₁, hpeek, h₁⟩ := h.peek
  rw [hv] at hpeek h₁
  have hv' : Parser.visible region (t :: rest) = t :: rest := by
    rw [← hv, Parser.visible_visible]
  obtain ⟨c₂, hadvance, h₂⟩ := h₁.advance_cons hv'
  exact ⟨c₁, c₂, hpeek, h₁, hadvance, h₂⟩

end Stands

/-- The cursor is in the regions, and the innermost one shows the tokens from it on as it shows
`ts`. Once it has looked at a token, a cursor in brackets is behind the line breaks before it. -/
def Sees (text : TokenText) (c : Cursor) (region : Region) (outer : List Region) (ts : Tokens) :
    Prop :=
  ∃ left, Stands text c (region :: outer) left ∧
    Parser.visible region left = Parser.visible region ts

theorem Stands.sees (h : Stands text c (region :: outer) ts) : Sees text c region outer ts :=
  ⟨ts, h, rfl⟩

theorem Stands.sees_visible (h : Stands text c (region :: outer) (Parser.visible region ts)) :
    Sees text c region outer ts :=
  ⟨_, h, Parser.visible_visible region ts⟩

namespace Sees

theorem peek (h : Sees text c region outer ts) :
    ∃ c', outcome (Cursor.peek text) c =
        some (.ok ((Parser.visible region ts).head?, c')) ∧
      Stands text c' (region :: outer) (Parser.visible region ts) := by
  obtain ⟨left, hleft, hv⟩ := h
  rw [← hv]
  exact hleft.peek

theorem advance_nil (h : Sees text c region outer ts) (hv : Parser.visible region ts = []) :
    ∃ c', outcome (Cursor.advance text) c = some (.ok (none, c')) := by
  obtain ⟨left, hleft, hsame⟩ := h
  exact hleft.advance_nil (hsame.trans hv)

theorem advance_cons (h : Sees text c region outer ts)
    (hv : Parser.visible region ts = t :: rest) :
    ∃ c', outcome (Cursor.advance text) c = some (.ok (some t, c')) ∧
      Stands text c' (region :: outer) rest := by
  obtain ⟨left, hleft, hsame⟩ := h
  exact hleft.advance_cons (hsame.trans hv)

/-- The first token that the cursor sees is one of the row. -/
theorem mem (h : Sees text c region outer ts) (hv : Parser.visible region ts = t :: rest) :
    t ∈ text.tokens := by
  obtain ⟨left, hleft, hsame⟩ := h
  have hsuffix := Parser.suffix_of_visible (hsame.trans hv)
  rw [← hleft.left] at hsuffix
  exact List.mem_of_mem_drop (hsuffix.mem List.mem_cons_self)

theorem peek_cons (h : Sees text c region outer ts)
    (hv : Parser.visible region ts = t :: rest) :
    ∃ c₁ c₂, outcome (Cursor.peek text) c = some (.ok (some t, c₁)) ∧
      Stands text c₁ (region :: outer) (t :: rest) ∧
      outcome (Cursor.advance text) c₁ = some (.ok (some t, c₂)) ∧
      Stands text c₂ (region :: outer) rest := by
  obtain ⟨left, hleft, hsame⟩ := h
  exact hleft.peek_cons (hsame.trans hv)

end Sees

/-! ## Agreement with the parser -/

/-- The outcome of a run is what a function of the parser returns, where `P` relates the results.
If there are ill-formed tokens, it may also be that a node is refused. -/
inductive Agrees (text : TokenText) (P : α → Cursor → β → Prop) :
    Option (Except Fault (α × Cursor)) → Except ParseFault β → Prop
  | ok {a : α} {c : Cursor} {b : β} : P a c b → Agrees text P (some (.ok (a, c))) (.ok b)
  | error (e : ParseFault) :
      Agrees text P (some (.error (.ofParse text.stop e))) (.error e)
  | refused {e : NodeError} {r : Except ParseFault β} :
      ¬ WellFormedTokens text.tokens → Agrees text P (some (.error (.refused e))) r

/-- The results are the same, and the cursor is in the regions and before the tokens left over. -/
def Leaves (text : TokenText) (regions : List Region) {p : Tokens → Prop} (a : α) (c : Cursor)
    (b : α × { rest : Tokens // p rest }) : Prop :=
  a = b.1 ∧ Stands text c regions b.2.1

variable {P : α → Cursor → β → Prop} {Q : γ → Cursor → δ → Prop}

/-- Steps after steps agree with what is computed after their results. -/
theorem Agrees.bind {x : Run α} {f : α → Run γ} {r : Except ParseFault β}
    {g : β → Except ParseFault δ} (h : Agrees text P (outcome x c) r)
    (hnext : ∀ a c' b, P a c' b → Agrees text Q (outcome (f a) c') (g b)) :
    Agrees text Q (outcome (x >>= f) c) (r >>= g) := by
  rw [outcome_bind]
  generalize outcome x c = o at h
  cases h with
  | ok hp => exact hnext _ _ _ hp
  | error e => exact .error e
  | refused hill => exact .refused hill

/-- The parser goes on with a result by steps that the cursor need not do. -/
theorem Agrees.map {o : Option (Except Fault (α × Cursor))} {Q : α → Cursor → δ → Prop}
    {r : Except ParseFault β} {g : β → Except ParseFault δ} (h : Agrees text P o r)
    (hnext : ∀ a c b, P a c b → Agrees text Q (some (.ok (a, c))) (g b)) :
    Agrees text Q o (r >>= g) := by
  cases h with
  | ok hp => exact hnext _ _ _ hp
  | error e => exact .error e
  | refused hill => exact .refused hill

/-- The cursor goes on by steps that the parser need not do. -/
theorem Agrees.andThen {x : Run α} {f : α → Run γ} {r : Except ParseFault β}
    {Q : γ → Cursor → β → Prop} (h : Agrees text P (outcome x c) r)
    (hnext : ∀ a c' b, P a c' b → Agrees text Q (outcome (f a) c') (.ok b)) :
    Agrees text Q (outcome (x >>= f) c) r := by
  rw [← bind_pure r]
  exact h.bind hnext

/-- The cursor first does a step that the parser need not do. -/
theorem Agrees.after {x : Run α} {f : α → Run γ} {c' : Cursor} {a : α}
    {r : Except ParseFault δ} (hx : outcome x c = some (.ok (a, c')))
    (h : Agrees text Q (outcome (f a) c') r) :
    Agrees text Q (outcome (x >>= f) c) r := by
  rw [outcome_bind_of_ok hx]
  exact h

/-- Where the parser fails, the steps that would come after do not count. -/
theorem Agrees.fails {x : Run α} {f : α → Run γ} {e : ParseFault}
    (h : Agrees text P (outcome x c) (.error e : Except ParseFault β)) :
    Agrees text Q (outcome (x >>= f) c) (.error e) := by
  rw [outcome_bind]
  generalize outcome x c = o at h
  cases h with
  | error => exact .error e
  | refused hill => exact .refused hill

/-! ## Single steps -/

/-- A problem with a cell is the problem with the first of the tokens. -/
theorem agrees_fail (problem : Found → SyntaxProblem) (ts : Tokens) (c : Cursor) :
    Agrees text P (outcome (fail text problem ts.head? : Run α) c)
      (Parser.problemAt ts (problem (Parser.found ts)) : Except ParseFault β) := by
  cases ts with
  | nil => exact .error (.malformed (problem none) none)
  | cons t ts => exact .error (.malformed (problem (some t.lexeme)) (some t.position))

/-- A node is built where the parser has it, unless it is refused. -/
theorem agrees_build {x : Except NodeError α} {a : α}
    (hx : x = .ok a ∨ ∃ e, x = .error e ∧ ¬ WellFormedTokens text.tokens)
    {b : β} (hp : P a c b) : Agrees text P (outcome (build x) c) (.ok b) := by
  rcases hx with rfl | ⟨e, rfl, hill⟩
  · exact .ok hp
  · exact .refused hill

/-- A node is built before further steps, unless it is refused. -/
theorem Agrees.built {x : Except NodeError α} {a : α}
    (hx : x = .ok a ∨ ∃ e, x = .error e ∧ ¬ WellFormedTokens text.tokens)
    {f : α → Run γ} {r : Except ParseFault δ} (h : Agrees text Q (outcome (f a) c) r) :
    Agrees text Q (outcome (build x >>= f) c) r := by
  rcases hx with rfl | ⟨e, rfl, hill⟩
  · exact h
  · exact .refused hill

/-- A symbol is refused only for a name that makes its token ill-formed. -/
theorem ofName_or {ill : Prop} {name : String} (h : name = "" → ill) (p : Position) :
    Node.ofName name p = .ok (.symbol name p) ∨ ∃ e, Node.ofName name p = .error e ∧ ill := by
  unfold Node.ofName
  split
  · next hempty => exact .inr ⟨_, rfl, h hempty⟩
  · exact .inl rfl

theorem ofAtom_or {ill : Prop} {a : Atom} (h : a.isLiteral = false → ill) (p : Position) :
    Node.ofAtom a p = .ok (.constant a p) ∨ ∃ e, Node.ofAtom a p = .error e ∧ ill := by
  unfold Node.ofAtom
  split
  · next n =>
    split
    · exact .inl rfl
    · next hrange => exact .inr ⟨_, rfl, h (decide_eq_false hrange)⟩
  · exact .inl rfl

theorem param_build_or {ill : Prop} {name : String} (h : name = "" → ill) (default : Node) :
    Param.build name default = .ok ⟨name, default⟩ ∨
      ∃ e, Param.build name default = .error e ∧ ill := by
  unfold Param.build
  split
  · next hempty => exact .inr ⟨_, rfl, h hempty⟩
  · exact .inl rfl

theorem exists_of_holds {test : Lexeme → Bool} (h : holds test ts.head? = true) :
    ∃ t rest, ts = t :: rest ∧ test t.lexeme = true := by
  cases ts with
  | nil => cases h
  | cons t rest => exact ⟨t, rest, rfl, h⟩

theorem eq_assign (l : Lexeme) (h : isAssign l = true) : l = .operator "=" := by
  unfold isAssign at h
  split at h
  · rfl
  · cases h

namespace Stands

/-- The tokens from the cursor on are tokens of the row. -/
theorem mem (h : Stands text c regions ts) (hmem : t ∈ ts) : t ∈ text.tokens :=
  List.mem_of_mem_drop (h.left ▸ hmem)

/-- The cursor takes what the parser expects. -/
theorem expect (h : Stands text c (region :: outer) ts) (wanted : String)
    (accepts : Lexeme → Bool) :
    Agrees text
      (fun token c' (b : Fewer ts) =>
        (∃ t, token = some t ∧ (Parser.visible region ts).head? = some t) ∧
          Stands text c' (region :: outer) b.1)
      (outcome (Cursor.expect text wanted accepts) c)
      (Parser.expect region wanted accepts ts) := by
  unfold Parser.expect
  split
  · next t rest hv =>
    obtain ⟨c₁, c₂, hpeek, -, hadvance, h₂⟩ := h.peek_cons hv
    rw [Cursor.expect]
    refine .after hpeek ?_
    have htest : holds accepts (some t) = accepts t.lexeme := rfl
    rw [htest]
    split
    · rw [hadvance]
      exact .ok ⟨⟨t, rfl, congrArg List.head? hv⟩, h₂⟩
    · exact agrees_fail (.expected wanted) (t :: rest) c₁
  · next hv =>
    obtain ⟨c₁, hpeek, -⟩ := h.peek_nil hv
    rw [Cursor.expect]
    exact .after hpeek (agrees_fail (.expected wanted) [] c₁)

/-- The cursor moves to an `else` where the parser finds one. -/
theorem atElse (h : Stands text c (region :: outer) ts) :
    match Parser.elseBranch? region ts with
    | none => outcome (Cursor.atElse text) c = some (.ok (false, c))
    | some rest => ∃ c' p, outcome (Cursor.atElse text) c = some (.ok (true, c')) ∧
        Stands text c' (region :: outer) (⟨.keyword .elseWord, p⟩ :: rest.1) := by
  have hget : outcome (get : Run Cursor) c = some (.ok (c, c)) := rfl
  obtain ⟨i, hbefore, hinside, hleft⟩ : ∃ i,
      outcome (beforeElse text) c = some (.ok (i, c)) ∧ i ≤ text.tokens.length ∧
        text.tokens.drop i = Parser.beforeElse region ts := by
    rw [beforeElse, outcome_bind_of_ok hget, outcome_bind_of_ok h.top]
    cases region with
    | top => exact ⟨c.place, rfl, h.inside, h.left⟩
    | block | bracket =>
      obtain ⟨i, hrun, hinside, hleft⟩ := outcome_past isBreak ts _ h.inside h.left
      exact ⟨i, hrun c, hinside, hleft.trans (skipBreaks_eq ts).symm⟩
  split
  · next helse =>
    have hnone : ∀ p rest, Parser.beforeElse region ts ≠ ⟨.keyword .elseWord, p⟩ :: rest := by
      intro p rest hp
      have := Parser.afterElse?_eq_some.mpr ⟨p, hp⟩
      rw [Parser.afterElse?, helse] at this
      cases this
    rw [Cursor.atElse, outcome_bind_of_ok hbefore, outcome_bind_of_ok (outcome_cell hinside c),
      hleft]
    cases hfirst : Parser.beforeElse region ts with
    | nil => rfl
    | cons t rest =>
      obtain ⟨l, p⟩ := t
      cases l with
      | keyword k =>
        cases k with
        | elseWord => exact absurd hfirst (hnone p rest)
        | _ => rfl
      | _ => rfl
  · next rest helse =>
    obtain ⟨p, hp⟩ := Parser.afterElse?_eq_some.mp (Parser.afterElse?_eq helse)
    refine ⟨{ c with place := i }, p, ?_, h.regions_eq, hinside, hleft.trans hp⟩
    rw [Cursor.atElse, outcome_bind_of_ok hbefore, outcome_bind_of_ok (outcome_cell hinside c),
      hleft, hp]
    rfl

/-- Behind the token `t` the cursor finds the name of a named argument where the parser does. -/
theorem argumentName? (h : Stands text c regions (t :: rest)) :
    outcome (Cursor.argumentName? text (some t)) c =
      some (.ok ((Parser.afterName? t rest).map Prod.fst, c)) := by
  have hget : outcome (get : Run Cursor) c = some (.ok (c, c)) := rfl
  have hlt : c.place < text.tokens.length := by
    refine Nat.lt_of_le_of_ne h.inside fun heq => ?_
    have := h.left
    rw [heq, List.drop_length] at this
    cases this
  have hnext : text.tokens.drop (c.place + 1) = rest := by
    rw [← List.tail_drop, h.left]
    rfl
  obtain ⟨i, hrun, hinside, hleft⟩ := outcome_past isBreak rest (c.place + 1) hlt hnext
  have hfollows : outcome (nameFollows text) c =
      some (.ok (holds isAssign (Parser.skipBreaks rest).head?, c)) := by
    rw [nameFollows, outcome_bind_of_ok hget, outcome_bind_of_ok (hrun c),
      outcome_bind_of_ok (outcome_cell hinside c), hleft, skipBreaks_eq]
    rfl
  cases hafter : Parser.afterName? t rest with
  | some r =>
    obtain ⟨hname, p, hp⟩ := Parser.afterName?_eq_some.mp hafter
    rw [hp] at hfollows
    rcases hname with hname | hname
    all_goals
      rw [Cursor.argumentName?, Option.map_some, hname, outcome_bind_of_ok hfollows]
      rfl
  | none =>
    have hnot : ∀ name, t.lexeme = .symbol name ∨ t.lexeme = .text name →
        holds isAssign (Parser.skipBreaks rest).head? = false := by
      intro name hname
      refine Bool.eq_false_iff.mpr fun hholds => ?_
      obtain ⟨⟨l, p⟩, after, hskip, hl⟩ := exists_of_holds hholds
      obtain rfl := eq_assign l hl
      rw [Parser.afterName?_eq_some.mpr ⟨hname, p, hskip⟩] at hafter
      cases hafter
    rw [Cursor.argumentName?, Option.map_some]
    cases hl : t.lexeme with
    | symbol name =>
      rw [hnot name (.inl hl)] at hfollows
      dsimp only
      rw [outcome_bind_of_ok hfollows]
      rfl
    | text name =>
      rw [hnot name (.inr hl)] at hfollows
      dsimp only
      rw [outcome_bind_of_ok hfollows]
      rfl
    | _ => rfl

/-- The cursor takes the name of a member that the parser takes. -/
theorem member (h : Stands text c (region :: outer) ts) (operator : String) :
    Agrees text (Leaves text (region :: outer)) (outcome (Cursor.member text operator) c)
      (Parser.member operator ts) := by
  obtain ⟨c₁, hskip, h₁⟩ := h.skipBreaks
  obtain ⟨c₂, hadvance, h₂⟩ := h₁.advance
  rw [Parser.visible_skipBreaks] at hadvance h₂
  have hmem : ∀ t rest, Parser.skipBreaks ts = t :: rest → t ∈ text.tokens := by
    intro t rest hs
    exact h₁.mem (hs ▸ List.mem_cons_self)
  unfold Parser.member
  split
  · next name p rest hs =>
    rw [hs] at hadvance h₂
    rw [Cursor.member]
    refine .after hskip (.after hadvance (agrees_build (ofName_or ?_ p) ⟨rfl, h₂⟩))
    rintro rfl
    exact fun hwell => hwell _ (hmem _ _ hs) rfl
  · next s p rest hs =>
    rw [hs] at hadvance h₂
    rw [Cursor.member]
    exact .after hskip (.after hadvance (.ok ⟨rfl, h₂⟩))
  · next hsymbol htext =>
    rw [Cursor.member]
    refine .after hskip (.after hadvance ?_)
    cases hs : Parser.skipBreaks ts with
    | nil => exact agrees_fail (.notAMember · operator) [] c₂
    | cons t rest =>
      obtain ⟨l, p⟩ := t
      cases l with
      | symbol name => exact absurd hs (hsymbol name p rest)
      | text s => exact absurd hs (htext s p rest)
      | _ => exact agrees_fail (.notAMember · operator) (_ :: rest) c₂

end Stands

/-- The cursor takes a symbol that the parser takes. -/
theorem Sees.expectSymbol (h : Sees text c .bracket outer ts) :
    Agrees text
      (fun (a : String × Position) c' b => a = (b.1, b.2.1) ∧
        ⟨.symbol b.1, b.2.1⟩ ∈ text.tokens ∧ Stands text c' (.bracket :: outer) b.2.2.1)
      (outcome (Cursor.expectSymbol text) c) (Parser.expectSymbol ts) := by
  unfold Parser.expectSymbol
  split
  · next name p rest hv =>
    obtain ⟨c₁, c₂, hpeek, h₁, hadvance, h₂⟩ := h.peek_cons hv
    rw [Cursor.expectSymbol]
    exact .after hpeek (.after hadvance (.ok ⟨rfl, h₁.mem List.mem_cons_self, h₂⟩))
  · next hne =>
    obtain ⟨c₁, hpeek, -⟩ := h.peek
    rw [Cursor.expectSymbol]
    refine .after hpeek ?_
    cases hv : Parser.visible .bracket ts with
    | nil => exact agrees_fail (.expected "SYMBOL") [] c₁
    | cons t rest =>
      obtain ⟨l, p⟩ := t
      cases l with
      | symbol name => exact absurd hv (hne name p rest)
      | _ => exact agrees_fail (.expected "SYMBOL") (_ :: rest) c₁

/-! ## The functions of the parser -/

theorem holds_endsStatement (ts : Tokens) :
    holds endsStatement ts.head? = Parser.endsStatement ts := by
  cases ts with
  | nil => rfl
  | cons t rest =>
    obtain ⟨l, p⟩ := t
    cases l <;> rfl

theorem holds_endsExpression (ts : Tokens) :
    (ts.head?.isNone || holds isSeparator ts.head?) = Parser.endsExpression ts := by
  cases ts with
  | nil => rfl
  | cons t rest =>
    obtain ⟨l, p⟩ := t
    cases l <;> rfl

theorem argumentList_of_nil {closing : Parser.Closing} (hv : Parser.visible .bracket ts = []) :
    Parser.argumentList closing ts = Parser.unexpected [] := by
  have hargument : Parser.argument closing ts = Parser.unexpected [] := by
    rw [Parser.argument]
    split
    · rfl
    · next hcons =>
      rw [hv] at hcons
      cases hcons
  rw [Parser.argumentList, hargument]
  rfl

/-! ## What the functions follow -/

/-- From a cursor before the tokens `ts` and with fuel for them, the run does what the parser does
with `ts`. The fuel allows five calls for a token, and `more` that need no token. -/
def Follows {p : Tokens → Prop} (text : TokenText) (fuel more : Nat) (run : Run α) (region : Region)
    (ts : Tokens) (r : Except ParseFault (α × { rest // p rest })) : Prop :=
  5 * ts.length + more < fuel → ∀ ⦃c : Cursor⦄ ⦃outer : List Region⦄,
    Stands text c (region :: outer) ts →
      Agrees text (Leaves text (region :: outer)) (outcome run c) r

/-- The same of a cursor that may be behind line breaks that the region does not show. -/
def FollowsShown {p : Tokens → Prop} (text : TokenText) (fuel more : Nat) (run : Run α)
    (region : Region) (ts : Tokens) (r : Except ParseFault (α × { rest // p rest })) : Prop :=
  5 * ts.length + more < fuel → ∀ ⦃c : Cursor⦄ ⦃outer : List Region⦄,
    Sees text c region outer ts →
      Agrees text (Leaves text (region :: outer)) (outcome run c) r

/-- The cursor stays before the brace that closes the block, which the parser takes. -/
def FollowsStatements (text : TokenText) (fuel : Nat) (opening : Position) (ts : Tokens) : Prop :=
  5 * ts.length + 2 < fuel → ∀ ⦃c : Cursor⦄ ⦃outer : List Region⦄,
    Stands text c (.block :: outer) ts →
      Agrees text
        (fun ns c' b => ns = b.1 ∧
          ∃ p, Stands text c' (.block :: outer) (⟨.rightBrace, p⟩ :: b.2.1))
        (outcome (statements text fuel opening) c) (Parser.statements opening ts)

/-- Where there is no default, the cursor has looked for its `=`. -/
def FollowsDefault (text : TokenText) (fuel : Nat) (ts : Tokens) : Prop :=
  5 * ts.length + 2 < fuel → ∀ ⦃c : Cursor⦄ ⦃outer : List Region⦄,
    Stands text c (.bracket :: outer) ts →
      Agrees text (fun n c' b => n = b.1 ∧ Sees text c' .bracket outer b.2.1)
        (outcome (parameterDefault text fuel) c) (Parser.parameterDefault ts)

/-- With the fuel all functions follow those of the parser. -/
structure Faithful (text : TokenText) (fuel : Nat) : Prop where
  expression {power : Nat} {region : Region} {ts : Tokens} :
    FollowsShown text fuel 1 (expression text fuel power) region ts
      (Parser.expression region power ts)
  operators {power : Nat} {left : Node} {region : Region} {ts : Tokens} :
    Follows text fuel 1 (operators text fuel power left) region ts
      (Parser.operators region power left ts)
  operand {t : Token} (ht : WellFormedTokens text.tokens → t.lexeme.WellFormed) {region : Region}
    {ts : Tokens} :
    Follows text fuel 5 (operand text fuel (some t)) region ts (Parser.operand region t ts)
  block (t : Token) {region : Region} {ts : Tokens} :
    Follows text fuel 4 (block text fuel t) region ts
      (Parser.operand region ⟨.leftBrace, t.position⟩ ts)
  statements {opening : Position} {ts : Tokens} : FollowsStatements text fuel opening ts
  condition {region : Region} {ts : Tokens} :
    Follows text fuel 2 (condition text fuel) region ts (Parser.condition region ts)
  conditional (t : Token) {region : Region} {ts : Tokens} :
    Follows text fuel 4 (conditional text fuel t) region ts
      (Parser.operand region ⟨.keyword .ifWord, t.position⟩ ts)
  whileLoop (t : Token) {region : Region} {ts : Tokens} :
    Follows text fuel 4 (whileLoop text fuel t) region ts
      (Parser.operand region ⟨.keyword .whileWord, t.position⟩ ts)
  forLoop (t : Token) {region : Region} {ts : Tokens} :
    Follows text fuel 4 (forLoop text fuel t) region ts
      (Parser.operand region ⟨.keyword .forWord, t.position⟩ ts)
  definition (t : Token) {region : Region} {ts : Tokens} :
    Follows text fuel 4 (definition text fuel t) region ts
      (Parser.operand region ⟨.keyword .functionWord, t.position⟩ ts)
  parameters {ts : Tokens} :
    Follows text fuel 3 (parameters text fuel) .bracket ts (Parser.parameters ts)
  parameterList {seen : List String} {ts : Tokens} :
    FollowsShown text fuel 2 (parameterList text fuel seen) .bracket ts
      (Parser.parameterList seen ts)
  parameterDefault {ts : Tokens} : FollowsDefault text fuel ts
  operatorForm {t : Token} (ht : 0 < Parser.leftPower t.lexeme) {left : Node} {region : Region}
    {ts : Tokens} :
    Follows text fuel 5 (operatorForm text fuel (some t) left) region ts
      (Parser.operatorForm region t left ts)
  infixForm {name : String} (ht : 0 < Parser.leftPower (.operator name)) {p : Position}
    {left : Node} {region : Region} {ts : Tokens} :
    Follows text fuel 4 (infixForm text fuel name p left) region ts
      (Parser.operatorForm region ⟨.operator name, p⟩ left ts)
  arguments {closing : Parser.Closing} {region : Region} {ts : Tokens} :
    Follows text fuel 4 (arguments text fuel closing) region ts
      (Parser.arguments closing ts)
  argumentList {closing : Parser.Closing} {ts : Tokens} :
    FollowsShown text fuel 3 (argumentList text fuel closing) .bracket ts
      (Parser.argumentList closing ts)
  argument {closing : Parser.Closing} {ts : Tokens} :
    FollowsShown text fuel 2 (argument text fuel closing) .bracket ts
      (Parser.argument closing ts)

theorem Follows.zero {p : Tokens → Prop} {more : Nat} {run : Run α} {region : Region} {ts : Tokens}
    {r : Except ParseFault (α × { rest // p rest })} : Follows text 0 more run region ts r :=
  fun hf => absurd hf (Nat.not_lt_zero _)

theorem FollowsShown.zero {p : Tokens → Prop} {more : Nat} {run : Run α} {region : Region}
    {ts : Tokens} {r : Except ParseFault (α × { rest // p rest })} :
    FollowsShown text 0 more run region ts r :=
  fun hf => absurd hf (Nat.not_lt_zero _)

variable {fuel : Nat}

theorem expression_step (ih : Faithful text fuel) {power : Nat} {region : Region} {ts : Tokens} :
    FollowsShown text (fuel + 1) 1 (expression text (fuel + 1) power) region ts
      (Parser.expression region power ts) := by
  intro hf c outer h
  rw [Parser.expression]
  split
  · next hv =>
    obtain ⟨c₁, hadvance⟩ := h.advance_nil hv
    rw [expression]
    refine .after hadvance ?_
    obtain _ | fuel := fuel
    · omega
    rw [operand]
    exact .error (.malformed (.unexpected none) none)
  · next t rest hv =>
    have hlt := Parser.visible_cons_length hv
    obtain ⟨c₁, hadvance, hs₁⟩ := h.advance_cons hv
    have ht : WellFormedTokens text.tokens → t.lexeme.WellFormed := fun hwell =>
      hwell t (h.mem hv)
    rw [expression]
    refine .after hadvance (.bind (ih.operand ht (by omega) hs₁) ?_)
    rintro left c₂ ⟨left', ts₂, h₂⟩ ⟨rfl, hs₂⟩
    refine .map (ih.operators (by omega) hs₂) ?_
    rintro n c₃ ⟨n', rest, h₃⟩ ⟨rfl, hs₃⟩
    exact .ok ⟨rfl, hs₃⟩

theorem operators_step (ih : Faithful text fuel) {power : Nat} {left : Node} {region : Region}
    {ts : Tokens} :
    Follows text (fuel + 1) 1 (operators text (fuel + 1) power left) region ts
      (Parser.operators region power left ts) := by
  intro hf c outer h
  rw [Parser.operators]
  split
  · next hv =>
    obtain ⟨c₁, hpeek, h₁⟩ := h.peek_nil hv
    rw [operators]
    refine .after hpeek ?_
    have hpower : ((0 : Nat) : Int) ≤ power := Int.natCast_nonneg power
    rw [Option.elim_none, if_pos hpower]
    exact .ok ⟨rfl, h₁⟩
  · next t rest hv =>
    have hlt := Parser.visible_cons_length hv
    obtain ⟨c₁, c₂, hpeek, hs₁, hadvance, hs₂⟩ := h.peek_cons hv
    rw [operators]
    refine .after hpeek ?_
    rw [Option.elim_some]
    by_cases hpower : Parser.leftPower t.lexeme ≤ power
    · rw [if_pos hpower, if_pos (Int.ofNat_le.mpr hpower)]
      exact .ok ⟨rfl, hs₁⟩
    · rw [if_neg hpower, if_neg (mt Int.ofNat_le.mp hpower)]
      refine .after hadvance (.bind (ih.operatorForm (by omega) (by omega) hs₂) ?_)
      rintro left' c₃ ⟨left'', ts₃, h₃⟩ ⟨rfl, hs₃⟩
      refine .map (ih.operators (by omega) hs₃) ?_
      rintro n c₄ ⟨n', rest, h₄⟩ ⟨rfl, hs₄⟩
      exact .ok ⟨rfl, hs₄⟩

theorem operand_step (ih : Faithful text fuel) {t : Token}
    (ht : WellFormedTokens text.tokens → t.lexeme.WellFormed) {region : Region} {ts : Tokens} :
    Follows text (fuel + 1) 5 (operand text (fuel + 1) (some t)) region ts
      (Parser.operand region t ts) := by
  intro hf c outer h
  obtain ⟨l, p⟩ := t
  have hskip := Parser.skipBreaks_length ts
  have hliteral : ∀ a : Atom, a.isLiteral = true → a.isLiteral = false →
      ¬ WellFormedTokens text.tokens := by
    intro a htrue hfalse
    rw [htrue] at hfalse
    cases hfalse
  cases l with
  | integer n =>
    rw [operand, Parser.operand]
    refine agrees_build (ofAtom_or (fun hn hwell => ?_) p) ⟨rfl, h⟩
    have hfits : (Atom.integer n).isLiteral = true := decide_eq_true (ht hwell)
    rw [hn] at hfits
    cases hfits
  | double x =>
    rw [operand, Parser.operand]
    exact agrees_build (ofAtom_or (hliteral _ rfl) p) ⟨rfl, h⟩
  | text s =>
    rw [operand, Parser.operand]
    exact agrees_build (ofAtom_or (hliteral _ rfl) p) ⟨rfl, h⟩
  | constant k =>
    rw [operand, Parser.operand]
    exact agrees_build (ofAtom_or (hliteral _ (by cases k <;> rfl)) p) ⟨rfl, h⟩
  | symbol name =>
    rw [operand, Parser.operand]
    exact agrees_build (ofName_or (fun hname hwell => ht hwell hname) p) ⟨rfl, h⟩
  | operator name =>
    rw [operand, Parser.operand]
    dsimp only
    cases Operator.prefix? name with
    | none => exact agrees_fail .unexpected (⟨.operator name, p⟩ :: ts) c
    | some power =>
      obtain ⟨c₁, hbreaks, hs₁⟩ := h.skipBreaks
      refine .after hbreaks (.bind (ih.expression (by omega) hs₁.sees) ?_)
      rintro inner c₂ ⟨inner', rest, h₂⟩ ⟨rfl, hs₂⟩
      exact .ok ⟨rfl, hs₂⟩
  | leftParen =>
    rw [operand, Parser.operand]
    obtain ⟨c₁, henter, hs₁⟩ := h.enter .bracket
    refine .after henter (.bind (ih.expression (by omega) hs₁.sees) ?_)
    rintro inner c₂ ⟨inner', ts₂, h₂⟩ ⟨rfl, hs₂⟩
    refine .bind (hs₂.expect _ _) ?_
    rintro token c₃ ⟨rest, h₃⟩ ⟨-, hs₃⟩
    obtain ⟨c₄, hleave, hs₄⟩ := hs₃.leave
    exact .after hleave (.ok ⟨rfl, hs₄⟩)
  | leftBrace =>
    rw [operand]
    exact ih.block ⟨.leftBrace, p⟩ (by omega) h
  | keyword k =>
    cases k with
    | ifWord =>
      rw [operand]
      exact ih.conditional ⟨.keyword .ifWord, p⟩ (by omega) h
    | whileWord =>
      rw [operand]
      exact ih.whileLoop ⟨.keyword .whileWord, p⟩ (by omega) h
    | forWord =>
      rw [operand]
      exact ih.forLoop ⟨.keyword .forWord, p⟩ (by omega) h
    | functionWord =>
      rw [operand]
      exact ih.definition ⟨.keyword .functionWord, p⟩ (by omega) h
    | repeatWord =>
      rw [operand, Parser.operand]
      obtain ⟨c₁, hbreaks, hs₁⟩ := h.skipBreaks
      refine .after hbreaks (.bind (ih.expression (by omega) hs₁.sees) ?_)
      rintro body c₂ ⟨body', rest, h₂⟩ ⟨rfl, hs₂⟩
      exact .ok ⟨rfl, hs₂⟩
    | breakWord | nextWord =>
      rw [operand, Parser.operand]
      exact .ok ⟨rfl, h⟩
    | elseWord | inWord =>
      rw [operand, Parser.operand]
      exact agrees_fail .unexpected (_ :: ts) c
  | _ =>
    rw [operand, Parser.operand]
    exact agrees_fail .unexpected (_ :: ts) c

theorem block_step (ih : Faithful text fuel) (t : Token) {region : Region} {ts : Tokens} :
    Follows text (fuel + 1) 4 (block text (fuel + 1) t) region ts
      (Parser.operand region ⟨.leftBrace, t.position⟩ ts) := by
  intro hf c outer h
  rw [block, Parser.operand]
  obtain ⟨c₁, henter, hs₁⟩ := h.enter .block
  refine .after henter (.bind (ih.statements (by omega) hs₁) ?_)
  rintro body c₂ ⟨body', rest, h₂⟩ ⟨rfl, p, hs₂⟩
  obtain ⟨c₃, c₄, hpeek, -, hadvance, hs₄⟩ := hs₂.peek_cons rfl
  have hexpect : outcome (expect text "RBRACE" isRightBrace) c₂ =
      some (.ok (some ⟨.rightBrace, p⟩, c₄)) := by
    rw [expect, outcome_bind_of_ok hpeek]
    exact hadvance
  obtain ⟨c₅, hleave, hs₅⟩ := hs₄.leave
  exact .after hexpect (.after hleave (.ok ⟨rfl, hs₅⟩))

theorem statements_step (ih : Faithful text fuel) {opening : Position} {ts : Tokens} :
    FollowsStatements text (fuel + 1) opening ts := by
  intro hf c outer h
  have hseparators := Parser.skipSeparators_length ts
  obtain ⟨c₁, hskip, hs₁⟩ := h.skipSeparators
  rw [Parser.statements]
  split
  · next hs =>
    rw [hs] at hs₁
    obtain ⟨c₂, hpeek, -⟩ := hs₁.peek_nil rfl
    rw [statements]
    exact .after hskip (.after hpeek (.error (.malformed .unclosedBlock (some opening))))
  · next p rest hs =>
    rw [hs] at hs₁
    obtain ⟨c₂, -, hpeek, hs₂, -⟩ := hs₁.peek_cons rfl
    rw [statements]
    exact .after hskip (.after hpeek (.ok ⟨rfl, p, hs₂⟩))
  · next t rest hne hs =>
    rw [hs] at hs₁ hseparators
    have hlength : rest.length + 1 ≤ ts.length := hseparators
    obtain ⟨c₂, -, hpeek, hs₂, -⟩ := hs₁.peek_cons rfl
    rw [statements]
    refine .after hskip (.after hpeek ?_)
    have hbrace : holds isRightBrace (some t) = false := by
      obtain ⟨l, p⟩ := t
      cases l with
      | rightBrace => exact absurd rfl (hne p)
      | _ => rfl
    rw [hbrace, if_neg (by decide), Option.isNone_some, if_neg (by decide)]
    refine .bind (ih.expression (by omega) hs₂.sees) ?_
    rintro n c₃ ⟨n', ts₃, h₃⟩ ⟨rfl, hs₃⟩
    have hlt : ts₃.length < ts.length := Nat.lt_of_lt_of_le h₃ hseparators
    obtain ⟨c₄, hpeek, hs₄⟩ := hs₃.peek
    refine .after hpeek ?_
    dsimp only [Parser.visible]
    rw [holds_endsStatement]
    split
    · refine .bind (ih.statements (by omega) hs₄) ?_
      rintro more c₅ ⟨more', rest, h₅⟩ ⟨rfl, p, hs₅⟩
      exact .ok ⟨rfl, p, hs₅⟩
    · exact agrees_fail .unexpected ts₃ c₄

theorem condition_step (ih : Faithful text fuel) {region : Region} {ts : Tokens} :
    Follows text (fuel + 1) 2 (condition text (fuel + 1)) region ts
      (Parser.condition region ts) := by
  intro hf c outer h
  rw [condition, Parser.condition]
  refine .bind (h.expect _ _) ?_
  rintro token c₁ ⟨ts₁, h₁⟩ ⟨-, hs₁⟩
  obtain ⟨c₂, henter, hs₂⟩ := hs₁.enter .bracket
  refine .after henter (.bind (ih.expression (by omega) hs₂.sees) ?_)
  rintro n c₃ ⟨n', ts₃, h₃⟩ ⟨rfl, hs₃⟩
  refine .bind (hs₃.expect _ _) ?_
  rintro token c₄ ⟨rest, h₄⟩ ⟨-, hs₄⟩
  obtain ⟨c₅, hleave, hs₅⟩ := hs₄.leave
  exact .after hleave (.ok ⟨rfl, hs₅⟩)

theorem conditional_step (ih : Faithful text fuel) (t : Token) {region : Region} {ts : Tokens} :
    Follows text (fuel + 1) 4 (conditional text (fuel + 1) t) region ts
      (Parser.operand region ⟨.keyword .ifWord, t.position⟩ ts) := by
  intro hf c outer h
  rw [conditional, Parser.operand]
  refine .bind (ih.condition (by omega) h) ?_
  rintro test c₁ ⟨test', ts₁, h₁⟩ ⟨rfl, hs₁⟩
  have := Parser.skipBreaks_length ts₁
  obtain ⟨c₂, hbreaks, hs₂⟩ := hs₁.skipBreaks
  refine .after hbreaks (.bind (ih.expression (by omega) hs₂.sees) ?_)
  rintro body c₃ ⟨body', ts₃, h₃⟩ ⟨rfl, hs₃⟩
  have helse := hs₃.atElse
  dsimp only
  split
  · next hnone =>
    rw [hnone] at helse
    exact .after helse (.ok ⟨rfl, hs₃⟩)
  · next ts₄ h₄ hsome =>
    rw [hsome] at helse
    obtain ⟨c₄, p, helse, hs₄⟩ := helse
    have := Parser.skipBreaks_length ts₄
    have hvisible : Parser.visible region (⟨.keyword .elseWord, p⟩ :: ts₄) =
        ⟨.keyword .elseWord, p⟩ :: ts₄ := by
      cases region <;> rfl
    obtain ⟨c₅, hadvance, hs₅⟩ := hs₄.advance_cons hvisible
    obtain ⟨c₆, hbreaks, hs₆⟩ := hs₅.skipBreaks
    refine .after helse ?_
    rw [if_pos rfl]
    refine .after hadvance (.after hbreaks (.bind (ih.expression (by omega) hs₆.sees) ?_))
    rintro other c₇ ⟨other', rest, h₇⟩ ⟨rfl, hs₇⟩
    exact .ok ⟨rfl, hs₇⟩

theorem whileLoop_step (ih : Faithful text fuel) (t : Token) {region : Region} {ts : Tokens} :
    Follows text (fuel + 1) 4 (whileLoop text (fuel + 1) t) region ts
      (Parser.operand region ⟨.keyword .whileWord, t.position⟩ ts) := by
  intro hf c outer h
  rw [whileLoop, Parser.operand]
  refine .bind (ih.condition (by omega) h) ?_
  rintro test c₁ ⟨test', ts₁, h₁⟩ ⟨rfl, hs₁⟩
  have := Parser.skipBreaks_length ts₁
  obtain ⟨c₂, hbreaks, hs₂⟩ := hs₁.skipBreaks
  refine .after hbreaks (.bind (ih.expression (by omega) hs₂.sees) ?_)
  rintro body c₃ ⟨body', rest, h₃⟩ ⟨rfl, hs₃⟩
  exact .ok ⟨rfl, hs₃⟩

theorem forLoop_step (ih : Faithful text fuel) (t : Token) {region : Region} {ts : Tokens} :
    Follows text (fuel + 1) 4 (forLoop text (fuel + 1) t) region ts
      (Parser.operand region ⟨.keyword .forWord, t.position⟩ ts) := by
  intro hf c outer h
  rw [forLoop, Parser.operand]
  refine .bind (h.expect _ _) ?_
  rintro token c₁ ⟨ts₁, h₁⟩ ⟨-, hs₁⟩
  obtain ⟨c₂, henter, hs₂⟩ := hs₁.enter .bracket
  refine .after henter (.bind hs₂.sees.expectSymbol ?_)
  rintro - c₃ ⟨name, p, ts₃, h₃⟩ ⟨rfl, hname, hs₃⟩
  refine .bind (hs₃.expect _ _) ?_
  rintro token c₄ ⟨ts₄, h₄⟩ ⟨-, hs₄⟩
  refine .bind (ih.expression (by omega) hs₄.sees) ?_
  rintro sequence c₅ ⟨sequence', ts₅, h₅⟩ ⟨rfl, hs₅⟩
  refine .bind (hs₅.expect _ _) ?_
  rintro token c₆ ⟨ts₆, h₆⟩ ⟨-, hs₆⟩
  obtain ⟨c₇, hleave, hs₇⟩ := hs₆.leave
  have := Parser.skipBreaks_length ts₆
  obtain ⟨c₈, hbreaks, hs₈⟩ := hs₇.skipBreaks
  refine .after hleave (.after hbreaks (.bind (ih.expression (by omega) hs₈.sees) ?_))
  rintro body c₉ ⟨body', rest, h₉⟩ ⟨rfl, hs₉⟩
  have hempty : name = "" → ¬ WellFormedTokens text.tokens := fun hn hwell =>
    hwell _ hname hn
  exact .built (ofName_or hempty p) (.ok ⟨rfl, hs₉⟩)

theorem definition_step (ih : Faithful text fuel) (t : Token) {region : Region} {ts : Tokens} :
    Follows text (fuel + 1) 4 (definition text (fuel + 1) t) region ts
      (Parser.operand region ⟨.keyword .functionWord, t.position⟩ ts) := by
  intro hf c outer h
  rw [definition, Parser.operand]
  refine .bind (h.expect _ _) ?_
  rintro token c₁ ⟨ts₁, h₁⟩ ⟨⟨opening, rfl, hopening⟩, hs₁⟩
  obtain ⟨c₂, henter, hs₂⟩ := hs₁.enter .bracket
  refine .after henter (.bind (ih.parameters (by omega) hs₂) ?_)
  rintro items c₃ ⟨items', ts₃, h₃⟩ ⟨rfl, hs₃⟩
  obtain ⟨c₄, hleave, hs₄⟩ := hs₃.leave
  have := Parser.skipBreaks_length ts₃
  obtain ⟨c₅, hbreaks, hs₅⟩ := hs₄.skipBreaks
  refine .after hleave (.after hbreaks (.bind (ih.expression (by omega) hs₅.sees) ?_))
  rintro body c₆ ⟨body', rest, h₆⟩ ⟨rfl, hs₆⟩
  rw [hopening]
  exact .ok ⟨rfl, hs₆⟩

theorem parameters_step (ih : Faithful text fuel) {ts : Tokens} :
    Follows text (fuel + 1) 3 (parameters text (fuel + 1)) .bracket ts (Parser.parameters ts) := by
  intro hf c outer h
  rw [parameters, Parser.parameters]
  split
  · next p rest hv =>
    obtain ⟨c₁, c₂, hpeek, -, hadvance, hs₂⟩ := h.peek_cons hv
    exact .after hpeek (.after hadvance (.ok ⟨rfl, hs₂⟩))
  · next hne =>
    obtain ⟨c₁, hpeek, hs₁⟩ := h.peek
    have hopen : holds Parser.Closing.paren.accepts (Parser.visible .bracket ts).head? = false := by
      cases hv : Parser.visible .bracket ts with
      | nil => rfl
      | cons t rest =>
        obtain ⟨l, p⟩ := t
        cases l with
        | rightParen => exact absurd hv (hne p rest)
        | _ => rfl
    refine .after hpeek ?_
    rw [hopen, if_neg (by decide)]
    exact ih.parameterList (by omega) hs₁.sees_visible

theorem parameterList_step (ih : Faithful text fuel) {seen : List String} {ts : Tokens} :
    FollowsShown text (fuel + 1) 2 (parameterList text (fuel + 1) seen) .bracket ts
      (Parser.parameterList seen ts) := by
  intro hf c outer h
  rw [parameterList, Parser.parameterList]
  refine .bind h.expectSymbol ?_
  rintro - c₁ ⟨name, p, ts₁, h₁⟩ ⟨rfl, hname, hs₁⟩
  dsimp only
  by_cases hseen : name ∈ seen
  · rw [if_pos hseen, if_pos hseen]
    exact .error (.malformed (.repeatedParameter name) (some p))
  · rw [if_neg hseen, if_neg hseen]
    have hempty : name = "" → ¬ WellFormedTokens text.tokens := fun hn hwell =>
      hwell _ hname hn
    refine .bind (ih.parameterDefault (by omega) hs₁) ?_
    rintro default c₂ ⟨default', ts₂, h₂⟩ ⟨rfl, hs₂⟩
    refine .built (param_build_or hempty default) ?_
    dsimp only
    split
    · next q after hv =>
      obtain ⟨c₃, hadvance, hs₃⟩ := hs₂.advance_cons hv
      exact .after hadvance (.ok ⟨rfl, hs₃⟩)
    · next q after hv =>
      have := Parser.visible_cons_length hv
      obtain ⟨c₃, hadvance, hs₃⟩ := hs₂.advance_cons hv
      refine .after hadvance (.bind (ih.parameterList (by omega) hs₃.sees) ?_)
      rintro more c₄ ⟨more', rest, h₄⟩ ⟨rfl, hs₄⟩
      exact .ok ⟨rfl, hs₄⟩
    · next hparen hcomma =>
      cases hv : Parser.visible .bracket ts₂ with
      | nil =>
        obtain ⟨c₃, hadvance⟩ := hs₂.advance_nil hv
        exact .after hadvance (agrees_fail .afterParameter [] c₃)
      | cons t after =>
        obtain ⟨c₃, hadvance, -⟩ := hs₂.advance_cons hv
        refine .after hadvance ?_
        obtain ⟨l, q⟩ := t
        cases l with
        | rightParen => exact absurd hv (hparen q after)
        | comma => exact absurd hv (hcomma q after)
        | _ => exact agrees_fail .afterParameter (_ :: after) c₃

theorem parameterDefault_step (ih : Faithful text fuel) {ts : Tokens} :
    FollowsDefault text (fuel + 1) ts := by
  intro hf c outer h
  rw [parameterDefault, Parser.parameterDefault]
  split
  · next p rest hv =>
    have := Parser.visible_cons_length hv
    obtain ⟨c₁, c₂, hpeek, -, hadvance, hs₂⟩ := h.peek_cons hv
    refine .after hpeek (.after hadvance (.map (ih.expression (by omega) hs₂.sees) ?_))
    rintro default c₃ ⟨default', rest, h₃⟩ ⟨rfl, hs₃⟩
    exact .ok ⟨rfl, hs₃.sees⟩
  · next hne =>
    obtain ⟨c₁, hpeek, hs₁⟩ := h.peek
    have hassign : holds isAssign (Parser.visible .bracket ts).head? = false := by
      refine Bool.eq_false_iff.mpr fun hholds => ?_
      obtain ⟨⟨l, p⟩, rest, hv, hl⟩ := exists_of_holds hholds
      obtain rfl := eq_assign l hl
      exact hne p rest hv
    refine .after hpeek ?_
    rw [hassign, if_neg (by decide)]
    exact .ok ⟨rfl, hs₁.sees_visible⟩

theorem operatorForm_step (ih : Faithful text fuel) {t : Token}
    (ht : 0 < Parser.leftPower t.lexeme) {left : Node} {region : Region} {ts : Tokens} :
    Follows text (fuel + 1) 5 (operatorForm text (fuel + 1) (some t) left) region ts
      (Parser.operatorForm region t left ts) := by
  intro hf c outer h
  obtain ⟨l, p⟩ := t
  cases l with
  | leftParen | leftBracket =>
    rw [operatorForm, Parser.operatorForm]
    refine .bind (ih.arguments (by omega) h) ?_
    rintro args c₁ ⟨args', rest, h₁⟩ ⟨rfl, hs₁⟩
    exact .ok ⟨rfl, hs₁⟩
  | leftDouble =>
    rw [operatorForm, Parser.operatorForm]
    refine .bind (ih.arguments (by omega) h) ?_
    rintro args c₁ ⟨args', ts₁, h₁⟩ ⟨rfl, hs₁⟩
    refine .bind (hs₁.expect _ _) ?_
    rintro token c₂ ⟨rest, h₂⟩ ⟨-, hs₂⟩
    exact .ok ⟨rfl, hs₂⟩
  | operator name =>
    rw [operatorForm]
    exact ih.infixForm ht (by omega) h
  | _ => exact absurd ht (Nat.lt_irrefl 0)

theorem infixForm_step (ih : Faithful text fuel) {name : String}
    (ht : 0 < Parser.leftPower (.operator name)) {p : Position} {left : Node} {region : Region}
    {ts : Tokens} :
    Follows text (fuel + 1) 4 (infixForm text (fuel + 1) name p left) region ts
      (Parser.operatorForm region ⟨.operator name, p⟩ left ts) := by
  intro hf c outer h
  have hskip := Parser.skipBreaks_length ts
  obtain ⟨b, hbinary⟩ : ∃ b, Operator.binary? name = some b := by
    cases hname : Operator.binary? name with
    | some b => exact ⟨b, rfl⟩
    | none =>
      rw [Parser.leftPower, hname] at ht
      cases ht
  have hempty : name = "" → ¬ WellFormedTokens text.tokens := fun hn =>
    absurd hn (Parser.ne_empty_of_binary hbinary)
  rw [Parser.leftPower, hbinary, Option.elim_some] at ht
  rw [infixForm, Parser.operatorForm]
  refine .built (ofName_or hempty p) ?_
  dsimp only
  split
  · refine .bind (h.member name) ?_
    rintro right c₁ ⟨right', rest, h₁⟩ ⟨rfl, hs₁⟩
    exact .ok ⟨rfl, hs₁⟩
  · split
    · exact .error (.malformed (.unexpected (some (.operator name))) (some p))
    · rw [hbinary]
      dsimp only
      obtain ⟨c₁, hbreaks, hs₁⟩ := h.skipBreaks
      have hpower : (if b.rightAssociative then (b.power : Int) - 1 else b.power) =
          ((if b.rightAssociative then b.power - 1 else b.power : Nat) : Int) := by
        split <;> omega
      rw [hpower]
      refine .after hbreaks (.bind (ih.expression (by omega) hs₁.sees) ?_)
      rintro right c₂ ⟨right', rest, h₂⟩ ⟨rfl, hs₂⟩
      dsimp only
      cases Parser.combine name p left right with
      | error e => exact .error e
      | ok n => exact .ok ⟨rfl, hs₂⟩

theorem arguments_step (ih : Faithful text fuel) {closing : Parser.Closing} {region : Region}
    {ts : Tokens} :
    Follows text (fuel + 1) 4 (arguments text (fuel + 1) closing) region ts
      (Parser.arguments closing ts) := by
  intro hf c outer h
  obtain ⟨c₁, henter, hs₁⟩ := h.enter .bracket
  rw [arguments, Parser.arguments]
  refine .after henter ?_
  split
  · next hv =>
    obtain ⟨c₂, hpeek, hs₂⟩ := hs₁.peek
    have hlist : Agrees text _ (outcome (argumentList text fuel closing) c₂) _ :=
      ih.argumentList (by omega) hs₂.sees_visible
    rw [argumentList_of_nil hv] at hlist
    refine .after hpeek ?_
    rw [hv]
    exact hlist.fails
  · next t rest hv =>
    obtain ⟨c₂, c₃, hpeek, hs₂, hadvance, hs₃⟩ := hs₁.peek_cons hv
    refine .after hpeek ?_
    have htest : holds closing.accepts (some t) = closing.accepts t.lexeme := rfl
    rw [htest]
    split
    · obtain ⟨c₄, hleave, hs₄⟩ := hs₃.leave
      exact .after hadvance (.after hleave (.ok ⟨rfl, hs₄⟩))
    · rw [← hv] at hs₂
      refine .andThen (ih.argumentList (by omega) hs₂.sees_visible) ?_
      rintro args c₄ ⟨args', rest, h₄⟩ ⟨rfl, hs₄⟩
      obtain ⟨c₅, hleave, hs₅⟩ := hs₄.leave
      exact .after hleave (.ok ⟨rfl, hs₅⟩)

theorem argumentList_step (ih : Faithful text fuel) {closing : Parser.Closing} {ts : Tokens} :
    FollowsShown text (fuel + 1) 3 (argumentList text (fuel + 1) closing) .bracket ts
      (Parser.argumentList closing ts) := by
  intro hf c outer h
  rw [argumentList, Parser.argumentList]
  refine .bind (ih.argument (by omega) h) ?_
  rintro arg c₁ ⟨arg', ts₁, h₁⟩ ⟨rfl, hs₁⟩
  dsimp only
  split
  · next hv =>
    obtain ⟨c₂, hadvance⟩ := hs₁.advance_nil hv
    exact .after hadvance (agrees_fail .afterArgument [] c₂)
  · next t after hv =>
    have := Parser.visible_cons_length hv
    obtain ⟨c₂, hadvance, hs₂⟩ := hs₁.advance_cons hv
    refine .after hadvance ?_
    have htest : holds closing.accepts (some t) = closing.accepts t.lexeme := rfl
    rw [htest]
    split
    · exact .ok ⟨rfl, hs₂⟩
    · obtain ⟨l, q⟩ := t
      cases l with
      | comma =>
        refine .bind (ih.argumentList (by omega) hs₂.sees) ?_
        rintro more c₃ ⟨more', rest, h₃⟩ ⟨rfl, hs₃⟩
        exact .ok ⟨rfl, hs₃⟩
      | _ => exact agrees_fail .afterArgument (_ :: after) c₂

theorem argument_step (ih : Faithful text fuel) {closing : Parser.Closing} {ts : Tokens} :
    FollowsShown text (fuel + 1) 2 (argument text (fuel + 1) closing) .bracket ts
      (Parser.argument closing ts) := by
  intro hf c outer h
  rw [argument, Parser.argument]
  split
  · next hv =>
    obtain ⟨c₁, hpeek, hs₁⟩ := h.peek
    have hexpression : Agrees text _ (outcome (expression text fuel (0 : Nat)) c₁) _ :=
      ih.expression (by omega) hs₁.sees_visible
    have hnone : Parser.expression .bracket 0 ts = Parser.unexpected [] := by
      rw [Parser.expression]
      split
      · rfl
      · next hcons =>
        rw [hv] at hcons
        cases hcons
    rw [hnone] at hexpression
    rw [hv] at hpeek
    refine .after hpeek ?_
    show Agrees text _
      (outcome (expression text fuel 0 >>= fun value => pure (⟨none, value⟩ : Arg Node)) c₁) _
    exact hexpression.fails
  · next t rest hv =>
    have hlt := Parser.visible_cons_length hv
    obtain ⟨c₁, c₂, hpeek, hs₁, hadvance, hs₂⟩ := h.peek_cons hv
    refine .after hpeek ?_
    have htest : holds closing.endsArgument (some t) = closing.endsArgument t.lexeme := rfl
    rw [htest]
    split
    · exact agrees_fail (fun _ => .emptyArgument) (t :: rest) c₁
    · refine .after hs₁.argumentName? ?_
      rw [Parser.afterName?]
      cases hname : Parser.argumentName? t rest with
      | none =>
        rw [← hv] at hs₁
        refine .bind (ih.expression (by omega) hs₁.sees_visible) ?_
        rintro value c₃ ⟨value', rest, h₃⟩ ⟨rfl, hs₃⟩
        exact .ok ⟨rfl, hs₃⟩
      | some r =>
        obtain ⟨name, after, hle⟩ := r
        obtain ⟨-, p, hassign⟩ := Parser.afterName?_eq_some.mp (Parser.afterName?_eq hname)
        obtain ⟨c₃, hadvance', hs₃⟩ := hs₂.advance_cons hassign
        obtain ⟨c₄, hpeek', hs₄⟩ := hs₃.peek
        refine .after hadvance (.after hadvance' (.after hpeek' ?_))
        have htest : holds closing.endsArgument (Parser.visible .bracket after).head? =
            (Parser.found (Parser.visible .bracket after)).any closing.endsArgument := by
          rw [Parser.found, Option.any_map]
          rfl
        rw [htest]
        dsimp only
        split
        · exact agrees_fail (fun _ => .missingValue name) (Parser.visible .bracket after) c₄
        · refine .bind (ih.expression (by omega) hs₄.sees_visible) ?_
          rintro value c₅ ⟨value', rest, h₅⟩ ⟨rfl, hs₅⟩
          by_cases hempty : name = ""
          · rw [if_pos hempty]
            dsimp only
            rw [if_pos hempty]
            exact .error .emptyArgumentName
          · rw [if_neg hempty]
            dsimp only
            rw [if_neg hempty]
            exact .ok ⟨rfl, hs₅⟩

/-- All functions follow those of the parser as far as their fuel goes. -/
theorem faithful (text : TokenText) (fuel : Nat) : Faithful text fuel := by
  induction fuel with
  | zero =>
    exact {
      expression := .zero
      operators := .zero
      operand := fun _ => .zero
      block := fun _ => .zero
      statements := fun hf => absurd hf (Nat.not_lt_zero _)
      condition := .zero
      conditional := fun _ => .zero
      whileLoop := fun _ => .zero
      forLoop := fun _ => .zero
      definition := fun _ => .zero
      parameters := .zero
      parameterList := .zero
      parameterDefault := fun hf => absurd hf (Nat.not_lt_zero _)
      operatorForm := fun _ => .zero
      infixForm := fun _ => .zero
      arguments := .zero
      argumentList := .zero
      argument := .zero
    }
  | succ fuel ih =>
    exact {
      expression := expression_step ih
      operators := operators_step ih
      operand := operand_step ih
      block := block_step ih
      statements := statements_step ih
      condition := condition_step ih
      conditional := conditional_step ih
      whileLoop := whileLoop_step ih
      forLoop := forLoop_step ih
      definition := definition_step ih
      parameters := parameters_step ih
      parameterList := parameterList_step ih
      parameterDefault := parameterDefault_step ih
      operatorForm := operatorForm_step ih
      infixForm := infixForm_step ih
      arguments := arguments_step ih
      argumentList := argumentList_step ih
      argument := argument_step ih
    }

/-- The cursor reads the program that the parser reads, and is at the end then. -/
theorem program_agrees {fuel : Nat} {c : Cursor} {outer : List Region} {ts : Tokens}
    (hf : 5 * ts.length + 2 < fuel) (h : Stands text c (.top :: outer) ts) :
    Agrees text (fun ns c' ns' => ns = ns' ∧ Stands text c' (.top :: outer) [])
      (outcome (program text fuel) c) (Parser.program ts) := by
  obtain _ | fuel := fuel
  · exact absurd hf (Nat.not_lt_zero _)
  have hseparators := Parser.skipSeparators_length ts
  obtain ⟨c₁, hskip, hs₁⟩ := h.skipSeparators
  rw [Parser.program]
  split
  · next hs =>
    rw [hs] at hs₁
    obtain ⟨c₂, hpeek, hs₂⟩ := hs₁.peek_nil rfl
    rw [program]
    exact .after hskip (.after hpeek (.ok ⟨rfl, hs₂⟩))
  · next t rest hs =>
    rw [hs] at hs₁ hseparators
    obtain ⟨c₂, -, hpeek, hs₂, -⟩ := hs₁.peek_cons rfl
    rw [program]
    refine .after hskip (.after hpeek ?_)
    rw [Option.isNone_some, if_neg (by decide)]
    refine .bind ((faithful text fuel).expression (by omega) hs₂.sees) ?_
    rintro n c₃ ⟨n', ts₃, h₃⟩ ⟨rfl, hs₃⟩
    have hlt : ts₃.length < ts.length := Nat.lt_of_lt_of_le h₃ hseparators
    obtain ⟨c₄, hpeek, hs₄⟩ := hs₃.peek
    refine .after hpeek ?_
    dsimp only [Parser.visible]
    rw [holds_endsExpression]
    split
    · refine .bind (program_agrees (by omega) hs₄) ?_
      rintro more c₅ more' ⟨rfl, hs₅⟩
      exact .ok ⟨rfl, hs₅⟩
    · exact agrees_fail .unexpected ts₃ c₄
termination_by ts.length

end RCode.Cursor
