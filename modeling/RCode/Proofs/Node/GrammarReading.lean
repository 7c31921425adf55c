import RCode.Proofs.Node.Grammar

/-!
# Reading what a row spells

The parser reads back the tree that a row spells, wherever the row may stand (`Spells.meaning`): an
expression is read by a caller that asks for operators of some power and goes on with what follows.
The invariant of the induction is `Follows`: nothing that follows a row is drawn into it.
-/

set_option autoImplicit false

namespace RCode.Grammar

open RCode.Parser

/-! ## Tokens that are seen -/

/-- A token that can start an expression is seen where it stands. -/
theorem skipBreaks_of_opens {x : Lexeme} {p : Position} {ts : Tokens} (h : opens x = true) :
    skipBreaks (⟨x, p⟩ :: ts) = ⟨x, p⟩ :: ts := by
  cases x with
  | newline => cases h
  | _ => rfl

theorem visible_of_opens {region : Region} {x : Lexeme} {p : Position} {ts : Tokens}
    (h : opens x = true) : visible region (⟨x, p⟩ :: ts) = ⟨x, p⟩ :: ts := by
  cases region with
  | bracket => exact skipBreaks_of_opens h
  | _ => rfl

section

variable {whole isOpen : Bool} {power : Nat} {l : Layout} {r : Phrase}

theorem Spells.visible_tokens (h : Spells (.expression whole power isOpen) l r) (region : Region)
    (rest : Tokens) : visible region (l.tokens ++ rest) = l.tokens ++ rest := by
  obtain ⟨x, ts, hl, hx⟩ := h.starts rfl
  rw [hl, List.cons_append]
  exact visible_of_opens hx

theorem Spells.skipBreaks_tokens (h : Spells (.expression whole power isOpen) l r)
    (rest : Tokens) : skipBreaks (l.tokens ++ rest) = l.tokens ++ rest :=
  h.visible_tokens .bracket rest

/-- An expression starts no line with `else`. -/
theorem Spells.afterElse?_tokens (h : Spells (.expression whole power isOpen) l r)
    (region : Region) (rest : Tokens) : afterElse? region (l.tokens ++ rest) = none := by
  obtain ⟨x, ts, hl, hx⟩ := h.starts rfl
  cases ha : afterElse? region (l.tokens ++ rest) with
  | none => rfl
  | some after =>
    obtain ⟨p, hp⟩ := afterElse?_eq_some.mp ha
    have hb : beforeElse region (l.tokens ++ rest) = l.tokens ++ rest := by
      unfold beforeElse
      split
      · rfl
      · exact h.skipBreaks_tokens rest
    rw [hb, hl] at hp
    cases hp
    cases hx

end

/-! ## What may follow a row -/

/-- What follows an expression is not drawn into it: no operator that follows binds tighter than the
right end of the expression, and after an open body there is neither an operator nor an `else`. -/
structure Follows (region : Region) (power : Nat) (isOpen : Bool) (rest : Tokens) : Prop where
  bound : ∀ t ∈ (visible region rest).head?,
    leftPower t.lexeme ≤ if isOpen then 0 else tailPower power
  noElse : isOpen = true → afterElse? region rest = none

namespace Follows

variable {region : Region} {power power' : Nat} {isOpen : Bool} {rest : Tokens}

/-- What may follow an operator expression may follow its right operand. -/
theorem inner (h : Follows region power isOpen rest)
    (hp : isOpen = true ∨ tailPower power ≤ tailPower power') :
    Follows region power' isOpen rest := by
  refine ⟨?_, h.noElse⟩
  intro t ht
  have hbound := h.bound t ht
  cases isOpen with
  | true => exact hbound
  | false =>
    rcases hp with hp | hp
    · cases hp
    · simp only [Bool.false_eq_true, if_false] at hbound ⊢
      exact Nat.le_trans hbound hp

/-- What may follow an expression ends the operators that are read at its own power. -/
theorem stops (h : Follows region power isOpen rest) {p : Nat} (hp : tailPower power ≤ p) :
    ∀ t ∈ (visible region rest).head?, leftPower t.lexeme ≤ p := by
  intro t ht
  have hbound := h.bound t ht
  split at hbound
  · omega
  · exact Nat.le_trans hbound hp

end Follows

/-- A token that binds nothing and is seen may follow everything, but no `else` an open body. -/
theorem follows_of_closer {region : Region} {power : Nat} {isOpen : Bool} {t : Token}
    {rest : Tokens} (hpower : leftPower t.lexeme = 0) (hseen : t.lexeme ≠ .newline)
    (helse : isOpen = true → t.lexeme ≠ .keyword .elseWord) :
    Follows region power isOpen (t :: rest) := by
  obtain ⟨x, p⟩ := t
  have hskip : skipBreaks (⟨x, p⟩ :: rest) = ⟨x, p⟩ :: rest := by
    cases x with
    | newline => exact absurd rfl hseen
    | _ => rfl
  have hvis : visible region (⟨x, p⟩ :: rest) = ⟨x, p⟩ :: rest := by
    cases region with
    | bracket => exact hskip
    | _ => rfl
  refine ⟨?_, fun hopen => ?_⟩
  · rw [hvis]
    rintro t ⟨⟩
    rw [show leftPower x = 0 from hpower]
    exact Nat.zero_le _
  · cases ha : afterElse? region (⟨x, p⟩ :: rest) with
    | none => rfl
    | some after =>
      obtain ⟨q, hq⟩ := afterElse?_eq_some.mp ha
      have hb : beforeElse region (⟨x, p⟩ :: rest) = ⟨x, p⟩ :: rest := by
        unfold beforeElse
        split
        · rfl
        · exact hskip
      rw [hb] at hq
      cases hq
      exact absurd rfl (helse hopen)

/-! ## Arguments that are not named -/

/-- The operator is not read as the `=` of a named argument. -/
theorem skipBreaks_ne_assign {x : Lexeme} {p : Position} {ts : Tokens} (hx : x ≠ .newline)
    (hne : x ≠ .operator "=") :
    ∀ q after, skipBreaks (⟨x, p⟩ :: ts) ≠ ⟨.operator "=", q⟩ :: after := by
  intro q after h
  have hskip : skipBreaks (⟨x, p⟩ :: ts) = ⟨x, p⟩ :: ts := by
    cases x with
    | newline => exact absurd rfl hx
    | _ => rfl
  rw [hskip] at h
  cases h
  exact hne rfl

theorem afterName?_eq_none {t : Token} {ts : Tokens}
    (h : ∀ p after, skipBreaks ts ≠ ⟨.operator "=", p⟩ :: after) : afterName? t ts = none := by
  cases ha : afterName? t ts with
  | none => rfl
  | some found =>
    obtain ⟨-, p, hp⟩ := afterName?_eq_some.mp ha
    exact absurd hp (h p found.2)

theorem afterName?_of_word {x : Lexeme} {p : Position} {ts : Tokens} (hs : ∀ name, x ≠ .symbol name)
    (ht : ∀ s, x ≠ .text s) : afterName? ⟨x, p⟩ ts = none := by
  cases ha : afterName? ⟨x, p⟩ ts with
  | none => rfl
  | some found =>
    obtain ⟨hx, -⟩ := afterName?_eq_some.mp ha
    rcases hx with hx | hx
    · exact absurd hx (hs found.1)
    · exact absurd hx (ht found.1)

theorem gap_tokens (name : String) : (gap name).tokens = [] := by
  unfold gap
  split <;> rfl

theorem ne_assign_of_power {name : String} {b : Operator.Binding}
    (hb : Operator.binary? name = some b) (hp : IsArgumentPower b.power) : name ≠ "=" := by
  rintro rfl
  have hassign : Operator.binary? "=" = some ⟨20, true⟩ := by decide
  rw [hassign] at hb
  cases hb
  rcases hp with hp | hp
  · cases hp
  · exact absurd hp (by decide)

/-- The left operand of an operator that does not read as a named argument does not either. -/
theorem IsArgumentPower.left {b : Operator.Binding} {name : String} {power : Nat}
    (hb : Operator.binary? name = some b) (hp : IsArgumentPower b.power)
    (h : b.power ≤ tailPower power) : IsArgumentPower power := by
  have := (binary?_power hb).1
  have := tailPower_le power
  rcases hp with hp | hp
  · omega
  · exact .inr (by omega)

/-- Whether a row reads as a named argument is settled within its first part. -/
theorem afterName?_append {l l' : Layout} {x : Lexeme} {us rest : Tokens}
    (hx : l.tokens = ⟨x, .nowhere⟩ :: us)
    (h : ∀ {t : Token} {ts : Tokens}, l.tokens = t :: ts →
      afterName? t (ts ++ (l'.tokens ++ rest)) = none)
    {t : Token} {ts : Tokens} (hts : (l ++ l').tokens = t :: ts) :
    afterName? t (ts ++ rest) = none := by
  rw [Layout.tokens_append, hx, List.cons_append] at hts
  obtain ⟨rfl, rfl⟩ := List.cons.inj hts
  rw [List.append_assoc]
  exact h hx

/-- An expression that is no assignment by `=` does not read as a named argument. -/
theorem Spells.afterName?_none {style : Style} {l : Layout} {r : Phrase} (h : Spells style l r) :
    ∀ {whole isOpen : Bool} {power : Nat}, style = .expression whole power isOpen →
      IsArgumentPower power → ∀ {rest : Tokens},
        (∀ p after, skipBreaks rest ≠ ⟨.operator "=", p⟩ :: after) →
        ∀ {t : Token} {ts : Tokens}, l.tokens = t :: ts → afterName? t (ts ++ rest) = none := by
  induction h with
  | literal => rintro _ _ _ - - rest hrest t ts ⟨⟩; exact afterName?_eq_none hrest
  | symbol => rintro _ _ _ - - rest hrest t ts ⟨⟩; exact afterName?_eq_none hrest
  | unary =>
    rintro _ _ _ - - rest - t ts ⟨⟩
    exact afterName?_of_word (fun _ h => Lexeme.noConfusion h) (fun _ h => Lexeme.noConfusion h)
  | @binary name b power power' whole whole' isOpen l l' left right hb _ _ _ _ hl hp _ _ _ ih =>
    rintro _ _ _ ⟨⟩ hpower rest - t ts hts
    obtain ⟨x, us, hx, -⟩ := hl.starts rfl
    refine afterName?_append hx (ih rfl (hpower.left hb hp) ?_) hts
    simp only [Layout.tokens_append, gap_tokens, Layout.tokens_operator, List.nil_append,
      List.cons_append]
    exact skipBreaks_ne_assign (fun h => Lexeme.noConfusion h) (fun h =>
      ne_assign_of_power hb hpower (Lexeme.operator.inj h))
  | @member name power p whole l left right u hb _ _ _ hl hp ih =>
    rintro _ _ _ ⟨⟩ hpower rest - t ts hts
    obtain ⟨x, us, hx, -⟩ := hl.starts rfl
    refine afterName?_append hx (ih rfl (IsArgumentPower.left hb hpower hp) ?_) hts
    exact skipBreaks_ne_assign (fun h => Lexeme.noConfusion h) (fun h =>
      ne_assign_of_power hb hpower (Lexeme.operator.inj h))
  | application hl hp _ ih =>
    rintro _ _ _ - - rest - t ts hts
    obtain ⟨x, us, hx, -⟩ := hl.starts rfl
    refine afterName?_append hx (ih rfl (.inr (Nat.lt_of_lt_of_le (by decide) hp)) ?_) hts
    rw [Layout.tokens_inParens]
    exact skipBreaks_ne_assign (fun h => Lexeme.noConfusion h) (fun h => Lexeme.noConfusion h)
  | index hl hp _ ih =>
    rintro _ _ _ - - rest - t ts hts
    obtain ⟨x, us, hx, -⟩ := hl.starts rfl
    refine afterName?_append hx (ih rfl (.inr (Nat.lt_of_lt_of_le (by decide) hp)) ?_) hts
    exact skipBreaks_ne_assign (fun h => Lexeme.noConfusion h) (fun h => Lexeme.noConfusion h)
  | doubleIndex hl hp _ ih =>
    rintro _ _ _ - - rest - t ts hts
    obtain ⟨x, us, hx, -⟩ := hl.starts rfl
    refine afterName?_append hx (ih rfl (.inr (Nat.lt_of_lt_of_le (by decide) hp)) ?_) hts
    exact skipBreaks_ne_assign (fun h => Lexeme.noConfusion h) (fun h => Lexeme.noConfusion h)
  | group =>
    rintro _ _ _ - - rest - t ts hts
    rw [Layout.tokens_inParens] at hts
    obtain ⟨rfl, rfl⟩ := List.cons.inj hts
    exact afterName?_of_word (fun _ h => Lexeme.noConfusion h) (fun _ h => Lexeme.noConfusion h)
  | block | conditional | alternative | whileLoop | forLoop | repeatLoop | definition | breakJump
  | nextJump =>
    rintro _ _ _ - - rest - t ts ⟨⟩
    exact afterName?_of_word (fun _ h => Lexeme.noConfusion h) (fun _ h => Lexeme.noConfusion h)
  | statement | unnamed | named | withoutDefault | withDefault => rintro _ _ _ ⟨⟩

/-! ## Reading rows back -/

/-- What a row means to the parser: it is read as what it spells, wherever it may stand. An
expression is read by a caller that goes on with the operators after it. -/
def Meaning : Style → Layout → Phrase → Prop
  | .expression whole power isOpen, l, .node m =>
    ∀ (region : Region) (p : Nat) (rest : Tokens) (n : Node) (rest' : Tokens),
      p < Operator.postfixPower → whole = true ∨ p < power → Follows region power isOpen rest →
      Reads (.operators region p m) rest (.node n) rest' →
      Reads (.expression region p) (l.tokens ++ rest) (.node n) rest'
  | .statement, l, .node m =>
    ∀ rest : Tokens, endsStatement rest = true → afterElse? .block rest = none →
      Reads (.expression .block 0) (l.tokens ++ rest) (.node m) rest
  | .argument, l, .args as =>
    ∀ (closing : Closing) (t : Token) (rest : Tokens), closing.endsArgument t.lexeme = true →
      Reads (.argument closing) (l.tokens ++ t :: rest) (.args as) (t :: rest)
  | .parameter, l, .params [p] =>
    ∃ ts, l.tokens = ⟨.symbol p.name, .nowhere⟩ :: ts ∧
      ∀ (t : Token) (rest : Tokens), t.lexeme = .comma ∨ t.lexeme = .rightParen →
        Reads .parameterDefault (ts ++ t :: rest) (.node p.default) (t :: rest)
  | _, _, _ => False

/-- The operators after an operand are looked for among the tokens that are seen. -/
theorem reads_operators_visible {region : Region} {p : Nat} {left : Node} {ts rest : Tokens}
    {r : Phrase} (h : Reads (.operators region p left) ts r rest) :
    Reads (.operators region p left) (visible region ts) r rest := by
  cases h with
  | done hstop =>
    have : Reads (.operators region p left) (visible region ts) (.node left)
        (visible region (visible region ts)) :=
      .done (by rw [visible_visible]; exact hstop)
    rw [visible_visible] at this
    exact this
  | more hv hp hf ho => exact .more (by rw [visible_visible]; exact hv) hp hf ho

/-- A row that spells an expression is read up to what follows it, if an operator that follows is
left to the caller. -/
theorem Meaning.reads_up_to {whole isOpen : Bool} {power : Nat} {l : Layout} {m : Node}
    (h : Meaning (.expression whole power isOpen) l (.node m)) {region : Region} {p : Nat}
    {rest : Tokens} (hlimit : p < Operator.postfixPower) (hstart : whole = true ∨ p < power)
    (hfollows : Follows region power isOpen rest)
    (hstop : ∀ t ∈ (visible region rest).head?, leftPower t.lexeme ≤ p) :
    Reads (.expression region p) (l.tokens ++ rest) (.node m) (visible region rest) :=
  h region p rest m _ hlimit hstart hfollows (.done hstop)

theorem zero_lt_postfixPower : 0 < Operator.postfixPower := by decide

theorem visible_closer {region : Region} {t : Token} {rest : Tokens} (h : t.lexeme ≠ .newline) :
    visible region (t :: rest) = t :: rest := by
  obtain ⟨x, p⟩ := t
  cases region with
  | bracket =>
    cases x with
    | newline => exact absurd rfl h
    | _ => rfl
  | _ => rfl

/-- An expression before a token that binds nothing is read up to that token. -/
theorem Meaning.reads_before {whole isOpen : Bool} {power : Nat} {l : Layout} {m : Node}
    (h : Meaning (.expression whole power isOpen) l (.node m)) (region : Region) {p : Nat}
    {t : Token} (rest : Tokens) (hlimit : p < Operator.postfixPower)
    (hstart : whole = true ∨ p < power) (hpower : leftPower t.lexeme = 0)
    (hseen : t.lexeme ≠ .newline) (helse : isOpen = true → t.lexeme ≠ .keyword .elseWord) :
    Reads (.expression region p) (l.tokens ++ t :: rest) (.node m) (t :: rest) := by
  have hvis : visible region (t :: rest) = t :: rest := visible_closer hseen
  have hread := h.reads_up_to hlimit hstart (follows_of_closer hpower hseen helse) (by
    rw [hvis]
    rintro u ⟨⟩
    exact hpower ▸ Nat.zero_le p)
  rw [hvis] at hread
  exact hread

/-- An expression in round brackets is read up to the closing one. -/
theorem reads_in_parens {whole isOpen : Bool} {power : Nat} {l : Layout} {m : Node}
    (hspells : Spells (.expression whole power isOpen) l (.node m))
    (h : Meaning (.expression whole power isOpen) l (.node m)) (rest : Tokens) :
    Reads (.expression .bracket 0) (l.tokens ++ ⟨.rightParen, .nowhere⟩ :: rest) (.node m)
      (⟨.rightParen, .nowhere⟩ :: rest) :=
  h.reads_before .bracket rest zero_lt_postfixPower hspells.whole_or_pos rfl
    (fun h => Lexeme.noConfusion h) (fun _ h => Lexeme.noConfusion h)

/-- The body of a control flow expression is read by an expression that takes all operators. -/
theorem reads_body {whole isOpen : Bool} {power : Nat} {l : Layout} {m : Node}
    (hspells : Spells (.expression whole power isOpen) l (.node m))
    (h : Meaning (.expression whole power isOpen) l (.node m)) {region : Region} {rest : Tokens}
    (hfollows : Follows region 0 true rest) :
    Reads (.expression region 0) (skipBreaks (l.tokens ++ rest)) (.node m)
      (visible region rest) := by
  rw [hspells.skipBreaks_tokens]
  have hbound : ∀ t ∈ (visible region rest).head?, leftPower t.lexeme ≤ 0 := hfollows.bound
  refine h.reads_up_to zero_lt_postfixPower hspells.whole_or_pos ⟨?_, fun _ => hfollows.noElse rfl⟩
    hbound
  intro t ht
  exact Nat.le_trans (hbound t ht) (Nat.zero_le _)

/-! ## Rows of arguments, parameters and statements -/

/-- An argument starts with a lexeme that ends no argument. -/
theorem Spells.argument_starts {l : Layout} {a : Arg Node} (h : Spells .argument l (.args [a])) :
    ∃ x ts, l.tokens = ⟨x, .nowhere⟩ :: ts ∧ opens x = true := by
  cases h with
  | unnamed hl => exact hl.starts rfl
  | named => exact ⟨_, _, rfl, rfl⟩

theorem endsArgument_of_opens {x : Lexeme} (h : opens x = true) (closing : Closing) :
    closing.endsArgument x = false := by
  cases x with
  | comma | rightParen | rightBracket => cases h
  | _ => cases closing <;> rfl

theorem accepts_of_opens {x : Lexeme} (h : opens x = true) (closing : Closing) :
    closing.accepts x = false := by
  cases x with
  | rightParen | rightBracket => cases h
  | _ => cases closing <;> rfl

theorem rowLayout_cons {α : Type} (r s : Row α) (rows : List (Row α)) :
    rowLayout (r :: s :: rows) = r.1 ++ [.lexeme .comma, .space] ++ rowLayout (s :: rows) :=
  rfl

theorem endsArgument_of_accepts {closing : Closing} {x : Lexeme} (h : closing.accepts x = true) :
    closing.endsArgument x = true := by
  cases x with
  | comma => rfl
  | _ => exact h

theorem ne_newline_of_accepts {closing : Closing} {x : Lexeme} (h : closing.accepts x = true) :
    x ≠ .newline := by
  rintro rfl
  cases closing <;> cases h

/-- Arguments with commas between them are read up to the closing bracket. -/
theorem reads_argumentList {closing : Closing} {t : Token} {rest : Tokens}
    (hclose : closing.accepts t.lexeme = true) {r : Row (Arg Node)} {rows : List (Row (Arg Node))}
    (h : ∀ s ∈ r :: rows, Meaning .argument s.1 (.args [s.2])) :
    Reads (.argumentList closing) ((rowLayout (r :: rows)).tokens ++ t :: rest)
      (.args ((r :: rows).map Prod.snd)) rest := by
  induction rows generalizing r with
  | nil =>
    have := h r List.mem_cons_self closing t rest (endsArgument_of_accepts hclose)
    exact .lastArgument this (visible_closer (ne_newline_of_accepts hclose)) hclose
  | cons s rows ih =>
    rw [rowLayout_cons, Layout.tokens_append, Layout.tokens_append, List.append_assoc,
      List.append_assoc]
    have hr := h r List.mem_cons_self closing ⟨.comma, .nowhere⟩
      ((rowLayout (s :: rows)).tokens ++ t :: rest) rfl
    exact .argument hr rfl (ih fun u hu => h u (List.mem_cons_of_mem r hu))

theorem reads_arguments {closing : Closing} {t : Token} {rest : Tokens}
    (hclose : closing.accepts t.lexeme = true) {rows : List (Row (Arg Node))}
    (hspells : ∀ r ∈ rows, Spells .argument r.1 (.args [r.2]))
    (h : ∀ r ∈ rows, Meaning .argument r.1 (.args [r.2])) :
    Reads (.arguments closing) ((rowLayout rows).tokens ++ t :: rest)
      (.args (rows.map Prod.snd)) rest := by
  cases rows with
  | nil => exact .noArguments (visible_closer (ne_newline_of_accepts hclose)) hclose
  | cons r rows =>
    have hlist : Reads (.argumentList closing) ((rowLayout (r :: rows)).tokens ++ t :: rest)
        (.args ((r :: rows).map Prod.snd)) rest := reads_argumentList hclose h
    obtain ⟨x, ts, hx, hopens⟩ := (hspells r List.mem_cons_self).argument_starts
    have hstart : ∃ us, (rowLayout (r :: rows)).tokens = ⟨x, .nowhere⟩ :: us := by
      cases rows with
      | nil => exact ⟨ts, hx⟩
      | cons s rows =>
        rw [rowLayout_cons, Layout.tokens_append, Layout.tokens_append, hx]
        exact ⟨_, rfl⟩
    obtain ⟨us, hus⟩ := hstart
    have hvis : visible .bracket ((rowLayout (r :: rows)).tokens ++ t :: rest) =
        ⟨x, .nowhere⟩ :: (us ++ t :: rest) := by
      rw [hus, List.cons_append]
      exact visible_of_opens hopens
    exact .someArguments hvis (accepts_of_opens hopens closing) hlist

/-- Parameters with commas between them are read up to the closing bracket, if their names differ
from each other and from those seen. -/
theorem reads_parameterList {p : Position} {rest : Tokens} {r : Row (Param Node)}
    {rows : List (Row (Param Node))} {seen : List String}
    (hnames : ((r :: rows).map fun s => s.2.name).Nodup)
    (hseen : ∀ s ∈ r :: rows, s.2.name ∉ seen)
    (h : ∀ s ∈ r :: rows, Meaning .parameter s.1 (.params [s.2])) :
    Reads (.parameterList seen) ((rowLayout (r :: rows)).tokens ++ ⟨.rightParen, p⟩ :: rest)
      (.params ((r :: rows).map Prod.snd)) rest := by
  induction rows generalizing r seen with
  | nil =>
    obtain ⟨ts, hts, hdefault⟩ := h r List.mem_cons_self
    rw [show (rowLayout [r]).tokens = _ from hts]
    exact .lastParameter rfl (hseen r List.mem_cons_self) (hdefault _ _ (.inr rfl)) rfl
  | cons s rows ih =>
    obtain ⟨ts, hts, hdefault⟩ := h r List.mem_cons_self
    rw [rowLayout_cons, Layout.tokens_append, Layout.tokens_append, List.append_assoc,
      List.append_assoc, hts]
    obtain ⟨hfirst, hothers⟩ := List.nodup_cons.mp hnames
    refine .parameter rfl (hseen r List.mem_cons_self)
      (hdefault ⟨.comma, .nowhere⟩ _ (.inl rfl)) rfl (ih hothers ?_ ?_)
    · intro u hu hmem
      rcases List.mem_cons.mp hmem with heq | hmem
      · exact hfirst (List.mem_map.mpr ⟨u, hu, heq⟩)
      · exact hseen u (List.mem_cons_of_mem r hu) hmem
    · exact fun u hu => h u (List.mem_cons_of_mem r hu)

theorem reads_parameters {p : Position} {rest : Tokens} {rows : List (Row (Param Node))}
    (hnames : (rows.map fun s => s.2.name).Nodup)
    (h : ∀ s ∈ rows, Meaning .parameter s.1 (.params [s.2])) :
    Reads .parameters ((rowLayout rows).tokens ++ ⟨.rightParen, p⟩ :: rest)
      (.params (rows.map Prod.snd)) rest := by
  cases rows with
  | nil => exact .noParameters rfl
  | cons r rows =>
    refine .someParameters ?_ (reads_parameterList hnames (fun s _ => List.not_mem_nil) h)
    intro q after hv
    obtain ⟨ts, hts, -⟩ := h r List.mem_cons_self
    cases rows with
    | nil =>
      rw [show (rowLayout [r]).tokens = _ from hts] at hv
      cases hv
    | cons s rows =>
      rw [rowLayout_cons, Layout.tokens_append, Layout.tokens_append, hts] at hv
      cases hv

/-- The statements of a block, each after a line break. -/
abbrev statementTokens (rows : List (Row Node)) : Tokens :=
  Layout.tokens (rows.flatMap fun r => .lineBreak 1 :: Layout.deepen r.1)

theorem statementTokens_cons (r : Row Node) (rows : List (Row Node)) :
    statementTokens (r :: rows) =
      ⟨.newline, .nowhere⟩ :: (r.1.tokens ++ statementTokens rows) := by
  simp only [statementTokens, List.flatMap_cons, Layout.tokens_append, Layout.tokens_lineBreak,
    Layout.tokens_deepen, List.cons_append]

theorem afterElse?_newline (p : Position) (ts : Tokens) :
    afterElse? .block (⟨.newline, p⟩ :: ts) = afterElse? .block ts := by
  have hb : beforeElse .block (⟨.newline, p⟩ :: ts) = beforeElse .block ts := rfl
  cases h : afterElse? .block ts with
  | some after =>
    obtain ⟨q, hq⟩ := afterElse?_eq_some.mp h
    exact afterElse?_eq_some.mpr ⟨q, hb.trans hq⟩
  | none =>
    cases h' : afterElse? .block (⟨.newline, p⟩ :: ts) with
    | none => rfl
    | some after =>
      obtain ⟨q, hq⟩ := afterElse?_eq_some.mp h'
      rw [afterElse?_eq_some.mpr ⟨q, hb.symm.trans hq⟩] at h
      cases h

/-- What follows a statement ends it. -/
theorem statement_ends (p q : Position) (rest : Tokens) {rows : List (Row Node)}
    (hspells : ∀ r ∈ rows, Spells .statement r.1 (.node r.2)) :
    endsStatement (statementTokens rows ++ ⟨.newline, p⟩ :: ⟨.rightBrace, q⟩ :: rest) = true ∧
      afterElse? .block (statementTokens rows ++ ⟨.newline, p⟩ :: ⟨.rightBrace, q⟩ :: rest) =
        none := by
  cases rows with
  | nil =>
    refine ⟨rfl, ?_⟩
    have : Follows .block 0 true (⟨.rightBrace, q⟩ :: rest) :=
      follows_of_closer rfl (fun h => Lexeme.noConfusion h) (fun _ h => Lexeme.noConfusion h)
    exact (afterElse?_newline p _).trans (this.noElse rfl)
  | cons s rows =>
    rw [statementTokens_cons, List.cons_append, List.append_assoc]
    refine ⟨rfl, ?_⟩
    rw [afterElse?_newline]
    cases hspells s List.mem_cons_self with
    | statement hl => exact hl.afterElse?_tokens .block _

/-- Statements on lines of their own are read up to the closing brace. -/
theorem reads_statements {opening p q : Position} {rest : Tokens} {rows : List (Row Node)}
    (hspells : ∀ r ∈ rows, Spells .statement r.1 (.node r.2))
    (h : ∀ r ∈ rows, Meaning .statement r.1 (.node r.2)) :
    Reads (.statements opening)
      (statementTokens rows ++ ⟨.newline, p⟩ :: ⟨.rightBrace, q⟩ :: rest)
      (.nodes (rows.map Prod.snd)) rest := by
  induction rows with
  | nil => exact .blockEnd rfl
  | cons r rows ih =>
    have hothers : ∀ s ∈ rows, Spells .statement s.1 (.node s.2) :=
      fun s hs => hspells s (List.mem_cons_of_mem r hs)
    have htail := ih hothers fun s hs => h s (List.mem_cons_of_mem r hs)
    obtain ⟨hends, helse⟩ := statement_ends p q rest hothers
    have hread := h r List.mem_cons_self _ hends helse
    obtain ⟨l, m⟩ := r
    cases hspells (l, m) List.mem_cons_self with
    | statement hl =>
      obtain ⟨x, ts, hx, hopens⟩ := hl.starts rfl
      rw [statementTokens_cons, List.cons_append, List.append_assoc]
      simp only [hx, List.cons_append] at hread ⊢
      refine .statement ?_ ?_ hread hends htail
      · cases x with
        | newline | semicolon => cases hopens
        | _ => rfl
      · rintro rfl
        cases hopens

/-! ## The parser reads what rows spell -/

theorem leftPower_operator {name : String} {b : Operator.Binding}
    (hb : Operator.binary? name = some b) : leftPower (.operator name) = b.power := by
  simp only [leftPower, hb, Option.elim_some]

/-- An operator that binds less tightly than the right end of an operand may follow the operand. -/
theorem follows_of_power {region : Region} {power : Nat} {t : Token} {rest : Tokens}
    (hseen : t.lexeme ≠ .newline) (h : leftPower t.lexeme ≤ tailPower power) :
    Follows region power false (t :: rest) := by
  refine ⟨?_, fun h => Bool.noConfusion h⟩
  rw [visible_closer hseen]
  rintro u ⟨⟩
  exact h

/-- The operand of a prefix operator, a group, a control flow expression: what the parser reads as an
operand is read as an expression, followed by the operators that the caller goes on with. -/
theorem reads_of_operand {region : Region} {p : Nat} {x : Lexeme} {ts rest rest' : Tokens}
    {m n : Node} (hx : opens x = true)
    (hoperand : Reads (.operand region ⟨x, .nowhere⟩) ts (.node m) (visible region rest))
    (hcaller : Reads (.operators region p m) rest (.node n) rest') :
    Reads (.expression region p) (⟨x, .nowhere⟩ :: ts) (.node n) rest' :=
  .expression (visible_of_opens hx) hoperand (reads_operators_visible hcaller)

/-- What follows an operand that is complete by itself is left as it is. -/
theorem reads_of_complete {region : Region} {p : Nat} {x : Lexeme} {ts rest rest' : Tokens}
    {m n : Node} (hx : opens x = true)
    (hoperand : Reads (.operand region ⟨x, .nowhere⟩) ts (.node m) rest)
    (hcaller : Reads (.operators region p m) rest (.node n) rest') :
    Reads (.expression region p) (⟨x, .nowhere⟩ :: ts) (.node n) rest' :=
  .expression (visible_of_opens hx) hoperand hcaller

theorem combine_eq {name : String} (p : Position) (left right : Node)
    (h : name ∉ ["->", "->>", "|>"]) :
    combine name p left right =
      .ok (.call (.symbol name p) [⟨none, left⟩, ⟨none, right⟩] left.position) :=
  combine_eq_ok_iff.mpr (.kept right h)

theorem rightPower_lt {name : String} {b : Operator.Binding}
    (hb : Operator.binary? name = some b) (hm : name ∉ Operator.members)
    (hq : name ∉ Operator.qualifiers) : b.power < Operator.postfixPower := by
  have table : ∀ e ∈ Operator.binaryTable, e.1 ∈ Operator.members ∨ e.1 ∈ Operator.qualifiers ∨
      e.2.power < Operator.postfixPower := by decide
  rcases binary?_cases hb with hmem | ⟨-, rfl⟩
  · rcases table _ hmem with h | h | h
    · exact absurd h hm
    · exact absurd h hq
    · exact h
  · decide

theorem member_power {name : String} {b : Operator.Binding} {left : Node}
    (hb : Operator.binary? name = some b) (h : TakesMember name left) :
    Operator.postfixPower < b.power := by
  have hname : name = "$" ∨ name = "@" ∨ name = "::" ∨ name = ":::" := by
    rcases h with h | h | ⟨h | h, -⟩
    · exact .inl h
    · exact .inr (.inl h)
    · exact .inr (.inr (.inl h))
    · exact .inr (.inr (.inr h))
  have : ∀ s ∈ ["$", "@", "::", ":::"], ∀ c ∈ Operator.binary? s,
      Operator.postfixPower < c.power := by decide
  exact this name (by simpa using hname) b hb

theorem postfix_tail {power : Nat} (h : Operator.postfixPower ≤ power) :
    Operator.postfixPower ≤ tailPower power := by
  have : Operator.postfixPower = 160 := rfl
  unfold tailPower
  split <;> omega

/-- The condition of `if` and `while` in its brackets. -/
theorem reads_condition {whole isOpen : Bool} {power : Nat} {l : Layout} {m : Node}
    (hspells : Spells (.expression whole power isOpen) l (.node m))
    (h : Meaning (.expression whole power isOpen) l (.node m)) (region : Region) (rest : Tokens) :
    Reads (.condition region) (l.inParens.tokens ++ rest) (.node m) rest := by
  rw [Layout.tokens_inParens, List.cons_append, List.append_assoc]
  exact .condition (visible_of_opens rfl) (reads_in_parens hspells h rest) rfl

theorem afterElse?_visible {region : Region} {rest : Tokens} (h : afterElse? region rest = none) :
    afterElse? region (visible region rest) = none := by
  have hb : beforeElse region (visible region rest) = beforeElse region rest := by
    cases region with
    | bracket => exact visible_visible .bracket rest
    | _ => rfl
  cases ha : afterElse? region (visible region rest) with
  | none => rfl
  | some after =>
    obtain ⟨p, hp⟩ := afterElse?_eq_some.mp ha
    rw [hb] at hp
    rw [afterElse?_eq_some.mpr ⟨p, hp⟩] at h
    cases h

theorem ne_newline_of_endsArgument {closing : Closing} {x : Lexeme}
    (h : closing.endsArgument x = true) : x ≠ .newline := by
  rintro rfl
  cases closing <;> cases h

/-- The value of an argument is read up to the comma or the bracket after it. -/
theorem reads_argument_value {whole isOpen : Bool} {power p : Nat} {l : Layout} {m : Node}
    {closing : Closing} {t : Token}
    (h : Meaning (.expression whole power isOpen) l (.node m))
    (hends : closing.endsArgument t.lexeme = true) (hstart : whole = true ∨ p < power)
    (hlimit : p < Operator.postfixPower) (rest : Tokens) :
    Reads (.expression .bracket p) (l.tokens ++ t :: rest) (.node m) (t :: rest) := by
  obtain ⟨x, q⟩ := t
  have hplain : leftPower x = 0 ∧ x ≠ .keyword .elseWord := by
    cases x with
    | comma | rightParen | rightBracket => exact ⟨rfl, fun h => Lexeme.noConfusion h⟩
    | _ => cases closing <;> cases hends
  exact h.reads_before .bracket rest hlimit hstart hplain.1 (ne_newline_of_endsArgument hends)
    fun _ => hplain.2

/-- The parser reads back what a row spells. -/
theorem Spells.meaning {style : Style} {l : Layout} {r : Phrase} (h : Spells style l r) :
    Meaning style l r := by
  induction h with
  | @literal x hx _ =>
    intro region p rest n rest' _ _ _ hcaller
    exact reads_of_complete (opens_of_isLiteral hx) (.literal hx) hcaller
  | symbol =>
    intro region p rest n rest' _ _ _ hcaller
    exact reads_of_complete rfl (.symbol rfl) hcaller
  | @unary name q power whole isOpen l m hprefix hspells hstart htail ih =>
    intro region p rest n rest' _ _ hfollows hcaller
    obtain ⟨-, hlimit, hq⟩ := prefix?_power hprefix
    have hfollows' : Follows region power isOpen rest := by
      refine hfollows.inner (htail.imp_right fun h => ?_)
      rw [hq]
      exact h
    have hinner := ih.reads_up_to hlimit hstart hfollows' (hfollows.stops (Nat.le_of_eq hq))
    rw [← hspells.skipBreaks_tokens] at hinner
    have hopens : opens (.operator name) = true := by simp only [opens, hprefix, Option.isSome_some]
    exact reads_of_operand hopens (.prefixed rfl hprefix hinner) hcaller
  | @binary name b power power' whole whole' isOpen l l' left right hb _ hm hq hplain hleft hpower
      hright hstart htail ihl ihr =>
    intro region p rest n rest' hlimit hp hfollows hcaller
    have hp : p < b.power := hp.resolve_left (fun h => Bool.noConfusion h)
    obtain ⟨hpos, htailb, hrightb, -⟩ := binary?_power hb
    have hfollows' : Follows region power' isOpen rest :=
      hfollows.inner (htail.imp_right fun h => htailb ▸ h)
    have hlt := rightPower_lt hb hm hq
    have hinner := ihr.reads_up_to (by omega) hstart hfollows'
      (hfollows.stops (Nat.le_of_eq htailb))
    rw [← hright.skipBreaks_tokens] at hinner
    have hform : Reads (.operatorForm region ⟨.operator name, .nowhere⟩ left)
        (l'.tokens ++ rest) (.node _) (visible region rest) :=
      .binary rfl hm hq hb hinner (combine_eq .nowhere left right hplain)
    simp only [Layout.tokens_append, gap_tokens, Layout.tokens_operator, List.nil_append,
      List.append_assoc, List.cons_append]
    have hword : Lexeme.operator name ≠ .newline := fun h => Lexeme.noConfusion h
    have hbound : leftPower (.operator name) ≤ tailPower power := leftPower_operator hb ▸ hpower
    refine ihl region p _ n rest' hlimit (.inr ?_) (follows_of_power hword hbound) ?_
    · have := tailPower_le power
      omega
    · exact .more (visible_closer hword) (leftPower_operator hb ▸ hp) hform
        (reads_operators_visible hcaller)
  | @member name power q whole l left right u hb hmember _ hright hleft hpower ih =>
    intro region p rest n rest' hlimit _ _ hcaller
    have hq := member_power hb hmember
    have hword : Lexeme.operator name ≠ .newline := fun h => Lexeme.noConfusion h
    have hbound : leftPower (.operator name) ≤ tailPower power := leftPower_operator hb ▸ hpower
    have hskip : skipBreaks (⟨u, .nowhere⟩ :: rest) = ⟨u, .nowhere⟩ :: rest := by
      cases u with
      | newline => cases hright
      | _ => rfl
    simp only [Layout.tokens_append, Layout.tokens_operator, Layout.tokens_lexeme,
      Layout.tokens_nil, List.append_assoc, List.cons_append, List.nil_append]
    refine ih region p _ n rest' hlimit (.inr ?_) (follows_of_power hword hbound) ?_
    · have := tailPower_le power
      dsimp only at hq
      omega
    · refine .more (visible_closer hword) ?_ (.member rfl hmember hskip hright) hcaller
      rw [leftPower_operator hb]
      exact Nat.lt_trans hlimit hq
  | @application power whole l head rows hhead hpower hrows ihh ihr =>
    intro region p rest n rest' hlimit _ _ hcaller
    have hword : Lexeme.leftParen ≠ .newline := fun h => Lexeme.noConfusion h
    simp only [Layout.tokens_append, Layout.tokens_inParens, List.append_assoc, List.cons_append,
      List.nil_append]
    refine ihh region p _ n rest' hlimit (.inr (Nat.lt_of_lt_of_le hlimit hpower))
      (follows_of_power hword (postfix_tail hpower)) ?_
    exact .more (visible_closer hword) hlimit (.application rfl (reads_arguments rfl hrows ihr))
      hcaller
  | @index power whole l target rows htarget hpower hrows iht ihr =>
    intro region p rest n rest' hlimit _ _ hcaller
    have hword : Lexeme.leftBracket ≠ .newline := fun h => Lexeme.noConfusion h
    simp only [Layout.tokens_append, Layout.tokens_lexeme, Layout.tokens_nil, List.append_assoc,
      List.cons_append, List.nil_append]
    refine iht region p _ n rest' hlimit (.inr (Nat.lt_of_lt_of_le hlimit hpower))
      (follows_of_power hword (postfix_tail hpower)) ?_
    exact .more (visible_closer hword) hlimit (.index rfl (reads_arguments rfl hrows ihr))
      hcaller
  | @doubleIndex power whole l target rows htarget hpower hrows iht ihr =>
    intro region p rest n rest' hlimit _ _ hcaller
    have hword : Lexeme.leftDouble ≠ .newline := fun h => Lexeme.noConfusion h
    simp only [Layout.tokens_append, Layout.tokens_lexeme, Layout.tokens_nil, List.append_assoc,
      List.cons_append, List.nil_append]
    refine iht region p _ n rest' hlimit (.inr (Nat.lt_of_lt_of_le hlimit hpower))
      (follows_of_power hword (postfix_tail hpower)) ?_
    exact .more (visible_closer hword) hlimit
      (.doubleIndex rfl (reads_arguments rfl hrows ihr)
        (visible_closer fun h => Lexeme.noConfusion h)) hcaller
  | @group power whole isOpen l m hspells ih =>
    intro region p rest n rest' _ _ _ hcaller
    rw [Layout.tokens_inParens, List.cons_append, List.append_assoc]
    exact reads_of_complete rfl (.group rfl (reads_in_parens hspells ih rest) rfl) hcaller
  | @block rows hrows ih =>
    intro region p rest n rest' _ _ _ hcaller
    simp only [Layout.tokens_append, Layout.tokens_lexeme, Layout.tokens_lineBreak,
      Layout.tokens_nil, List.append_assoc, List.cons_append, List.nil_append]
    exact reads_of_complete rfl (.block rfl (reads_statements hrows ih)) hcaller
  | @conditional power power' whole whole' isOpen isOpen' l l' c body hc hbody ihc ihb =>
    intro region p rest n rest' _ _ hfollows hcaller
    simp only [Layout.tokens_keyword, Layout.tokens_space, Layout.tokens_append, List.append_assoc,
      List.cons_append]
    exact reads_of_operand rfl
      (.conditional rfl (reads_condition hc ihc region _) (reads_body hbody ihb hfollows)
        (afterElse?_visible (hfollows.noElse rfl))) hcaller
  | @alternative power power' power'' whole whole' whole'' isOpen isOpen'' l l' l'' c body other hc
      hbody hother ihc ihb iho =>
    intro region p rest n rest' _ _ hfollows hcaller
    simp only [Layout.tokens_keyword, Layout.tokens_space, Layout.tokens_append, List.append_assoc,
      List.cons_append]
    have helse : ∀ after : Tokens, afterElse? region (⟨.keyword .elseWord, .nowhere⟩ :: after) =
        some after := by
      intro after
      refine afterElse?_eq_some.mpr ⟨.nowhere, ?_⟩
      unfold beforeElse
      split <;> rfl
    have hfirst : Reads (.expression region 0)
        (skipBreaks (l'.tokens ++ ⟨.keyword .elseWord, .nowhere⟩ :: (l''.tokens ++ rest)))
        (.node body) (⟨.keyword .elseWord, .nowhere⟩ :: (l''.tokens ++ rest)) := by
      rw [hbody.skipBreaks_tokens]
      exact ihb.reads_before region _ zero_lt_postfixPower hbody.whole_or_pos rfl
        (fun h => Lexeme.noConfusion h) (fun h => Bool.noConfusion h)
    exact reads_of_operand rfl
      (.alternative rfl (reads_condition hc ihc region _) hfirst (helse _)
        (reads_body hother iho hfollows)) hcaller
  | @whileLoop power power' whole whole' isOpen isOpen' l l' c body hc hbody ihc ihb =>
    intro region p rest n rest' _ _ hfollows hcaller
    simp only [Layout.tokens_keyword, Layout.tokens_space, Layout.tokens_append, List.append_assoc,
      List.cons_append]
    exact reads_of_operand rfl
      (.whileLoop rfl (reads_condition hc ihc region _) (reads_body hbody ihb hfollows)) hcaller
  | @forLoop power power' whole whole' isOpen isOpen' l l' name sequence body _ hs hbody ihs ihb =>
    intro region p rest n rest' _ _ hfollows hcaller
    simp only [Layout.tokens_keyword, Layout.tokens_space, Layout.tokens_append,
      Layout.tokens_inParens, Layout.tokens_symbol, List.append_assoc, List.cons_append,
      List.nil_append]
    exact reads_of_operand rfl
      (.forLoop rfl (visible_of_opens rfl) rfl rfl (reads_in_parens hs ihs _) rfl
        (reads_body hbody ihb hfollows)) hcaller
  | @repeatLoop power whole isOpen l body hbody ih =>
    intro region p rest n rest' _ _ hfollows hcaller
    exact reads_of_operand rfl (.repeatLoop rfl (reads_body hbody ih hfollows)) hcaller
  | @definition power whole isOpen l body rows hrows hnames hbody ihr ihb =>
    intro region p rest n rest' _ _ hfollows hcaller
    simp only [Layout.tokens_keyword, Layout.tokens_space, Layout.tokens_append,
      Layout.tokens_inParens, List.append_assoc, List.cons_append, List.nil_append]
    exact reads_of_operand rfl
      (.definition rfl (visible_of_opens rfl) (reads_parameters hnames ihr)
        (reads_body hbody ihb hfollows)) hcaller
  | breakJump =>
    intro region p rest n rest' _ _ _ hcaller
    exact reads_of_complete rfl (.breakJump rfl) hcaller
  | nextJump =>
    intro region p rest n rest' _ _ _ hcaller
    exact reads_of_complete rfl (.nextJump rfl) hcaller
  | @statement power whole isOpen l m hspells ih =>
    intro rest hends helse
    have hfirst : ∀ t ∈ rest.head?, leftPower t.lexeme = 0 := by
      intro t ht
      cases rest with
      | nil => cases ht
      | cons u rest =>
        cases ht
        obtain ⟨x, q⟩ := t
        cases x with
        | newline | semicolon | rightBrace => rfl
        | _ => cases hends
    have hfollows : Follows .block power isOpen rest := by
      refine ⟨?_, fun _ => helse⟩
      intro t ht
      rw [hfirst t ht]
      exact Nat.zero_le _
    exact ih.reads_up_to zero_lt_postfixPower hspells.whole_or_pos hfollows
      fun t ht => Nat.le_of_eq (hfirst t ht)
  | @unnamed power whole isOpen l m hspells hpower ih =>
    intro closing t rest hends
    obtain ⟨x, ts, hx, hopens⟩ := hspells.starts rfl
    have hread := reads_argument_value ih hends hspells.whole_or_pos zero_lt_postfixPower rest
    have hname : afterName? ⟨x, .nowhere⟩ (ts ++ t :: rest) = none := by
      refine hspells.afterName?_none rfl hpower ?_ hx
      obtain ⟨y, q⟩ := t
      refine skipBreaks_ne_assign (ne_newline_of_endsArgument hends) ?_
      rintro rfl
      cases closing <;> cases hends
    have hvis := hspells.visible_tokens .bracket (t :: rest)
    rw [hx, List.cons_append] at hread hvis ⊢
    exact .unnamed hvis (endsArgument_of_opens hopens closing) hname hread
  | @named name power whole isOpen l m hname hspells hpower ih =>
    intro closing t rest hends
    obtain ⟨x, ts, hx, hopens⟩ := hspells.starts rfl
    have hstart : whole = true ∨ Operator.assignPower < power := by
      rcases hpower with rfl | hpower
      · exact hspells.whole_or_pos.imp_right fun h => absurd h (Nat.lt_irrefl 0)
      · exact .inr hpower
    have hread := reads_argument_value ih hends hstart (by decide) rest
    have hfound : (found (visible .bracket (l.tokens ++ t :: rest))).any closing.endsArgument =
        false := by
      rw [hspells.visible_tokens, hx]
      exact endsArgument_of_opens hopens closing
    rw [Layout.tokens_named]
    refine .named rfl (endsArgument_of_opens rfl closing) ?_ hname hfound hread
    exact afterName?_eq_some.mpr ⟨.inl rfl, .nowhere, rfl⟩
  | @withoutDefault name _ =>
    refine ⟨[], rfl, ?_⟩
    intro t rest ht
    refine .noDefault ?_
    obtain ⟨x, q⟩ := t
    rcases ht with rfl | rfl
    · exact skipBreaks_ne_assign (fun h => Lexeme.noConfusion h) (fun h => Lexeme.noConfusion h)
    · exact skipBreaks_ne_assign (fun h => Lexeme.noConfusion h) (fun h => Lexeme.noConfusion h)
  | @withDefault name power whole isOpen l m _ hspells hpower ih =>
    refine ⟨_, Layout.tokens_named name l, ?_⟩
    intro t rest ht
    have hstart : whole = true ∨ Operator.assignPower < power := by
      rcases hpower with rfl | hpower
      · exact hspells.whole_or_pos.imp_right fun h => absurd h (Nat.lt_irrefl 0)
      · exact .inr hpower
    have hends : Closing.paren.endsArgument t.lexeme = true := by
      rcases ht with ht | ht
      · rw [ht]; rfl
      · rw [ht]; rfl
    exact .withDefault rfl (reads_argument_value ih hends hstart (by decide) rest)

end RCode.Grammar
