import RCode.Proofs.Node.Spacing

/-!
# Spellings are spaced

A row that spells a tree is spaced wherever an operand may start (`Spells.solid`). It starts with a
lexeme that no piece before an operand goes on with, and it ends with a lexeme that goes on with
nothing that may follow an operand.
-/

set_option autoImplicit false

namespace RCode

/-! ## The ends of operands -/

/-- The first characters of what may follow an operand without a space. -/
def followers : List Char :=
  ['(', ')', '[', ']', ',', '^', ':', '$', '@']

namespace Lexeme

/-- The lexeme can end an operand. -/
def Closes (a : Lexeme) : Prop :=
  ∀ c ∈ followers, a.endsBefore c = true

/-- The lexeme does not start like the rest of a longer lexeme. -/
def StartsOperand (a : Lexeme) : Prop :=
  ∀ c ∈ a.spelling.head?, c ∉ ['[', '=', '>', ':']

end Lexeme

/-- An operand can stand directly behind the piece. -/
def Piece.AdmitsOperand (q : Piece) : Prop :=
  ∀ a : Lexeme, a.StartsOperand → q.Beside (.lexeme a)

/-- The operators that may stand before an operand without a space. -/
def tightOperators : List String :=
  ["?", "~", "!", "-", "+", "^", ":", "$", "@", "::", ":::"]

theorem admits_tight {name : String} (h : name ∈ tightOperators) :
    Piece.AdmitsOperand (.operator name) := by
  have table : ∀ s ∈ tightOperators, ∀ t ∈ Operator.spellings, s.toList.isPrefixOf t.toList = true →
      ∀ c ∈ (t.toList.drop s.toList.length).head?, c ∈ ['[', '=', '>', ':'] := by decide
  intro a ha c hc
  have hne := ha c hc
  cases hgoes : Operator.goesOn name c with
  | false => simp only [Lexeme.endsBefore, hgoes, Bool.not_false]
  | true =>
    obtain ⟨t, ht, hprefix⟩ := List.any_eq_true.mp hgoes
    obtain ⟨after, hafter⟩ := List.isPrefixOf_iff_prefix.mp hprefix
    refine absurd (table name h t ht ?_ c ?_) hne
    · exact List.isPrefixOf_iff_prefix.mpr ⟨c :: after, by rw [← hafter]; simp⟩
    · rw [← hafter, List.append_assoc, List.drop_left]
      rfl

theorem endsWord_followers : ∀ c ∈ followers, endsWord c = true ∧ (!Numeral.isNameChar c) = true := by
  decide

theorem closes_symbol (name : String) : Lexeme.Closes (.symbol name) := fun c hc => by
  simp only [Lexeme.endsBefore, (endsWord_followers c hc).1, Bool.or_true]

theorem closes_keyword (k : Keyword) : Lexeme.Closes (.keyword k) := fun c hc =>
  (endsWord_followers c hc).1

theorem closes_literal {a : Lexeme} (h : Parser.isLiteral a = true) : a.Closes := by
  intro c hc
  obtain ⟨hword, hname⟩ := endsWord_followers c hc
  cases a with
  | integer | double => exact hname
  | constant => exact hword
  | text => rfl
  | _ => cases h

/-- A word starts an operand. -/
theorem startsOperand_of_word {c : Char} {cs : List Char} (h : startsName c cs = true) :
    c ∉ ['[', '=', '>', ':'] := by
  have table : ∀ d ∈ ['[', '=', '>', ':'], Text.isLetter d = false ∧ d ≠ '.' := by decide
  intro hc
  obtain ⟨hletter, hpoint⟩ := table c hc
  rcases isLetter_of_startsName h with heq | heq
  · exact hpoint heq
  · rw [hletter] at heq
    cases heq

theorem startsOperand_symbol (name : String) : Lexeme.StartsOperand (.symbol name) := by
  intro c hc
  rw [show (Lexeme.symbol name).spelling = Spelling.name name from rfl, Spelling.name] at hc
  split at hc
  · next hsyntactic =>
    unfold isSyntacticName at hsyntactic
    cases hname : name.toList with
    | nil => rw [hname] at hc; cases hc
    | cons d cs =>
      rw [hname] at hc hsyntactic
      obtain rfl : d = c := Option.some.inj hc
      simp only [Bool.and_eq_true] at hsyntactic
      exact startsOperand_of_word hsyntactic.1.2
  · obtain rfl : '`' = c := Option.some.inj hc
    decide

theorem startsOperand_keyword (k : Keyword) : Lexeme.StartsOperand (.keyword k) := by
  cases k <;> (rintro c ⟨⟩; decide)

theorem startsOperand_prefix {name : String} (h : (Operator.prefix? name).isSome = true) :
    Lexeme.StartsOperand (.operator name) ∧ name ∈ tightOperators ∧
      Operator.IsReadable name := by
  have table : ∀ e ∈ Operator.prefixTable, (∀ c ∈ e.1.toList.head?, c ∉ ['[', '=', '>', ':']) ∧
      e.1 ∈ tightOperators ∧ Operator.ofSpelling? e.1 = some e.1 := by decide
  obtain ⟨p, hp⟩ := Option.isSome_iff_exists.mp h
  obtain ⟨before, after, htable, -⟩ := List.lookup_eq_some_iff.mp hp
  have hmem : (name, p) ∈ Operator.prefixTable := by
    rw [htable]
    exact List.mem_append_right before List.mem_cons_self
  obtain ⟨hstarts, htight, hspelling⟩ := table (name, p) hmem
  exact ⟨hstarts, htight, .inl hspelling⟩

/-- A text that starts with a digit. -/
theorem startsOperand_of_digits {a : Lexeme} (h : ∀ c ∈ a.spelling.head?, c.isDigit = true) :
    a.StartsOperand := by
  have table : ∀ d ∈ ['[', '=', '>', ':'], d.isDigit = false := by decide
  intro c hc hmem
  have := h c hc
  rw [table c hmem] at this
  cases this

theorem startsOperand_literal {a : Lexeme} (h : Parser.isLiteral a = true) (hread : a.IsReadable) :
    a.StartsOperand := by
  cases a with
  | integer n =>
    obtain ⟨c, more, -, -, hstart, -, hc, -⟩ := (Numeral.isNumber_toDigits n).ends
    refine startsOperand_of_digits fun d hd => ?_
    rw [Lexeme.spelling, hstart] at hd
    obtain rfl : c = d := Option.some.inj hd
    exact hc
  | double x =>
    obtain ⟨n, e, hnumber, -⟩ := Numeral.exists_isNumber_double hread.1
    obtain ⟨c, more, -, -, hstart, -, hc, -⟩ := hnumber.ends
    refine startsOperand_of_digits fun d hd => ?_
    rw [Lexeme.spelling, hstart] at hd
    obtain rfl : c = d := Option.some.inj hd
    exact hc
  | text s => rintro c ⟨⟩; decide
  | constant k => cases k <;> (rintro c ⟨⟩; decide)
  | _ => cases h

/-! ## Runs of pieces -/

/-- The layout is spaced behind `before`, and its end is as described. -/
def Runs (before : Option Piece) (l : Layout) (after : Option Piece → Prop) : Prop :=
  l.Spaced before ∧ after (l.endOf before)

namespace Runs

variable {before : Option Piece} {l m : Layout} {middle after : Option Piece → Prop}

theorem nil (h : after before) : Runs before [] after :=
  ⟨trivial, h⟩

theorem cons {p : Piece} (hbeside : ∀ q ∈ before, q.Beside p) (hreadable : p.IsReadable)
    (h : Runs (some p) l after) : Runs before (p :: l) after :=
  ⟨⟨hbeside, hreadable, h.1⟩, h.2⟩

theorem append (hl : Runs before l middle) (hm : ∀ o, middle o → Runs o m after) :
    Runs before (l ++ m) after := by
  obtain ⟨hspaced, hend⟩ := hl
  obtain ⟨hspaced', hend'⟩ := hm _ hend
  exact ⟨Layout.spaced_append.mpr ⟨hspaced, hspaced'⟩, Layout.endOf_append before l m ▸ hend'⟩

end Runs

/-- The end of an operand. -/
def Closed (o : Option Piece) : Prop :=
  ∃ a, o = some (.lexeme a) ∧ a.Closes

/-- The layout is spaced wherever an operand may start, and ends like an operand. -/
def Solid (l : Layout) : Prop :=
  ∀ before : Option Piece, (∀ q ∈ before, q.AdmitsOperand) → Runs before l Closed

theorem Closed.beside {o : Option Piece} (h : Closed o) {x : Lexeme}
    (hx : ∀ c ∈ x.spelling.head?, c ∈ followers) : ∀ q ∈ o, q.Beside (.lexeme x) := by
  obtain ⟨a, rfl, ha⟩ := h
  rintro q ⟨⟩ c hc
  exact ha c (hx c hc)

theorem Closed.beside_space {o : Option Piece} (h : Closed o) : ∀ q ∈ o, q.Beside .space := by
  obtain ⟨a, rfl, -⟩ := h
  rintro q ⟨⟩
  trivial

theorem Closed.beside_lineBreak {o : Option Piece} (h : Closed o) (depth : Nat) :
    ∀ q ∈ o, q.Beside (.lineBreak depth) := by
  obtain ⟨a, rfl, -⟩ := h
  rintro q ⟨⟩
  trivial

theorem admits_space : ∀ q ∈ some Piece.space, q.AdmitsOperand := by
  rintro q ⟨⟩ a -
  trivial

theorem admits_lineBreak (depth : Nat) : ∀ q ∈ some (Piece.lineBreak depth), q.AdmitsOperand := by
  rintro q ⟨⟩ a -
  trivial

theorem beside_of_space (p : Piece) : ∀ q ∈ some Piece.space, q.Beside p := by
  rintro q ⟨⟩
  cases p with
  | _ => trivial

/-- Brackets go on with no operand, and an operand may stand behind them. -/
theorem admits_leftParen : ∀ q ∈ some (Piece.lexeme .leftParen), q.AdmitsOperand := by
  rintro q ⟨⟩ a - c -
  rfl

theorem admits_leftDouble : ∀ q ∈ some (Piece.lexeme .leftDouble), q.AdmitsOperand := by
  rintro q ⟨⟩ a - c -
  rfl

theorem admits_leftBracket : ∀ q ∈ some (Piece.lexeme .leftBracket), q.AdmitsOperand := by
  rintro q ⟨⟩ a ha c hc
  have : c ≠ '[' := fun h => ha c hc (by simp [h])
  simpa [Lexeme.endsBefore] using this

theorem closed_of_bracket {x : Lexeme} (h : ∀ c, x.endsBefore c = true) :
    Closed (some (.lexeme x)) :=
  ⟨x, rfl, fun c _ => h c⟩

/-! ## Brackets and rows -/

/-- A single lexeme. -/
theorem solid_lexeme {a : Lexeme} (hstarts : a.StartsOperand) (hreadable : a.IsReadable)
    (hcloses : a.Closes) : Solid [.lexeme a] := fun _ hbefore =>
  .cons (fun q hq => hbefore q hq a hstarts) hreadable (.nil ⟨a, rfl, hcloses⟩)

/-- Rows with commas between them, up to a closing bracket. -/
theorem runs_row {ls : List Layout} (h : ∀ l ∈ ls, Solid l) {before : Option Piece}
    (hbefore : ∀ q ∈ before, q.AdmitsOperand) {x : Lexeme}
    (hx : ∀ c ∈ x.spelling.head?, c ∈ followers) (hbeside : ∀ q ∈ before, q.Beside (.lexeme x))
    (hreadable : x.IsReadable) {m : Layout} {after : Option Piece → Prop}
    (hm : Runs (some (.lexeme x)) m after) :
    Runs before (Layout.commaSeparated ls ++ .lexeme x :: m) after := by
  induction ls generalizing before with
  | nil => exact .cons hbeside hreadable hm
  | cons l ls ih =>
    obtain ⟨hl, hls⟩ := List.forall_mem_cons.mp h
    cases ls with
    | nil => exact .append (hl before hbefore) fun o ho => .cons (ho.beside hx) hreadable hm
    | cons l' ls =>
      have hcomma : ∀ c ∈ Lexeme.comma.spelling.head?, c ∈ followers := by
        rintro c ⟨⟩
        decide
      rw [Layout.commaSeparated, List.append_assoc, List.append_assoc]
      · refine .append (hl before hbefore) fun o ho => .cons (ho.beside hcomma) trivial ?_
        refine .cons (fun q hq => ?_) trivial (ih hls admits_space (beside_of_space _))
        cases hq
        trivial
      · exact List.cons_ne_nil _ _

theorem rightParen_followers : ∀ c ∈ Lexeme.rightParen.spelling.head?, c ∈ followers := by
  rintro c ⟨⟩
  decide

theorem rightBracket_followers : ∀ c ∈ Lexeme.rightBracket.spelling.head?, c ∈ followers := by
  rintro c ⟨⟩
  decide

theorem leftBracket_followers : ∀ c ∈ Lexeme.leftBracket.spelling.head?, c ∈ followers := by
  rintro c ⟨⟩
  decide

theorem leftDouble_followers : ∀ c ∈ Lexeme.leftDouble.spelling.head?, c ∈ followers := by
  rintro c ⟨⟩
  decide

theorem leftParen_followers : ∀ c ∈ Lexeme.leftParen.spelling.head?, c ∈ followers := by
  rintro c ⟨⟩
  decide

/-- A row in round brackets. -/
theorem runs_inParens {l : Layout} {before : Option Piece}
    (hbefore : ∀ q ∈ before, q.Beside (.lexeme .leftParen))
    (h : ∀ m after, Runs (some (.lexeme .rightParen)) m after →
      Runs (some (.lexeme .leftParen)) (l ++ .lexeme .rightParen :: m) after)
    {m : Layout} {after : Option Piece → Prop} (hm : Runs (some (.lexeme .rightParen)) m after) :
    Runs before (l.inParens ++ m) after := by
  simp only [Layout.inParens, List.cons_append, List.append_assoc, List.nil_append]
  exact .cons hbefore trivial (h m after hm)

theorem Solid.before_rightParen {l : Layout} (h : Solid l) (m : Layout)
    (after : Option Piece → Prop) (hm : Runs (some (.lexeme .rightParen)) m after) :
    Runs (some (.lexeme .leftParen)) (l ++ .lexeme .rightParen :: m) after :=
  .append (h _ admits_leftParen) fun _ ho => .cons (ho.beside rightParen_followers) trivial hm

theorem row_before_rightParen {ls : List Layout} (h : ∀ l ∈ ls, Solid l) (m : Layout)
    (after : Option Piece → Prop) (hm : Runs (some (.lexeme .rightParen)) m after) :
    Runs (some (.lexeme .leftParen)) (Layout.commaSeparated ls ++ .lexeme .rightParen :: m) after :=
  runs_row h admits_leftParen rightParen_followers (by rintro q ⟨⟩ c -; rfl) trivial hm

/-- A solid layout behind a space. -/
theorem Solid.after_space {l : Layout} (h : Solid l) {before : Option Piece}
    (hbefore : ∀ q ∈ before, q.Beside .space) : Runs before (.space :: l) Closed :=
  .cons hbefore trivial (h _ admits_space)

theorem Solid.deepen {l : Layout} (h : Solid l) (depth : Nat) :
    Runs (some (.lineBreak (depth + 1))) l.deepen Closed := by
  obtain ⟨hspaced, a, hend, ha⟩ := h _ (admits_lineBreak depth)
  refine ⟨?_, a, ?_, ha⟩
  · exact (@Layout.spaced_deepen (some (.lineBreak depth)) l).mpr hspaced
  · rw [← show (some (Piece.lineBreak depth)).map Piece.deepen = some (.lineBreak (depth + 1))
      from rfl, Layout.endOf_deepen, hend]
    rfl

/-- Statements on lines of their own, up to the brace that closes them. -/
theorem runs_statements {ls : List Layout} (h : ∀ l ∈ ls, Solid l) {before : Option Piece}
    (hbefore : ∀ q ∈ before, ∀ depth, q.Beside (.lineBreak depth)) :
    Runs before (ls.flatMap (fun l => .lineBreak 1 :: l.deepen) ++
      [.lineBreak 0, .lexeme .rightBrace]) Closed := by
  induction ls generalizing before with
  | nil =>
    refine .cons (fun q hq => hbefore q hq 0) trivial (.cons ?_ trivial (.nil ?_))
    · rintro q ⟨⟩
      trivial
    · exact closed_of_bracket fun _ => rfl
  | cons l ls ih =>
    obtain ⟨hl, hls⟩ := List.forall_mem_cons.mp h
    rw [List.flatMap_cons, List.append_assoc, List.cons_append]
    exact .cons (fun q hq => hbefore q hq 1) trivial
      (.append (hl.deepen 0) fun o ho => ih hls fun q hq depth => ho.beside_lineBreak depth q hq)

/-! ## All spellings -/

namespace Grammar

theorem solid_literal {a : Lexeme} (h : Parser.isLiteral a = true) (hread : a.IsReadable) :
    Solid [.lexeme a] :=
  solid_lexeme (startsOperand_literal h hread) hread (closes_literal h)

theorem solid_symbol {name : String} (h : name ≠ "") : Solid [.symbol name] :=
  solid_lexeme (startsOperand_symbol name) h (closes_symbol name)

/-- The name of a member is a symbol or a text. -/
theorem solid_memberName {u : Lexeme} {n : Node} (h : Parser.memberNode? ⟨u, .nowhere⟩ = some n)
    (hread : u.IsReadable) : Solid [.lexeme u] := by
  cases u with
  | symbol name => exact solid_symbol hread
  | text s => exact solid_literal rfl hread
  | _ => cases h

theorem solid_keyword (k : Keyword) : Solid [.keyword k] :=
  solid_lexeme (startsOperand_keyword k) trivial (closes_keyword k)

/-- A keyword stands in front of its parts. -/
theorem runs_keyword (k : Keyword) {before : Option Piece} (hbefore : ∀ q ∈ before, q.AdmitsOperand)
    {l : Layout} {after : Option Piece → Prop} (h : Runs (some (.keyword k)) l after) :
    Runs before (.keyword k :: l) after :=
  .cons (fun q hq => hbefore q hq _ (startsOperand_keyword k)) trivial h

theorem beside_keyword_space (k : Keyword) : ∀ q ∈ some (Piece.keyword k), q.Beside .space := by
  rintro q ⟨⟩
  trivial

theorem beside_rightParen_space :
    ∀ q ∈ some (Piece.lexeme .rightParen), q.Beside .space := by
  rintro q ⟨⟩
  trivial

/-- The members and qualifiers follow an operand directly, and an operand follows them directly. -/
theorem takesMember_tight {name : String} {left : Node} (h : Parser.TakesMember name left) :
    name ∈ tightOperators ∧ Operator.IsReadable name ∧
      ∀ c ∈ (Lexeme.operator name).spelling.head?, c ∈ followers := by
  have table : ∀ s ∈ ["$", "@", "::", ":::"], s ∈ tightOperators ∧
      Operator.ofSpelling? s = some s ∧
      ∀ c ∈ (Lexeme.operator s).spelling.head?, c ∈ followers := by decide
  have hmem : name ∈ ["$", "@", "::", ":::"] := by
    rcases h with rfl | rfl | ⟨rfl | rfl, -⟩ <;> decide
  obtain ⟨htight, hspelling, hfirst⟩ := table name hmem
  exact ⟨htight, .inl hspelling, hfirst⟩

/-- An operator between two operands. -/
theorem solid_binary {name : String} (hname : Operator.IsReadable name) {l m : Layout}
    (hl : Solid l) (hm : Solid m) :
    Solid (l ++ (gap name ++ .operator name :: (gap name ++ m))) := by
  intro before hbefore
  refine .append (hl before hbefore) fun o ho => ?_
  unfold gap
  split
  · next htight =>
    have hfirst : ∀ c ∈ (Lexeme.operator name).spelling.head?, c ∈ followers := by
      rcases htight with rfl | rfl <;> (rintro c ⟨⟩; decide)
    have hmem : name ∈ tightOperators := by
      rcases htight with rfl | rfl <;> decide
    refine .cons (ho.beside hfirst) hname (hm _ ?_)
    rintro q ⟨⟩
    exact admits_tight hmem
  · refine .cons ho.beside_space trivial (.cons (beside_of_space _) hname (hm.after_space ?_))
    rintro q ⟨⟩
    trivial

/-- A row in brackets behind an operand. -/
theorem solid_application {l : Layout} {ls : List Layout} (hl : Solid l) (hls : ∀ m ∈ ls, Solid m) :
    Solid (l ++ (Layout.commaSeparated ls).inParens) := by
  intro before hbefore
  refine .append (hl before hbefore) fun o ho => ?_
  rw [← List.append_nil (Layout.inParens _)]
  exact runs_inParens (ho.beside leftParen_followers) (row_before_rightParen hls)
    (.nil (closed_of_bracket fun _ => rfl))

theorem solid_inParens {l : Layout} (hl : Solid l) : Solid l.inParens := by
  intro before hbefore
  rw [← List.append_nil (Layout.inParens _)]
  refine runs_inParens (fun q hq => hbefore q hq _ ?_) hl.before_rightParen
    (.nil (closed_of_bracket fun _ => rfl))
  rintro c ⟨⟩
  decide

theorem solid_named {name : String} (hname : name ≠ "") {l : Layout} (hl : Solid l) :
    Solid (Layout.named name l) := by
  intro before hbefore
  have hname : Runs before [.symbol name, .space, .operator "=", .space] (· = some .space) := by
    refine .cons (fun q hq => hbefore q hq _ (startsOperand_symbol name)) hname
      (.cons ?_ trivial (.cons (beside_of_space _) (.inl rfl) (.cons ?_ trivial (.nil rfl))))
    all_goals
      rintro q ⟨⟩
      trivial
  refine hname.append ?_
  rintro o rfl
  exact hl _ admits_space

/-- A row that spells something is spaced wherever an operand may start. -/
theorem Spells.solid {style : Style} {l : Layout} {r : Parser.Phrase}
    (h : Spells style l r) :
    Solid l := by
  have hspace : ∀ k, ∀ q ∈ some (Piece.keyword k), q.Beside .space := beside_keyword_space
  induction h with
  | literal hl hread => exact solid_literal hl hread
  | symbol hname => exact solid_symbol hname
  | unary hp _ _ _ ih =>
    obtain ⟨hstarts, htight, hread⟩ := startsOperand_prefix (Option.isSome_of_mem hp)
    refine fun before hbefore => .cons (fun q hq => hbefore q hq _ hstarts) hread (ih _ ?_)
    rintro q ⟨⟩
    exact admits_tight htight
  | binary _ hname _ _ _ _ _ _ _ _ ihleft ihright => exact solid_binary hname ihleft ihright
  | member _ htakes hread hmember _ _ ih =>
    obtain ⟨htight, hname, hfirst⟩ := takesMember_tight htakes
    refine fun before hbefore => .append (ih before hbefore) fun o ho =>
      .cons (ho.beside hfirst) hname (solid_memberName hmember hread _ ?_)
    rintro q ⟨⟩
    exact admits_tight htight
  | application _ _ _ ihhead ihrows =>
    exact solid_application ihhead (List.forall_mem_map.mpr ihrows)
  | index _ _ _ ihtarget ihrows =>
    refine fun before hbefore => .append (ihtarget before hbefore) fun o ho =>
      .cons (ho.beside leftBracket_followers) trivial
        (runs_row (List.forall_mem_map.mpr ihrows) admits_leftBracket rightBracket_followers ?_
          trivial (.nil (closed_of_bracket fun _ => rfl)))
    rintro q ⟨⟩ c ⟨⟩
    rfl
  | doubleIndex _ _ _ ihtarget ihrows =>
    refine fun before hbefore => .append (ihtarget before hbefore) fun o ho =>
      .cons (ho.beside leftDouble_followers) trivial
        (runs_row (List.forall_mem_map.mpr ihrows) admits_leftDouble rightBracket_followers ?_
          trivial (.cons ?_ trivial (.nil (closed_of_bracket fun _ => rfl))))
    all_goals
      rintro q ⟨⟩ c ⟨⟩
      rfl
  | group _ ih => exact solid_inParens ih
  | block _ ih =>
    intro before hbefore
    refine .cons (fun q hq => hbefore q hq _ ?_) trivial ?_
    · rintro c ⟨⟩
      decide
    · have hbrace : ∀ q ∈ some (Piece.lexeme .leftBrace), ∀ depth, q.Beside (.lineBreak depth) := by
        rintro q ⟨⟩ depth
        trivial
      have hrows := runs_statements (List.forall_mem_map.mpr ih) hbrace
      rwa [List.flatMap_map] at hrows
  | conditional _ _ ih ih' =>
    exact fun before hbefore => runs_keyword _ hbefore (.cons (hspace _) trivial
      (runs_inParens (beside_of_space _) ih.before_rightParen
        (ih'.after_space beside_rightParen_space)))
  | alternative _ _ _ ih ih' ih'' =>
    refine fun before hbefore => runs_keyword _ hbefore (.cons (hspace _) trivial
      (runs_inParens (beside_of_space _) ih.before_rightParen
        (.append (ih'.after_space beside_rightParen_space) fun o ho => ?_)))
    exact .cons ho.beside_space trivial
      (.cons (beside_of_space _) trivial (ih''.after_space (hspace _)))
  | whileLoop _ _ ih ih' =>
    exact fun before hbefore => runs_keyword _ hbefore (.cons (hspace _) trivial
      (runs_inParens (beside_of_space _) ih.before_rightParen
        (ih'.after_space beside_rightParen_space)))
  | @forLoop _ _ _ _ _ _ l _ name _ _ hname _ _ ih ih' =>
    refine fun before hbefore => runs_keyword _ hbefore (.cons (hspace _) trivial
      (runs_inParens (beside_of_space _) (fun m after hm => ?_)
        (ih'.after_space beside_rightParen_space)))
    refine .cons ?_ hname (.cons ?_ trivial (.cons (beside_of_space _) trivial
      (.append (ih.after_space (hspace _)) fun o ho =>
        .cons (ho.beside rightParen_followers) trivial hm)))
    · rintro q ⟨⟩ c -
      rfl
    · rintro q ⟨⟩
      trivial
  | repeatLoop _ ih =>
    exact fun before hbefore => runs_keyword _ hbefore (ih.after_space (hspace _))
  | definition _ _ _ ihrows ihbody =>
    refine fun before hbefore => runs_keyword _ hbefore
      (runs_inParens ?_ (row_before_rightParen (List.forall_mem_map.mpr ihrows))
        (ihbody.after_space beside_rightParen_space))
    rintro q ⟨⟩ c ⟨⟩
    decide
  | breakJump | nextJump => exact solid_keyword _
  | statement _ ih => exact ih
  | unnamed _ _ ih => exact ih
  | named hname _ _ ih => exact solid_named hname ih
  | withoutDefault hname => exact solid_symbol hname
  | withDefault hname _ _ ih => exact solid_named hname ih

end Grammar

end RCode
