import RCode.Layout
import RCode.Proofs.Node.Derivation
import RCode.Proofs.Token.Readable

/-!
# A grammar of laid out trees

`Spells style row phrase` says that a row of lexemes is a spelling of a tree (or of an argument, a
parameter, a statement) that keeps to the powers of the operators: each operand binds tightly enough
for its place, and nothing that ends in an open body stands where something else would be drawn into
the body. The grammar speaks neither about parsing nor about how a tree is rendered.

That the parser reads back the tree that a row spells is shown in
`RCode.Proofs.Node.GrammarReading`.
-/

set_option autoImplicit false

namespace RCode

/-! ## Rows as tokens -/

/-- The token of a piece, without a position; spaces have none. -/
def Piece.token? : Piece → Option Token
  | .lexeme l => some ⟨l, .nowhere⟩
  | .space => none
  | .lineBreak _ => some ⟨.newline, .nowhere⟩

namespace Layout

/-- The tokens of a row, without positions. -/
def tokens (l : Layout) : List Token :=
  l.filterMap Piece.token?

@[simp] theorem tokens_nil : tokens [] = [] := rfl

@[simp] theorem tokens_lexeme (x : Lexeme) (l : Layout) :
    tokens (.lexeme x :: l) = ⟨x, .nowhere⟩ :: tokens l := rfl

@[simp] theorem tokens_operator (name : String) (l : Layout) :
    tokens (.operator name :: l) = ⟨.operator name, .nowhere⟩ :: tokens l := rfl

@[simp] theorem tokens_symbol (name : String) (l : Layout) :
    tokens (.symbol name :: l) = ⟨.symbol name, .nowhere⟩ :: tokens l := rfl

@[simp] theorem tokens_keyword (k : Keyword) (l : Layout) :
    tokens (.keyword k :: l) = ⟨.keyword k, .nowhere⟩ :: tokens l := rfl

@[simp] theorem tokens_space (l : Layout) : tokens (.space :: l) = tokens l := rfl

@[simp] theorem tokens_lineBreak (depth : Nat) (l : Layout) :
    tokens (.lineBreak depth :: l) = ⟨.newline, .nowhere⟩ :: tokens l := rfl

@[simp] theorem tokens_append (l m : Layout) : tokens (l ++ m) = tokens l ++ tokens m :=
  List.filterMap_append

@[simp] theorem tokens_inParens (l : Layout) :
    tokens l.inParens = ⟨.leftParen, .nowhere⟩ :: (tokens l ++ [⟨.rightParen, .nowhere⟩]) := by
  simp only [inParens, List.cons_append, tokens_lexeme, tokens_append, tokens_nil]

@[simp] theorem tokens_deepen (l : Layout) : tokens l.deepen = tokens l := by
  induction l with
  | nil => rfl
  | cons p l ih =>
    cases p with
    | lexeme x => exact congrArg (List.cons _) ih
    | space => exact ih
    | lineBreak depth => exact congrArg (List.cons _) ih

@[simp] theorem tokens_named (name : String) (l : Layout) :
    tokens (named name l) = ⟨.symbol name, .nowhere⟩ :: ⟨.operator "=", .nowhere⟩ :: tokens l :=
  rfl

end Layout

namespace Grammar

open RCode.Parser

/-! ## Powers -/

/-- The greatest power with which an operator may bind what stands before it without drawing in the
right end of an operand of the given power: the right operand of a right-associative operator
swallows operators of the same power. -/
def tailPower (power : Nat) : Nat :=
  if power = 20 ∨ power = 30 ∨ power = 150 then power - 1 else power

theorem tailPower_le (power : Nat) : tailPower power ≤ power := by
  unfold tailPower
  split <;> omega

theorem tailPower_mono {p q : Nat} (h : p ≤ q) : tailPower p ≤ tailPower q := by
  unfold tailPower
  split <;> split <;> omega

/-- Every operator between two operands is in the table or stands between percent signs. -/
theorem binary?_cases {name : String} {b : Operator.Binding}
    (h : Operator.binary? name = some b) :
    (name, b) ∈ Operator.binaryTable ∨ Operator.isSpecial name = true ∧ b = ⟨120, false⟩ := by
  unfold Operator.binary? at h
  rcases Option.or_eq_some_iff.mp h with h | ⟨-, h⟩
  · obtain ⟨before, after, htable, -⟩ := List.lookup_eq_some_iff.mp h
    rw [htable]
    exact .inl (List.mem_append_right before List.mem_cons_self)
  · split at h
    · next hs => cases h; exact .inr ⟨hs, rfl⟩
    · cases h

/-- The powers of binary operators: a right-associative operator has a power of its own kind. -/
theorem binary?_power {name : String} {b : Operator.Binding}
    (h : Operator.binary? name = some b) :
    0 < b.power ∧ tailPower b.power = rightPower b ∧ rightPower b < b.power + 1 ∧
      (b.rightAssociative = true ↔ b.power = 20 ∨ b.power = 30 ∨ b.power = 150) := by
  have table : ∀ e ∈ Operator.binaryTable,
      0 < e.2.power ∧ tailPower e.2.power = rightPower e.2 ∧ rightPower e.2 < e.2.power + 1 ∧
        (e.2.rightAssociative = true ↔ e.2.power = 20 ∨ e.2.power = 30 ∨ e.2.power = 150) := by
    decide
  rcases binary?_cases h with hmem | ⟨-, rfl⟩
  · exact table (name, b) hmem
  · decide

theorem prefix?_power {name : String} {p : Nat} (h : Operator.prefix? name = some p) :
    0 < p ∧ p < Operator.postfixPower ∧ tailPower p = p := by
  have table : ∀ e ∈ Operator.prefixTable,
      0 < e.2 ∧ e.2 < Operator.postfixPower ∧ tailPower e.2 = e.2 := by
    decide
  obtain ⟨before, after, htable, -⟩ := List.lookup_eq_some_iff.mp h
  refine table (name, p) ?_
  rw [htable]
  exact List.mem_append_right before List.mem_cons_self

/-! ## Spellings -/

/-- What a row spells, and how it behaves among its neighbours. -/
inductive Style where
  /-- An expression. If `whole`, it is a single operand, whatever power is asked for. `power` is the
  power of its outermost operator, and it may end in an open body. -/
  | expression (whole : Bool) (power : Nat) (isOpen : Bool)
  | statement
  | argument
  | parameter

/-- The power of what needs no protection. -/
abbrev atomPower : Nat := 200

/-- A call of a keyword or an operator, without positions. -/
abbrev callOf (name : String) (args : List Node) : Node :=
  keywordCall name .nowhere args

/-- The spaces on either side of a binary operator. -/
def gap (name : String) : Layout :=
  if name = "^" ∨ name = ":" then [] else [.space]

/-- A row with the tree that it spells. -/
abbrev Row (α : Type) := Layout × α

/-- The rows with commas between them. -/
def rowLayout {α : Type} (rows : List (Row α)) : Layout :=
  Layout.commaSeparated (rows.map Prod.fst)

/-- The expression does not read as a named argument: it is no assignment by `=`. -/
def IsArgumentPower (power : Nat) : Prop :=
  power = 0 ∨ Operator.assignPower < power

/-- The row is a spelling of the phrase. -/
inductive Spells : Style → Layout → Phrase → Prop
  | literal {l : Lexeme} : isLiteral l = true → l.IsReadable →
      Spells (.expression true atomPower false) [.lexeme l] (.node (.constant l.value .nowhere))
  | symbol {name : String} : name ≠ "" →
      Spells (.expression true atomPower false) [.symbol name] (.node (.symbol name .nowhere))
  | unary {name : String} {p power : Nat} {whole isOpen : Bool} {l : Layout} {m : Node} :
      Operator.prefix? name = some p →
      Spells (.expression whole power isOpen) l (.node m) →
      whole = true ∨ p < power → isOpen = true ∨ p ≤ tailPower power →
      Spells (.expression true p isOpen) (.operator name :: l) (.node (callOf name [m]))
  | binary {name : String} {b : Operator.Binding} {power power' : Nat} {whole whole' isOpen : Bool}
      {l l' : Layout} {left right : Node} :
      Operator.binary? name = some b → Operator.IsReadable name →
      name ∉ Operator.members → name ∉ Operator.qualifiers → name ∉ ["->", "->>", "|>"] →
      Spells (.expression whole power false) l (.node left) →
      b.power ≤ tailPower power →
      Spells (.expression whole' power' isOpen) l' (.node right) →
      whole' = true ∨ rightPower b < power' → isOpen = true ∨ rightPower b ≤ tailPower power' →
      Spells (.expression false b.power isOpen)
        (l ++ (gap name ++ .operator name :: (gap name ++ l')))
        (.node (.call (.symbol name .nowhere) [⟨none, left⟩, ⟨none, right⟩] left.position))
  | member {name : String} {power p : Nat} {whole : Bool} {l : Layout} {left right : Node}
      {u : Lexeme} :
      Operator.binary? name = some ⟨p, false⟩ → TakesMember name left → u.IsReadable →
      memberNode? ⟨u, .nowhere⟩ = some right →
      Spells (.expression whole power false) l (.node left) →
      p ≤ tailPower power →
      Spells (.expression false p false) (l ++ [.operator name, .lexeme u])
        (.node (.call (.symbol name .nowhere) [⟨none, left⟩, ⟨none, right⟩] left.position))
  | application {power : Nat} {whole : Bool} {l : Layout} {head : Node}
      {rows : List (Row (Arg Node))} :
      Spells (.expression whole power false) l (.node head) →
      Operator.postfixPower ≤ power →
      (∀ r ∈ rows, Spells .argument r.1 (.args [r.2])) →
      Spells (.expression false atomPower false) (l ++ (rowLayout rows).inParens)
        (.node (.call head (rows.map Prod.snd) head.position))
  | index {power : Nat} {whole : Bool} {l : Layout} {target : Node}
      {rows : List (Row (Arg Node))} :
      Spells (.expression whole power false) l (.node target) →
      Operator.postfixPower ≤ power →
      (∀ r ∈ rows, Spells .argument r.1 (.args [r.2])) →
      Spells (.expression false atomPower false)
        (l ++ .lexeme .leftBracket :: (rowLayout rows ++ [.lexeme .rightBracket]))
        (.node (.call (.symbol "[" .nowhere) (⟨none, target⟩ :: rows.map Prod.snd)
          target.position))
  | doubleIndex {power : Nat} {whole : Bool} {l : Layout} {target : Node}
      {rows : List (Row (Arg Node))} :
      Spells (.expression whole power false) l (.node target) →
      Operator.postfixPower ≤ power →
      (∀ r ∈ rows, Spells .argument r.1 (.args [r.2])) →
      Spells (.expression false atomPower false)
        (l ++ .lexeme .leftDouble ::
          (rowLayout rows ++ [.lexeme .rightBracket, .lexeme .rightBracket]))
        (.node (.call (.symbol "[[" .nowhere) (⟨none, target⟩ :: rows.map Prod.snd)
          target.position))
  | group {power : Nat} {whole isOpen : Bool} {l : Layout} {m : Node} :
      Spells (.expression whole power isOpen) l (.node m) →
      Spells (.expression true atomPower false) l.inParens (.node (callOf "(" [m]))
  | block {rows : List (Row Node)} :
      (∀ r ∈ rows, Spells .statement r.1 (.node r.2)) →
      Spells (.expression true atomPower false)
        (.lexeme .leftBrace ::
          (rows.flatMap (fun r => .lineBreak 1 :: Layout.deepen r.1) ++
            [.lineBreak 0, .lexeme .rightBrace]))
        (.node (callOf "\x7b" (rows.map Prod.snd)))
  | conditional {power power' : Nat} {whole whole' isOpen isOpen' : Bool} {l l' : Layout}
      {condition body : Node} :
      Spells (.expression whole power isOpen) l (.node condition) →
      Spells (.expression whole' power' isOpen') l' (.node body) →
      Spells (.expression true 0 true)
        (.keyword .ifWord :: .space :: (l.inParens ++ .space :: l'))
        (.node (callOf "if" [condition, body]))
  | alternative {power power' power'' : Nat} {whole whole' whole'' isOpen isOpen'' : Bool}
      {l l' l'' : Layout} {condition body other : Node} :
      Spells (.expression whole power isOpen) l (.node condition) →
      Spells (.expression whole' power' false) l' (.node body) →
      Spells (.expression whole'' power'' isOpen'') l'' (.node other) →
      Spells (.expression true 0 true)
        (.keyword .ifWord :: .space :: (l.inParens ++ .space ::
          (l' ++ .space :: .keyword .elseWord :: .space :: l'')))
        (.node (callOf "if" [condition, body, other]))
  | whileLoop {power power' : Nat} {whole whole' isOpen isOpen' : Bool} {l l' : Layout}
      {condition body : Node} :
      Spells (.expression whole power isOpen) l (.node condition) →
      Spells (.expression whole' power' isOpen') l' (.node body) →
      Spells (.expression true 0 true)
        (.keyword .whileWord :: .space :: (l.inParens ++ .space :: l'))
        (.node (callOf "while" [condition, body]))
  | forLoop {power power' : Nat} {whole whole' isOpen isOpen' : Bool} {l l' : Layout}
      {name : String} {sequence body : Node} :
      name ≠ "" →
      Spells (.expression whole power isOpen) l (.node sequence) →
      Spells (.expression whole' power' isOpen') l' (.node body) →
      Spells (.expression true 0 true)
        (.keyword .forWord :: .space ::
          (Layout.inParens (.symbol name :: .space :: .keyword .inWord :: .space :: l) ++
            .space :: l'))
        (.node (callOf "for" [.symbol name .nowhere, sequence, body]))
  | repeatLoop {power : Nat} {whole isOpen : Bool} {l : Layout} {body : Node} :
      Spells (.expression whole power isOpen) l (.node body) →
      Spells (.expression true 0 true) (.keyword .repeatWord :: .space :: l)
        (.node (callOf "repeat" [body]))
  | definition {power : Nat} {whole isOpen : Bool} {l : Layout} {body : Node}
      {rows : List (Row (Param Node))} :
      (∀ r ∈ rows, Spells .parameter r.1 (.params [r.2])) →
      (rows.map fun r => r.2.name).Nodup →
      Spells (.expression whole power isOpen) l (.node body) →
      Spells (.expression true 0 true)
        (.keyword .functionWord :: ((rowLayout rows).inParens ++ .space :: l))
        (.node (callOf "function" [.params (rows.map Prod.snd) .nowhere, body]))
  | breakJump :
      Spells (.expression true atomPower false) [.keyword .breakWord] (.node (callOf "break" []))
  | nextJump :
      Spells (.expression true atomPower false) [.keyword .nextWord] (.node (callOf "next" []))
  | statement {power : Nat} {whole isOpen : Bool} {l : Layout} {m : Node} :
      Spells (.expression whole power isOpen) l (.node m) →
      Spells .statement l (.node m)
  | unnamed {power : Nat} {whole isOpen : Bool} {l : Layout} {m : Node} :
      Spells (.expression whole power isOpen) l (.node m) → IsArgumentPower power →
      Spells .argument l (.args [⟨none, m⟩])
  | named {name : String} {power : Nat} {whole isOpen : Bool} {l : Layout} {m : Node} :
      name ≠ "" →
      Spells (.expression whole power isOpen) l (.node m) → IsArgumentPower power →
      Spells .argument (Layout.named name l) (.args [⟨some name, m⟩])
  | withoutDefault {name : String} : name ≠ "" →
      Spells .parameter [.symbol name] (.params [⟨name, .missing⟩])
  | withDefault {name : String} {power : Nat} {whole isOpen : Bool} {l : Layout} {m : Node} :
      name ≠ "" →
      Spells (.expression whole power isOpen) l (.node m) → IsArgumentPower power →
      Spells .parameter (Layout.named name l) (.params [⟨name, m⟩])

/-- An expression that is no single operand has an operator with a power. -/
theorem Spells.whole_or_pos {whole isOpen : Bool} {power : Nat} {l : Layout} {r : Phrase}
    (h : Spells (.expression whole power isOpen) l r) : whole = true ∨ 0 < power := by
  cases h with
  | binary hb => exact .inr (binary?_power hb).1
  | member hb => exact .inr (binary?_power hb).1
  | application => exact .inr (by decide)
  | index => exact .inr (by decide)
  | doubleIndex => exact .inr (by decide)
  | _ => exact .inl rfl

/-! ## The start of a row -/

/-- The lexeme can start an expression. -/
def opens : Lexeme → Bool
  | .symbol _ => true
  | .operator name => (Operator.prefix? name).isSome
  | .leftParen => true
  | .leftBrace => true
  | .keyword .elseWord => false
  | .keyword .inWord => false
  | .keyword _ => true
  | l => isLiteral l

theorem opens_of_isLiteral {l : Lexeme} (h : isLiteral l = true) : opens l = true := by
  cases l with
  | integer | double | text | constant => rfl
  | _ => cases h

/-- An expression starts with a lexeme that can start one. -/
theorem Spells.starts {style : Style} {l : Layout} {r : Phrase} (h : Spells style l r) :
    ∀ {whole isOpen : Bool} {power : Nat}, style = .expression whole power isOpen →
      ∃ x ts, l.tokens = ⟨x, .nowhere⟩ :: ts ∧ opens x = true := by
  induction h with
  | literal hl => rintro _ _ _ -; exact ⟨_, _, rfl, opens_of_isLiteral hl⟩
  | symbol => rintro _ _ _ -; exact ⟨_, _, rfl, rfl⟩
  | unary hp =>
    rintro _ _ _ -
    exact ⟨_, _, rfl, by simp only [opens, hp, Option.isSome_some]⟩
  | binary _ _ _ _ _ _ _ _ _ _ ih =>
    rintro _ _ _ -
    obtain ⟨x, ts, hl, hx⟩ := ih rfl
    exact ⟨x, _, by rw [Layout.tokens_append, hl]; rfl, hx⟩
  | member _ _ _ _ _ _ ih =>
    rintro _ _ _ -
    obtain ⟨x, ts, hl, hx⟩ := ih rfl
    exact ⟨x, _, by rw [Layout.tokens_append, hl]; rfl, hx⟩
  | application _ _ _ ih =>
    rintro _ _ _ -
    obtain ⟨x, ts, hl, hx⟩ := ih rfl
    exact ⟨x, _, by rw [Layout.tokens_append, hl]; rfl, hx⟩
  | index _ _ _ ih =>
    rintro _ _ _ -
    obtain ⟨x, ts, hl, hx⟩ := ih rfl
    exact ⟨x, _, by rw [Layout.tokens_append, hl]; rfl, hx⟩
  | doubleIndex _ _ _ ih =>
    rintro _ _ _ -
    obtain ⟨x, ts, hl, hx⟩ := ih rfl
    exact ⟨x, _, by rw [Layout.tokens_append, hl]; rfl, hx⟩
  | group | block | conditional | alternative | whileLoop | forLoop | repeatLoop | definition
  | breakJump | nextJump => rintro _ _ _ -; exact ⟨_, _, rfl, rfl⟩
  | statement | unnamed | named | withoutDefault | withDefault => rintro _ _ _ ⟨⟩

end Grammar

end RCode
