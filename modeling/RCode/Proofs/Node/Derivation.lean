import RCode.Node.Parser

/-!
# Derivations of the parser

The parser is a family of functions that call each other on shorter and shorter token lists and can
fail at every step. `Reads goal ts phrase rest` says that it succeeds: asked for `goal`, it reads
`phrase` from `ts` and leaves `rest`. One rule stands for one way through one of the functions, so
that a property of everything the parser accepts is an induction over derivations, and the reading
of a given text is a derivation put together from its parts.

That the functions succeed exactly where there is a derivation is shown in
`RCode.Proofs.Node.ParserDerivation`.
-/

set_option autoImplicit false

namespace RCode.Parser

/-- What is to be read. -/
inductive Goal where
  /-- An expression whose operators bind tighter than `power`. -/
  | expression (region : Region) (power : Nat)
  /-- The operators that bind tighter than `power`, after the operand `left`. -/
  | operators (region : Region) (power : Nat) (left : Node)
  /-- The operand that starts with the token `first`, which has been taken. -/
  | operand (region : Region) (first : Token)
  /-- What the operator or bracket `operator`, which has been taken, makes of `left`. -/
  | operatorForm (region : Region) (operator : Token) (left : Node)
  | condition (region : Region)
  /-- The statements of the block that was opened at `opening`. -/
  | statements (opening : Position)
  | parameters
  /-- At least one parameter; the names in `seen` are taken. -/
  | parameterList (seen : List String)
  | parameterDefault
  | arguments (closing : Closing)
  | argumentList (closing : Closing)
  | argument (closing : Closing)

/-- What has been read. -/
inductive Phrase where
  | node (n : Node)
  | nodes (ns : List Node)
  | args (as : List (Arg Node))
  | params (ps : List (Param Node))

/-- The lexeme is a constant by itself. -/
def isLiteral : Lexeme → Bool
  | .integer _ => true
  | .double _ => true
  | .text _ => true
  | .constant _ => true
  | _ => false

/-- The tokens after an `else` that continues an `if`. -/
def afterElse? (region : Region) (ts : Tokens) : Option Tokens :=
  (elseBranch? region ts).map Subtype.val

/-- The name of a named argument that starts with `t`, and the tokens after its `=`. -/
def afterName? (t : Token) (rest : Tokens) : Option (String × Tokens) :=
  (argumentName? t rest).map fun r => (r.1, r.2.1)

/-- The node a token stands for after `$`, `@` or `::`. -/
def memberNode? (t : Token) : Option Node :=
  match t.lexeme with
  | .symbol name => some (.symbol name t.position)
  | .text s => some (.constant (.text s) t.position)
  | _ => none

/-- The operator takes the name of a member on its right when `left` is on its left. -/
def TakesMember (name : String) (left : Node) : Prop :=
  name = "$" ∨ name = "@" ∨ ((name = "::" ∨ name = ":::") ∧ isNamespace left = true)

/-- The power that the operators on the right side of an operator have to exceed. -/
def rightPower (binding : Operator.Binding) : Nat :=
  if binding.rightAssociative then binding.power - 1 else binding.power

/-- What the parser reads: from the tokens it is given to the tokens it leaves. -/
inductive Reads : Goal → Tokens → Phrase → Tokens → Prop
  | expression {region : Region} {power : Nat} {ts ts₁ ts₂ rest : Tokens} {t : Token}
      {left n : Node} :
      visible region ts = t :: ts₁ →
      Reads (.operand region t) ts₁ (.node left) ts₂ →
      Reads (.operators region power left) ts₂ (.node n) rest →
      Reads (.expression region power) ts (.node n) rest
  | done {region : Region} {power : Nat} {left : Node} {ts : Tokens} :
      (∀ t ∈ (visible region ts).head?, leftPower t.lexeme ≤ power) →
      Reads (.operators region power left) ts (.node left) (visible region ts)
  | more {region : Region} {power : Nat} {left left' n : Node} {ts ts₁ ts₂ rest : Tokens}
      {t : Token} :
      visible region ts = t :: ts₁ → power < leftPower t.lexeme →
      Reads (.operatorForm region t left) ts₁ (.node left') ts₂ →
      Reads (.operators region power left') ts₂ (.node n) rest →
      Reads (.operators region power left) ts (.node n) rest
  | literal {region : Region} {t : Token} {ts : Tokens} :
      isLiteral t.lexeme = true →
      Reads (.operand region t) ts (.node (.constant t.lexeme.value t.position)) ts
  | symbol {region : Region} {t : Token} {ts : Tokens} {name : String} :
      t.lexeme = .symbol name →
      Reads (.operand region t) ts (.node (.symbol name t.position)) ts
  | prefixed {region : Region} {t : Token} {ts rest : Tokens} {name : String} {power : Nat}
      {inner : Node} :
      t.lexeme = .operator name → Operator.prefix? name = some power →
      Reads (.expression region power) (skipBreaks ts) (.node inner) rest →
      Reads (.operand region t) ts (.node (keywordCall name t.position [inner])) rest
  | group {region : Region} {t : Token} {ts ts₁ rest : Tokens} {p : Position} {inner : Node} :
      t.lexeme = .leftParen →
      Reads (.expression .bracket 0) ts (.node inner) ts₁ →
      visible .bracket ts₁ = ⟨.rightParen, p⟩ :: rest →
      Reads (.operand region t) ts (.node (keywordCall "(" t.position [inner])) rest
  | block {region : Region} {t : Token} {ts rest : Tokens} {body : List Node} :
      t.lexeme = .leftBrace →
      Reads (.statements t.position) ts (.nodes body) rest →
      Reads (.operand region t) ts (.node (keywordCall "\x7b" t.position body)) rest
  | conditional {region : Region} {t : Token} {ts ts₁ rest : Tokens} {condition body : Node} :
      t.lexeme = .keyword .ifWord →
      Reads (.condition region) ts (.node condition) ts₁ →
      Reads (.expression region 0) (skipBreaks ts₁) (.node body) rest →
      afterElse? region rest = none →
      Reads (.operand region t) ts (.node (keywordCall "if" t.position [condition, body])) rest
  | alternative {region : Region} {t : Token} {ts ts₁ ts₂ ts₃ rest : Tokens}
      {condition body other : Node} :
      t.lexeme = .keyword .ifWord →
      Reads (.condition region) ts (.node condition) ts₁ →
      Reads (.expression region 0) (skipBreaks ts₁) (.node body) ts₂ →
      afterElse? region ts₂ = some ts₃ →
      Reads (.expression region 0) (skipBreaks ts₃) (.node other) rest →
      Reads (.operand region t) ts (.node (keywordCall "if" t.position [condition, body, other]))
        rest
  | whileLoop {region : Region} {t : Token} {ts ts₁ rest : Tokens} {condition body : Node} :
      t.lexeme = .keyword .whileWord →
      Reads (.condition region) ts (.node condition) ts₁ →
      Reads (.expression region 0) (skipBreaks ts₁) (.node body) rest →
      Reads (.operand region t) ts (.node (keywordCall "while" t.position [condition, body])) rest
  | forLoop {region : Region} {t : Token} {ts ts₁ ts₂ ts₃ ts₄ ts₅ rest : Tokens}
      {p q r s : Position} {name : String} {sequence body : Node} :
      t.lexeme = .keyword .forWord →
      visible region ts = ⟨.leftParen, p⟩ :: ts₁ →
      visible .bracket ts₁ = ⟨.symbol name, q⟩ :: ts₂ →
      visible .bracket ts₂ = ⟨.keyword .inWord, r⟩ :: ts₃ →
      Reads (.expression .bracket 0) ts₃ (.node sequence) ts₄ →
      visible .bracket ts₄ = ⟨.rightParen, s⟩ :: ts₅ →
      Reads (.expression region 0) (skipBreaks ts₅) (.node body) rest →
      Reads (.operand region t) ts
        (.node (keywordCall "for" t.position [.symbol name q, sequence, body])) rest
  | repeatLoop {region : Region} {t : Token} {ts rest : Tokens} {body : Node} :
      t.lexeme = .keyword .repeatWord →
      Reads (.expression region 0) (skipBreaks ts) (.node body) rest →
      Reads (.operand region t) ts (.node (keywordCall "repeat" t.position [body])) rest
  | definition {region : Region} {t : Token} {ts ts₁ ts₂ rest : Tokens} {p : Position}
      {items : List (Param Node)} {body : Node} :
      t.lexeme = .keyword .functionWord →
      visible region ts = ⟨.leftParen, p⟩ :: ts₁ →
      Reads .parameters ts₁ (.params items) ts₂ →
      Reads (.expression region 0) (skipBreaks ts₂) (.node body) rest →
      Reads (.operand region t) ts
        (.node (keywordCall "function" t.position [.params items p, body])) rest
  | breakJump {region : Region} {t : Token} {ts : Tokens} :
      t.lexeme = .keyword .breakWord →
      Reads (.operand region t) ts (.node (keywordCall "break" t.position [])) ts
  | nextJump {region : Region} {t : Token} {ts : Tokens} :
      t.lexeme = .keyword .nextWord →
      Reads (.operand region t) ts (.node (keywordCall "next" t.position [])) ts
  | condition {region : Region} {ts ts₁ ts₂ rest : Tokens} {p q : Position} {n : Node} :
      visible region ts = ⟨.leftParen, p⟩ :: ts₁ →
      Reads (.expression .bracket 0) ts₁ (.node n) ts₂ →
      visible .bracket ts₂ = ⟨.rightParen, q⟩ :: rest →
      Reads (.condition region) ts (.node n) rest
  | blockEnd {opening p : Position} {ts rest : Tokens} :
      skipSeparators ts = ⟨.rightBrace, p⟩ :: rest →
      Reads (.statements opening) ts (.nodes []) rest
  | statement {opening : Position} {ts ts₁ ts₂ rest : Tokens} {t : Token} {n : Node}
      {more : List Node} :
      skipSeparators ts = t :: ts₁ → t.lexeme ≠ .rightBrace →
      Reads (.expression .block 0) (t :: ts₁) (.node n) ts₂ →
      endsStatement ts₂ = true →
      Reads (.statements opening) ts₂ (.nodes more) rest →
      Reads (.statements opening) ts (.nodes (n :: more)) rest
  | noParameters {ts rest : Tokens} {p : Position} :
      visible .bracket ts = ⟨.rightParen, p⟩ :: rest →
      Reads .parameters ts (.params []) rest
  | someParameters {ts rest : Tokens} {items : List (Param Node)} :
      (∀ p after, visible .bracket ts ≠ ⟨.rightParen, p⟩ :: after) →
      Reads (.parameterList []) ts (.params items) rest →
      Reads .parameters ts (.params items) rest
  | lastParameter {seen : List String} {ts ts₁ ts₂ rest : Tokens} {name : String}
      {p q : Position} {default : Node} :
      visible .bracket ts = ⟨.symbol name, p⟩ :: ts₁ → name ∉ seen →
      Reads .parameterDefault ts₁ (.node default) ts₂ →
      visible .bracket ts₂ = ⟨.rightParen, q⟩ :: rest →
      Reads (.parameterList seen) ts (.params [⟨name, default⟩]) rest
  | parameter {seen : List String} {ts ts₁ ts₂ ts₃ rest : Tokens} {name : String}
      {p q : Position} {default : Node} {more : List (Param Node)} :
      visible .bracket ts = ⟨.symbol name, p⟩ :: ts₁ → name ∉ seen →
      Reads .parameterDefault ts₁ (.node default) ts₂ →
      visible .bracket ts₂ = ⟨.comma, q⟩ :: ts₃ →
      Reads (.parameterList (name :: seen)) ts₃ (.params more) rest →
      Reads (.parameterList seen) ts (.params (⟨name, default⟩ :: more)) rest
  | withDefault {ts ts₁ rest : Tokens} {p : Position} {default : Node} :
      visible .bracket ts = ⟨.operator "=", p⟩ :: ts₁ →
      Reads (.expression .bracket Operator.assignPower) ts₁ (.node default) rest →
      Reads .parameterDefault ts (.node default) rest
  | noDefault {ts : Tokens} :
      (∀ p after, visible .bracket ts ≠ ⟨.operator "=", p⟩ :: after) →
      Reads .parameterDefault ts (.node .missing) ts
  | application {region : Region} {t : Token} {left : Node} {ts rest : Tokens}
      {args : List (Arg Node)} :
      t.lexeme = .leftParen →
      Reads (.arguments .paren) ts (.args args) rest →
      Reads (.operatorForm region t left) ts (.node (.call left args left.position)) rest
  | index {region : Region} {t : Token} {left : Node} {ts rest : Tokens}
      {args : List (Arg Node)} :
      t.lexeme = .leftBracket →
      Reads (.arguments .bracket) ts (.args args) rest →
      Reads (.operatorForm region t left) ts
        (.node (.call (.symbol "[" t.position) (⟨none, left⟩ :: args) left.position)) rest
  | doubleIndex {region : Region} {t : Token} {left : Node} {ts ts₁ rest : Tokens}
      {p : Position} {args : List (Arg Node)} :
      t.lexeme = .leftDouble →
      Reads (.arguments .bracket) ts (.args args) ts₁ →
      visible region ts₁ = ⟨.rightBracket, p⟩ :: rest →
      Reads (.operatorForm region t left) ts
        (.node (.call (.symbol "[[" t.position) (⟨none, left⟩ :: args) left.position)) rest
  | member {region : Region} {t u : Token} {left right : Node} {ts rest : Tokens}
      {name : String} :
      t.lexeme = .operator name → TakesMember name left →
      skipBreaks ts = u :: rest → memberNode? u = some right →
      Reads (.operatorForm region t left) ts
        (.node (.call (.symbol name t.position) [⟨none, left⟩, ⟨none, right⟩] left.position)) rest
  | binary {region : Region} {t : Token} {left right n : Node} {ts rest : Tokens} {name : String}
      {binding : Operator.Binding} :
      t.lexeme = .operator name → name ∉ Operator.members → name ∉ Operator.qualifiers →
      Operator.binary? name = some binding →
      Reads (.expression region (rightPower binding)) (skipBreaks ts) (.node right) rest →
      combine name t.position left right = .ok n →
      Reads (.operatorForm region t left) ts (.node n) rest
  | noArguments {closing : Closing} {ts rest : Tokens} {t : Token} :
      visible .bracket ts = t :: rest → closing.accepts t.lexeme = true →
      Reads (.arguments closing) ts (.args []) rest
  | someArguments {closing : Closing} {ts ts₁ rest : Tokens} {t : Token}
      {args : List (Arg Node)} :
      visible .bracket ts = t :: ts₁ → closing.accepts t.lexeme = false →
      Reads (.argumentList closing) ts (.args args) rest →
      Reads (.arguments closing) ts (.args args) rest
  | lastArgument {closing : Closing} {ts ts₁ rest : Tokens} {t : Token} {a : Arg Node} :
      Reads (.argument closing) ts (.args [a]) ts₁ →
      visible .bracket ts₁ = t :: rest → closing.accepts t.lexeme = true →
      Reads (.argumentList closing) ts (.args [a]) rest
  | argument {closing : Closing} {ts ts₁ ts₂ rest : Tokens} {p : Position} {a : Arg Node}
      {more : List (Arg Node)} :
      Reads (.argument closing) ts (.args [a]) ts₁ →
      visible .bracket ts₁ = ⟨.comma, p⟩ :: ts₂ →
      Reads (.argumentList closing) ts₂ (.args more) rest →
      Reads (.argumentList closing) ts (.args (a :: more)) rest
  | unnamed {closing : Closing} {ts ts₁ rest : Tokens} {t : Token} {value : Node} :
      visible .bracket ts = t :: ts₁ → closing.endsArgument t.lexeme = false →
      afterName? t ts₁ = none →
      Reads (.expression .bracket 0) ts (.node value) rest →
      Reads (.argument closing) ts (.args [⟨none, value⟩]) rest
  | named {closing : Closing} {ts ts₁ ts₂ rest : Tokens} {t : Token} {name : String}
      {value : Node} :
      visible .bracket ts = t :: ts₁ → closing.endsArgument t.lexeme = false →
      afterName? t ts₁ = some (name, ts₂) → name ≠ "" →
      (found (visible .bracket ts₂)).any closing.endsArgument = false →
      Reads (.expression .bracket Operator.assignPower) ts₂ (.node value) rest →
      Reads (.argument closing) ts (.args [⟨some name, value⟩]) rest

/-- The programs that tokens are read as: expressions at the top level, each with an end of its own. -/
inductive ReadsProgram : Tokens → List Node → Prop
  | nil {ts : Tokens} : skipSeparators ts = [] → ReadsProgram ts []
  | cons {ts ts₁ rest : Tokens} {t : Token} {n : Node} {ns : List Node} :
      skipSeparators ts = t :: ts₁ →
      Reads (.expression .top 0) (t :: ts₁) (.node n) rest →
      endsExpression rest = true →
      ReadsProgram rest ns →
      ReadsProgram ts (n :: ns)

/-! ## Operators and their operands -/

/-- The operators that assign to the right, and the names of the calls that they make. -/
def Reverses (operator name : String) : Prop :=
  operator = "->" ∧ name = "<-" ∨ operator = "->>" ∧ name = "<<-"

/-- What an operator at `p` makes of its operands. -/
inductive Combines (p : Position) (left : Node) : String → Node → Node → Prop where
  | reversed {operator name : String} (right : Node) : Reverses operator name →
      Combines p left operator right
        (.call (.symbol name p) [⟨none, right⟩, ⟨none, left⟩] left.position)
  /-- A pipe puts its left side before the arguments of the call on its right side. -/
  | piped {head : Node} {args : List (Arg Node)} {q : Position} :
      ¬ (Node.call head args q).isCallTo ["function"] = true →
        Combines p left "|>" (.call head args q) (.call head (⟨none, left⟩ :: args) q)
  | kept {operator : String} (right : Node) : operator ∉ ["->", "->>", "|>"] →
      Combines p left operator right
        (.call (.symbol operator p) [⟨none, left⟩, ⟨none, right⟩] left.position)

theorem combine_eq_ok_iff {operator : String} {p : Position} {left right n : Node} :
    combine operator p left right = .ok n ↔ Combines p left operator right n := by
  constructor
  · intro h
    unfold combine at h
    split at h
    · next hright =>
      cases h
      exact .reversed right (.inl ⟨hright, rfl⟩)
    · next hright =>
      split at h
      · next hdouble =>
        cases h
        exact .reversed right (.inr ⟨hdouble, rfl⟩)
      · next hdouble =>
        split at h
        · next hpipe =>
          subst hpipe
          cases right with
          | call head args q =>
            dsimp only at h
            split at h
            · cases h
            · next hfunction =>
              cases h
              exact .piped hfunction
          | _ => cases h
        · next hpipe =>
          cases h
          refine .kept right ?_
          simp only [List.mem_cons, List.not_mem_nil, or_false, not_or]
          exact ⟨hright, hdouble, hpipe⟩
  · intro h
    cases h with
    | reversed right hreverses =>
      rcases hreverses with ⟨rfl, rfl⟩ | ⟨rfl, rfl⟩
      · rfl
      · rfl
    | piped hfunction => exact if_neg hfunction
    | kept right hother =>
      simp only [List.mem_cons, List.not_mem_nil, or_false, not_or] at hother
      unfold combine
      rw [if_neg hother.1, if_neg hother.2.1, if_neg hother.2.2]
      rfl

/-! ## What comes next -/

theorem skipBreaks_skipBreaks (ts : Tokens) : skipBreaks (skipBreaks ts) = skipBreaks ts := by
  fun_induction skipBreaks ts with
  | case1 p rest ih => exact ih
  | case2 ts hne =>
    rw [skipBreaks]
    exact hne

theorem visible_skipBreaks (region : Region) (ts : Tokens) :
    visible region (skipBreaks ts) = skipBreaks ts := by
  cases region with
  | bracket => exact skipBreaks_skipBreaks ts
  | _ => rfl

theorem visible_visible (region : Region) (ts : Tokens) :
    visible region (visible region ts) = visible region ts := by
  cases region with
  | bracket => exact skipBreaks_skipBreaks ts
  | _ => rfl

/-- The tokens in which an `else` is looked for: at the top level it stands on the same line. -/
def beforeElse (region : Region) (ts : Tokens) : Tokens :=
  if region = .top then ts else skipBreaks ts

theorem afterElse?_eq_some {region : Region} {ts rest : Tokens} :
    afterElse? region ts = some rest ↔
      ∃ p, beforeElse region ts = ⟨.keyword .elseWord, p⟩ :: rest := by
  unfold afterElse? elseBranch? beforeElse
  constructor
  · intro h
    split at h
    · next p after hb => cases h; exact ⟨p, hb⟩
    · cases h
  · rintro ⟨p, hp⟩
    split
    · next q after hb =>
      rw [hp] at hb
      cases hb
      rfl
    · next hne => exact absurd hp (hne p rest)

theorem afterName?_eq_some {t : Token} {ts rest : Tokens} {name : String} :
    afterName? t ts = some (name, rest) ↔
      (t.lexeme = .symbol name ∨ t.lexeme = .text name) ∧
        ∃ p, skipBreaks ts = ⟨.operator "=", p⟩ :: rest := by
  unfold afterName? argumentName?
  constructor
  · intro h
    split at h
    · next p after hb =>
      split at h
      · next ht => cases h; exact ⟨.inl ht, p, hb⟩
      · next ht => cases h; exact ⟨.inr ht, p, hb⟩
      · cases h
    · cases h
  · rintro ⟨ht, p, hp⟩
    split
    · next q after hb =>
      rw [hp] at hb
      cases hb
      rcases ht with ht | ht
      · simp only [ht, Option.map_some]
      · simp only [ht, Option.map_some]
    · next hne => exact absurd hp (hne p rest)

end RCode.Parser
