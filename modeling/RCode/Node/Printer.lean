import RCode.Layout
import RCode.Node.Basic

/-!
# From trees to text

A tree is laid out from its leaves up. Operators are written between their operands only where the
table of operators guarantees that the text reads back as the same tree; otherwise the call is
written as a call, with its head in backticks. To decide that, every tree is laid out as a
`Fragment`, which says how tightly its outermost operator binds and whether it ends in an open body,
such as that of `if`, which would swallow what is written after it. `guarded` is the form that is
safe as any operand.
-/

set_option autoImplicit false

namespace RCode

namespace Printer

/-- The power of what needs no protection: symbols, calls, brackets. -/
def atomPower : Nat := 200

/-- The power of what ends in an open body. -/
def openPower : Nat := 0

/-- A way to write a tree. -/
structure Form where
  layout : Layout
  /-- The power of the outermost operator. -/
  power : Nat
  /-- The text ends in an open body. -/
  isOpen : Bool

/-- A tree as it is written, and as it is written where it needs protection. -/
structure Fragment extends Form where
  guarded : Layout

namespace Form

/-- What needs no protection. -/
def atom (layout : Layout) : Form :=
  ⟨layout, atomPower, false⟩

/-- What ends in an open body. -/
def openEnded (layout : Layout) : Form :=
  ⟨layout, openPower, true⟩

/-- The layout in round brackets, unless it needs no protection. -/
def bracketed (f : Form) : Layout :=
  if f.power < atomPower ∨ f.isOpen then f.layout.inParens else f.layout

/-- The form guarded by round brackets. -/
def fragment (f : Form) : Fragment :=
  { f with guarded := f.bracketed }

end Form

namespace Fragment

/-- The layout as an operand of an operator with the power `needs`, and whether it ends in an open
body. If `strict`, an operator of the same power needs protection too. -/
def operand (f : Fragment) (needs : Nat) (strict : Bool) : Layout × Bool :=
  if f.isOpen ∧ f.power = openPower then (f.layout, true)
  else if f.power < needs ∨ (strict ∧ f.power = needs) then (f.guarded, false)
  else (f.layout, f.isOpen)

/-- The layout as a left operand, which must not end in an open body. -/
def leftOperand (f : Fragment) (needs : Nat) (strict : Bool) : Layout :=
  let (layout, isOpen) := f.operand needs strict
  if isOpen then f.guarded else layout

/-- The layout as an argument or a default, which must not read as a named argument. -/
def argument (f : Fragment) : Layout :=
  if openPower < f.power ∧ f.power ≤ Operator.assignPower then f.guarded else f.layout

end Fragment

/-- A tree with its fragment. -/
abbrev Part := Node × Fragment

/-- The arguments of a call. -/
def argumentRow (args : List (Arg Part)) : Layout :=
  Layout.commaSeparated <| args.map fun a =>
    match a.name with
    | none => a.value.2.argument
    | some name => Layout.named name a.value.2.argument

/-- The formal parameters of a function definition. -/
def parameterRow (items : List (Param Part)) : Layout :=
  Layout.commaSeparated <| items.map fun p =>
    if p.default.1.isMissing then [.symbol p.name]
    else Layout.named p.name p.default.2.argument

/-- The form of a call that every call has: its head, and its arguments in brackets. -/
def prefixForm (head : Node) (headPart : Fragment) (args : List (Arg Part)) : Layout :=
  let headLayout :=
    match head with
    | .symbol name _ => [.symbol name]
    | _ => headPart.leftOperand Operator.postfixPower false
  headLayout ++ (argumentRow args).inParens

/-- The statements of a block, each on a line of its own. -/
def blockLayout (statements : List Fragment) : Layout :=
  .lexeme .leftBrace ::
    statements.flatMap (fun f => .lineBreak 1 :: f.layout.deepen) ++
    [.lineBreak 0, .lexeme .rightBrace]

/-- A keyword with its condition or the like in brackets, and a body. -/
def controlLayout (k : Keyword) (inner body : Layout) : Layout :=
  [.keyword k, .space] ++ inner.inParens ++ .space :: body

/-- The node is a prefix operator applied to one unnamed argument. -/
def isPrefixCall : Node → Bool
  | .call (.symbol name _) [⟨none, _⟩] _ => (Operator.prefix? name).isSome
  | _ => false

/-- The node is a call. -/
def isCall : Node → Bool
  | .call _ _ _ => true
  | _ => false

/-- The node can stand beside `$`, `@` and `::`: a name or a text. -/
def isMember : Node → Bool
  | .symbol _ _ => true
  | .constant (.text _) _ => true
  | _ => false

/-- The binary operators that are not written between operands: they read as other calls, or want a
name on their right. -/
def notInfix : List String :=
  ["->", "->>", "|>", "$", "@", "::", ":::"]

/-- A prefix operator before its operand. -/
def unaryForm (name : String) (power : Nat) (operand : Part) : Form :=
  let strict := isCall operand.1 && !isPrefixCall operand.1
  let (layout, isOpen) := operand.2.operand power strict
  ⟨.operator name :: layout, power, isOpen⟩

/-- An operator between its operands; `^` and `:` have no spaces around them. -/
def binaryForm (name : String) (binding : Operator.Binding) (left right : Part) : Form :=
  let gap := if name = "^" ∨ name = ":" then [] else [Piece.space]
  let leftLayout := left.2.leftOperand binding.power binding.rightAssociative
  let (rightLayout, isOpen) := right.2.operand binding.power (!binding.rightAssociative)
  ⟨leftLayout ++ gap ++ .operator name :: gap ++ rightLayout, binding.power, isOpen⟩

/-- A member operator between its operands. -/
def memberForm (name : String) (power : Nat) (left right : Layout) : Form :=
  ⟨left ++ .operator name :: right, power, false⟩

/-- The form of a call of an operator, if it has one. -/
def operatorForm? (name : String) : List Part → Option Form
  | [operand] => (Operator.prefix? name).map fun power => unaryForm name power operand
  | [left, right] =>
    if name ∈ Operator.members then
      if isMember right.1 then
        let power := (Operator.binary? name).elim 0 Operator.Binding.power
        some (memberForm name power (left.2.leftOperand power false) right.2.layout)
      else none
    else if name ∈ Operator.qualifiers then
      if isMember left.1 && isMember right.1 then
        let power := (Operator.binary? name).elim 0 Operator.Binding.power
        some (memberForm name power left.2.layout right.2.layout)
      else none
    else if name ∈ notInfix then none
    else (Operator.binary? name).map fun binding => binaryForm name binding left right
  | _ => none

/-- The form of a call of a keyword, if it has one. A body before `else` must not be open: it would
claim the `else`. -/
def keywordForm? : Keyword → List Part → Option Form
  | .ifWord, [condition, body] =>
    some (.openEnded (controlLayout .ifWord condition.2.layout body.2.layout))
  | .ifWord, [condition, body, other] =>
    let body := if body.2.isOpen then body.2.guarded else body.2.layout
    some (.openEnded
      (controlLayout .ifWord condition.2.layout body ++
        [.space, .keyword .elseWord, .space] ++ other.2.layout))
  | .forWord, [(.symbol name _, _), sequence, body] =>
    some (.openEnded
      (controlLayout .forWord
        ([.symbol name, .space, .keyword .inWord, .space] ++ sequence.2.layout) body.2.layout))
  | .whileWord, [condition, body] =>
    some (.openEnded (controlLayout .whileWord condition.2.layout body.2.layout))
  | .repeatWord, [body] => some (.openEnded ([.keyword .repeatWord, .space] ++ body.2.layout))
  | .functionWord, [(.params _ _, items), body] =>
    some (.openEnded
      (.keyword .functionWord :: items.layout.inParens ++ .space :: body.2.layout))
  | .breakWord, [] => some (.atom [.keyword .breakWord])
  | .nextWord, [] => some (.atom [.keyword .nextWord])
  | _, _ => none

/-- The form of a call of a name with syntax of its own, if it has one for these arguments. -/
def specialForm? (name : String) (args : List (Arg Part)) : Option Form :=
  let unnamed := args.all fun a => a.name.isNone
  let parts := args.map Arg.value
  if name = "[" ∨ name = "[[" then
    match args with
    | ⟨none, target⟩ :: rest =>
      let target := target.2.leftOperand Operator.postfixPower false
      let row := argumentRow rest
      some (.atom (target ++
        if name = "[" then .lexeme .leftBracket :: row ++ [.lexeme .rightBracket]
        else .lexeme .leftDouble :: row ++ [.lexeme .rightBracket, .lexeme .rightBracket]))
    | _ => none
  else if !unnamed then none
  else if name = "\x7b" then some (.atom (blockLayout (parts.map Prod.snd)))
  else if name = "(" then
    match parts with
    | [inner] => some (.atom inner.2.layout.inParens)
    | _ => none
  else
    match Keyword.ofWord? name with
    | some k => keywordForm? k parts
    | none => operatorForm? name parts

/-- A call as it is written. Calls are guarded by being written with their head first; only function
definitions, which have no such form, are put in brackets. -/
def callFragment (head : Node) (headPart : Fragment) (args : List (Arg Part)) : Fragment :=
  let plain := prefixForm head headPart args
  match head with
  | .symbol name _ =>
    let form := (specialForm? name args).getD (.atom plain)
    if name = "function" then form.fragment else { form with guarded := plain }
  | _ => (Form.atom plain).fragment

/-- An integer or a double without its sign, after a minus if it is negative. -/
def numberForm (negative : Bool) (l : Lexeme) : Form :=
  if negative then ⟨[.operator "-", .lexeme l], (Operator.prefix? "-").getD 0, false⟩
  else .atom [.lexeme l]

/-- A double as a literal. -/
def doubleForm (x : Float) : Form :=
  if Double.isNaN x then .atom [.lexeme (.constant .notANumber)]
  else
    numberForm (Double.isNegative x && !Double.isZero x)
      (if Double.isInfinite x then .constant .infinity else .double (Double.absolute x))

/-- An atom as a literal. -/
def atomForm : Atom → Form
  | .null => .atom [.lexeme (.constant .null)]
  | .logical true => .atom [.lexeme (.constant .yes)]
  | .logical false => .atom [.lexeme (.constant .no)]
  | .integer n => numberForm (n < 0) (.integer n.natAbs)
  | .double x => doubleForm x
  | .nan _ => .atom [.lexeme (.constant .notANumber)]
  | .text s => .atom [.lexeme (.text s)]

mutual

/-- A tree as it is written. -/
def fragment : Node → Fragment
  | .constant a _ => (atomForm a).fragment
  | .symbol name _ => (Form.atom [.symbol name]).fragment
  | .missing => (Form.atom []).fragment
  | .call head args _ => callFragment head (fragment head) (fragmentArgs args)
  | .params items _ => (Form.atom (parameterRow (fragmentParams items))).fragment

/-- The arguments of a call as they are written. -/
def fragmentArgs : List (Arg Node) → List (Arg Part)
  | [] => []
  | a :: rest => ⟨a.name, (a.value, fragment a.value)⟩ :: fragmentArgs rest

/-- The parameters of a definition as they are written. -/
def fragmentParams : List (Param Node) → List (Param Part)
  | [] => []
  | p :: rest => ⟨p.name, (p.default, fragment p.default)⟩ :: fragmentParams rest

end

/-- The indentation of one level. -/
def standardIndent : String := "    "

end Printer

namespace Node

/-- The layout of a tree. -/
def layout (n : Node) : Layout :=
  (Printer.fragment n).layout

/-- The text of a tree. -/
def render (n : Node) (indent : String := Printer.standardIndent) : String :=
  String.ofList (n.layout.spelling indent.toList)

/-- The text of a program, one tree after the other on lines of their own. -/
def renderProgram (nodes : List Node) : String :=
  "\n".intercalate (nodes.map fun n => n.render)

end Node

end RCode
