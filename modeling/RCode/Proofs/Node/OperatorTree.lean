import RCode.Proofs.Node.Grammar

/-!
# Trees of operators

Operands with operators between them can be put together to a tree in many ways, but in only one
that respects how tightly the operators bind (`OperatorTree.eq_of_respects`): operators of one power
associate to one side, so that of two readings of the same row the one with the loosest operator at
its root is the right one.
-/

set_option autoImplicit false

namespace RCode

namespace Operator

/-- The operators that do not make a call of themselves out of any two operands: those that name a
part, those that assign to the right, and the pipe. -/
def irregular : List String :=
  members ++ qualifiers ++ ["->", "->>", "|>"]

end Operator

/-- The lexeme is a symbol, a number or a text. -/
def Lexeme.isOperand : Lexeme → Bool
  | .symbol _ => true
  | .integer _ => true
  | .double _ => true
  | .text _ => true
  | _ => false

/-- A token that is an operand by itself. -/
structure Operand where
  token : Token
  isOperand : token.lexeme.isOperand = true

/-- The tree of an operand. -/
def Operand.toNode (a : Operand) : Node :=
  match a.token.lexeme with
  | .symbol name => .symbol name a.token.position
  | l => .constant l.value a.token.position

/-- An operator between two operands, with the way it binds and its place. -/
structure Connective where
  name : String
  position : Position
  binding : Operator.Binding
  binary?_eq : Operator.binary? name = some binding
  regular : name ∉ Operator.irregular

namespace Connective

/-- The token of an operator. -/
def token (o : Connective) : Token :=
  ⟨.operator o.name, o.position⟩

/-- How tightly an operator binds. -/
def power (o : Connective) : Nat :=
  o.binding.power

/-- Operators of the same power are grouped from the same side. -/
theorem rightAssociative_eq {o o' : Connective} (h : o.power = o'.power) :
    o.binding.rightAssociative = o'.binding.rightAssociative := by
  obtain ⟨-, -, -, ho⟩ := Grammar.binary?_power o.binary?_eq
  obtain ⟨-, -, -, ho'⟩ := Grammar.binary?_power o'.binary?_eq
  have h : o.binding.power = o'.binding.power := h
  rw [h] at ho
  exact Bool.eq_iff_iff.mpr (ho.trans ho'.symm)

end Connective

/-- A tree with operators inside and operands at its leaves. -/
inductive OperatorTree where
  | leaf (a : Operand)
  | node (o : Connective) (left right : OperatorTree)

namespace OperatorTree

/-- The operands from left to right. -/
def operands : OperatorTree → List Operand
  | leaf a => [a]
  | node _ l r => l.operands ++ r.operands

/-- The operators from left to right. -/
def connectives : OperatorTree → List Connective
  | leaf _ => []
  | node o l r => l.connectives ++ o :: r.connectives

/-- The expression tree: each operator is called with its two sides, at the place of the left one. -/
def toNode : OperatorTree → Node
  | leaf a => a.toNode
  | node o l r =>
    .call (.symbol o.name o.position) [⟨none, l.toNode⟩, ⟨none, r.toNode⟩] l.toNode.position

/-- The tree may stand left of an operator: it is a leaf or its operator binds tighter, or as tightly
if the operator on its right associates to the left. -/
def FitsLeft (o : Connective) : OperatorTree → Prop
  | leaf _ => True
  | node o' _ _ => o.power < o'.power ∨ o'.power = o.power ∧ o.binding.rightAssociative = false

/-- The tree may stand right of an operator: it is a leaf or its operator binds tighter, or as tightly
if the operator on its left associates to the right. -/
def FitsRight (o : Connective) : OperatorTree → Prop
  | leaf _ => True
  | node o' _ _ => o.power < o'.power ∨ o'.power = o.power ∧ o.binding.rightAssociative = true

/-- Both sides of every operator may stand there. -/
def Respects : OperatorTree → Prop
  | leaf _ => True
  | node o l r => l.FitsLeft o ∧ r.FitsRight o ∧ l.Respects ∧ r.Respects

/-! ## Powers inside a tree -/

/-- The tree is a leaf, or its operator has at least a power. -/
def AtLeast (power : Nat) : OperatorTree → Prop
  | leaf _ => True
  | node o _ _ => power ≤ o.power

theorem FitsLeft.atLeast {o : Connective} {t : OperatorTree} (h : t.FitsLeft o) :
    t.AtLeast o.power := by
  cases t with
  | leaf a => trivial
  | node o' l r =>
    rcases h with h | ⟨h, -⟩
    · exact Nat.le_of_lt h
    · exact Nat.le_of_eq h.symm

theorem FitsRight.atLeast {o : Connective} {t : OperatorTree} (h : t.FitsRight o) :
    t.AtLeast o.power := by
  cases t with
  | leaf a => trivial
  | node o' l r =>
    rcases h with h | ⟨h, -⟩
    · exact Nat.le_of_lt h
    · exact Nat.le_of_eq h.symm

/-- No operator inside a tree binds less tightly than the one at its root. -/
theorem Respects.power_le {t : OperatorTree} (h : t.Respects) {power : Nat}
    (hroot : t.AtLeast power) : ∀ o ∈ t.connectives, power ≤ o.power := by
  induction t generalizing power with
  | leaf a => exact fun o ho => absurd ho List.not_mem_nil
  | node o l r ihl ihr =>
    obtain ⟨hl, hr, hleft, hright⟩ := h
    intro x hx
    rcases List.mem_append.mp hx with hx | hx
    · exact Nat.le_trans hroot (ihl hleft hl.atLeast x hx)
    · rcases List.mem_cons.mp hx with rfl | hx
      · exact hroot
      · exact Nat.le_trans hroot (ihr hright hr.atLeast x hx)

/-- The operators on the left of an operator bind tighter, or as tightly if it associates to the
left. -/
theorem Respects.power_left {o : Connective} {t : OperatorTree} (h : t.Respects)
    (hfits : t.FitsLeft o) : ∀ x ∈ t.connectives,
      o.power < x.power ∨ o.power = x.power ∧ o.binding.rightAssociative = false := by
  intro x hx
  rcases Nat.lt_or_eq_of_le (h.power_le hfits.atLeast x hx) with hlt | heq
  · exact .inl hlt
  · -- with a tighter root every operator would bind tighter
    cases t with
    | leaf a => cases hx
    | node o' l r =>
      rcases hfits with hroot | ⟨-, hassoc⟩
      · have htighter : (node o' l r).AtLeast (o.power + 1) := hroot
        exact .inl (h.power_le htighter x hx)
      · exact .inr ⟨heq, hassoc⟩

/-- The operators on the right of an operator bind tighter, or as tightly if it associates to the
right. -/
theorem Respects.power_right {o : Connective} {t : OperatorTree} (h : t.Respects)
    (hfits : t.FitsRight o) : ∀ x ∈ t.connectives,
      o.power < x.power ∨ o.power = x.power ∧ o.binding.rightAssociative = true := by
  intro x hx
  rcases Nat.lt_or_eq_of_le (h.power_le hfits.atLeast x hx) with hlt | heq
  · exact .inl hlt
  · cases t with
    | leaf a => cases hx
    | node o' l r =>
      rcases hfits with hroot | ⟨-, hassoc⟩
      · have htighter : (node o' l r).AtLeast (o.power + 1) := hroot
        exact .inl (h.power_le htighter x hx)
      · exact .inr ⟨heq, hassoc⟩

/-! ## One tree for a row -/

theorem length_operands (t : OperatorTree) : t.operands.length = t.connectives.length + 1 := by
  induction t with
  | leaf a => rfl
  | node o l r ihl ihr =>
    simp only [operands, connectives, List.length_append, List.length_cons, ihl, ihr]
    omega

/-- Of two members of a row the one that comes first stands left of the other one. -/
theorem mem_of_append_eq {α : Type} {as bs cs ds : List α} {x y : α}
    (h : as ++ x :: bs = cs ++ y :: ds) (hlt : as.length < cs.length) : x ∈ cs ∧ y ∈ bs := by
  rcases List.append_eq_append_iff.mp h with ⟨mid, rfl, hmid⟩ | ⟨mid, rfl, -⟩
  · cases mid with
    | nil =>
      rw [List.append_nil] at hlt
      exact absurd hlt (Nat.lt_irrefl _)
    | cons z mid =>
      obtain ⟨rfl, rfl⟩ := List.cons.inj hmid
      exact ⟨List.mem_append_right as List.mem_cons_self,
        List.mem_append_right mid List.mem_cons_self⟩
  · rw [List.length_append] at hlt
    omega

/-- An operator cannot be at the root of one reading and left of the root of another one, in which
the other root stands on its right. -/
theorem not_crossed {o o' : Connective} {r l' : OperatorTree} (hr : r.Respects)
    (hright : r.FitsRight o) (hl' : l'.Respects) (hleft : l'.FitsLeft o')
    (hmem : o' ∈ r.connectives) (hmem' : o ∈ l'.connectives) : False := by
  rcases hr.power_right hright o' hmem with h | ⟨heq, hassoc⟩
  · rcases hl'.power_left hleft o hmem' with h' | ⟨h', -⟩ <;> omega
  · rcases hl'.power_left hleft o hmem' with h' | ⟨-, hassoc'⟩
    · omega
    · -- operators of one power do not associate to both sides
      rw [Connective.rightAssociative_eq heq, hassoc'] at hassoc
      cases hassoc

/-- Trees of the same row that respect the powers of its operators are the same tree. -/
theorem eq_of_respects {t t' : OperatorTree} (h : t.Respects) (h' : t'.Respects)
    (hoperands : t.operands = t'.operands) (hconnectives : t.connectives = t'.connectives) :
    t = t' := by
  induction t generalizing t' with
  | leaf a =>
    cases t' with
    | leaf b =>
      cases hoperands
      rfl
    | node o l r => exact absurd hconnectives.symm (List.append_ne_nil_of_right_ne_nil _ nofun)
  | node o l r ihl ihr =>
    cases t' with
    | leaf b => exact absurd hconnectives (List.append_ne_nil_of_right_ne_nil _ nofun)
    | node o' l' r' =>
      obtain ⟨hfl, hfr, hl, hr⟩ := h
      obtain ⟨hfl', hfr', hl', hr'⟩ := h'
      have hrow : l.connectives ++ o :: r.connectives = l'.connectives ++ o' :: r'.connectives :=
        hconnectives
      -- the roots are the same operator of the row, or one of them stands left of the other one
      rcases Nat.lt_trichotomy l.connectives.length l'.connectives.length with hlt | heq | hlt
      · obtain ⟨hmem', hmem⟩ := mem_of_append_eq hrow hlt
        exact (not_crossed hr hfr hl' hfl' hmem hmem').elim
      · obtain ⟨hleft, hrest⟩ := List.append_inj hrow heq
        obtain ⟨rfl, hright⟩ := List.cons.inj hrest
        have hlength : l.operands.length = l'.operands.length := by
          rw [length_operands, length_operands, heq]
        obtain ⟨hleft', hright'⟩ := List.append_inj hoperands hlength
        rw [ihl hl hl' hleft' hleft, ihr hr hr' hright' hright]
      · obtain ⟨hmem', hmem⟩ := mem_of_append_eq hrow.symm hlt
        exact (not_crossed hr' hfr' hl hfl hmem hmem').elim

end OperatorTree

end RCode
