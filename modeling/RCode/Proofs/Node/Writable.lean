import RCode.Node.Traversal
import RCode.Proofs.Node.Erasure
import RCode.Proofs.Node.SpecialForm
import RCode.Proofs.Token.Readable

/-!
# Trees that can be written

Not every tree has a text: the missing marker stands only for the default that a parameter does not
have, parameters stand only in function definitions, and an operator between percent signs has to be
readable. `Node.Writable` says so. `Node.Rereads` says how a writable tree comes back from its text:
as itself, except that a number below zero becomes the call of `-` that it is written as, and that
such a number or a function definition may come back in round brackets.
-/

set_option autoImplicit false

namespace RCode

namespace Atom

/-- A number below zero. -/
def isBelowZero : Atom → Bool
  | .integer n => n < 0
  | .double x => !Double.isNaN x && (Double.isNegative x && !Double.isZero x)
  | _ => false

/-- The number without its sign. -/
def absolute : Atom → Atom
  | .integer n => .integer n.natAbs
  | .double x => .double (Double.absolute x)
  | a => a

end Atom

namespace Node

open Printer (unnamed)

/-- A call of `function` with its parameters and its body. -/
inductive IsDefinition : Node → Prop
  | intro (items : List (Param Node)) (body : Node) (p q r : Position) :
      IsDefinition (.call (.symbol "function" p) [unnamed (.params items q), unnamed body] r)

/-- A number below zero. -/
def IsBelowZero : Node → Prop
  | .constant a _ => a.isBelowZero = true
  | _ => False

/-- The name of a call with two operands reads back as an operator, if it is one. -/
def IsOperatorName (head : Node) (args : List (Arg Node)) : Prop :=
  ∀ name p left right, head = .symbol name p → args = [unnamed left, unnamed right] →
    Operator.isSpecial name = true → ∀ c ∈ Operator.inner name, c ≠ '%' ∧ c ≠ '\n'

/-- The tree has a text. -/
inductive Writable : Node → Prop
  | constant (a : Atom) (p : Position) : Writable (.constant a p)
  | symbol (name : String) (p : Position) : Writable (.symbol name p)
  | call {head : Node} {args : List (Arg Node)} (p : Position) :
      Writable head → (∀ a ∈ args, Writable a.value) → IsOperatorName head args →
      Writable (.call head args p)
  | definition {items : List (Param Node)} {body : Node} (p q r : Position) :
      (∀ i ∈ items, i.default.isMissing = false → Writable i.default) → Writable body →
      Writable (.call (.symbol "function" p) [unnamed (.params items q), unnamed body] r)

mutual

/-- How a tree comes back without brackets around it. -/
inductive ComesBack : Node → Node → Prop
  | constant {a b : Atom} {p q : Position} : a.isBelowZero = false → a.same b = true →
      ComesBack (.constant a p) (.constant b q)
  | belowZero {a : Atom} {p q r s : Position} : a.isBelowZero = true →
      ComesBack (.constant a p) (.call (.symbol "-" q) [unnamed (.constant a.absolute r)] s)
  | symbol {name : String} {p q : Position} : ComesBack (.symbol name p) (.symbol name q)
  | missing : ComesBack .missing .missing
  | call {head head' : Node} {args args' : List (Arg Node)} {p q : Position} :
      Rereads head head' → RereadsArgs args args' →
      ComesBack (.call head args p) (.call head' args' q)
  | params {items items' : List (Param Node)} {p q : Position} : RereadsParams items items' →
      ComesBack (.params items p) (.params items' q)

/-- How a tree comes back from its text. -/
inductive Rereads : Node → Node → Prop
  | plain {n m : Node} : ComesBack n m → Rereads n m
  | inParens {n m : Node} {p q : Position} : IsBelowZero n ∨ IsDefinition n → ComesBack n m →
      Rereads n (.call (.symbol "(" p) [unnamed m] q)

/-- How arguments come back: under the same names and in the same order. -/
inductive RereadsArgs : List (Arg Node) → List (Arg Node) → Prop
  | nil : RereadsArgs [] []
  | cons {name : Option String} {n m : Node} {args args' : List (Arg Node)} :
      Rereads n m → RereadsArgs args args' →
      RereadsArgs (⟨name, n⟩ :: args) (⟨name, m⟩ :: args')

/-- How parameters come back: under the same names and in the same order. -/
inductive RereadsParams : List (Param Node) → List (Param Node) → Prop
  | nil : RereadsParams [] []
  | cons {name : String} {n m : Node} {items items' : List (Param Node)} :
      Rereads n m → RereadsParams items items' →
      RereadsParams (⟨name, n⟩ :: items) (⟨name, m⟩ :: items')

end

theorem Writable.isParams_eq {n : Node} (h : n.Writable) : n.isParams = false := by
  cases h with
  | _ => rfl

namespace RereadsArgs

theorem one {n m : Node} (h : Rereads n m) : RereadsArgs [unnamed n] [unnamed m] :=
  .cons h .nil

theorem two {n₁ n₂ m₁ m₂ : Node} (h₁ : Rereads n₁ m₁) (h₂ : Rereads n₂ m₂) :
    RereadsArgs [unnamed n₁, unnamed n₂] [unnamed m₁, unnamed m₂] :=
  .cons h₁ (.one h₂)

theorem three {n₁ n₂ n₃ m₁ m₂ m₃ : Node} (h₁ : Rereads n₁ m₁) (h₂ : Rereads n₂ m₂)
    (h₃ : Rereads n₃ m₃) :
    RereadsArgs [unnamed n₁, unnamed n₂, unnamed n₃] [unnamed m₁, unnamed m₂, unnamed m₃] :=
  .cons h₁ (.two h₂ h₃)

end RereadsArgs

/-! ## What comes back is of the same kind -/

/-- A tree that comes back in brackets is no symbol, no text, no marker and no parameter list. -/
theorem inParens_cases {n : Node} (h : IsBelowZero n ∨ IsDefinition n) :
    n.name? = none ∧ Printer.isMember n = false ∧ n.isMissing = false ∧ n.isParams = false := by
  rcases h with h | h
  · cases n with
    | constant a p =>
      cases a with
      | text s => cases h
      | _ => exact ⟨rfl, rfl, rfl, rfl⟩
    | _ => cases h
  · cases h with
    | intro => exact ⟨rfl, rfl, rfl, rfl⟩

namespace Rereads

variable {n m : Node}

theorem name?_eq (h : Rereads n m) : m.name? = n.name? := by
  cases h with
  | plain h =>
    cases h with
    | _ => rfl
  | inParens hn _ => exact (inParens_cases hn).1.symm

theorem isMissing_eq (h : Rereads n m) : m.isMissing = n.isMissing := by
  cases h with
  | plain h =>
    cases h with
    | _ => rfl
  | inParens hn _ => exact (inParens_cases hn).2.2.1.symm

theorem isParams_eq (h : Rereads n m) : m.isParams = n.isParams := by
  cases h with
  | plain h =>
    cases h with
    | _ => rfl
  | inParens hn _ => exact (inParens_cases hn).2.2.2.symm

theorem isMember_eq (h : Rereads n m) : Printer.isMember m = Printer.isMember n := by
  cases h with
  | plain h =>
    cases h with
    | @constant a b p q _ hsame =>
      cases a with
      | text s =>
        cases b with
        | text t => rfl
        | _ => cases hsame
      | _ =>
        cases b with
        | text t => cases hsame
        | _ => rfl
    | @belowZero a p q r s hneg =>
      cases a with
      | text t => cases hneg
      | _ => rfl
    | _ => rfl
  | inParens hn _ => exact (inParens_cases hn).2.1.symm

end Rereads

/-- A call that is written with an operator of its own strength needs protection under a prefix
operator of the same strength, unless it is a prefix operator itself. -/
def isStrict (n : Node) : Bool :=
  Printer.isCall n && !Printer.isPrefixCall n

theorem ComesBack.isStrict_eq {n m : Node} (h : ComesBack n m) : m.isStrict = n.isStrict := by
  cases h with
  | constant | symbol | missing | params => rfl
  | belowZero =>
    have hminus : (Operator.prefix? "-").isSome = true := by decide
    simp only [isStrict, Printer.isCall, Printer.isPrefixCall, hminus, Bool.not_true,
      Bool.and_false, Bool.false_and]
  | @call head head' args args' p q hhead hargs =>
    have hprefix : Printer.isPrefixCall (.call head' args' q) =
        Printer.isPrefixCall (.call head args p) := by
      have hname := hhead.name?_eq
      cases head with
      | symbol name r =>
        cases head' with
        | symbol name' r' =>
          obtain rfl : name' = name := Option.some.inj hname
          cases hargs with
          | nil => rfl
          | @cons argName _ _ _ _ _ hrest =>
            cases hrest with
            | nil =>
              cases argName with
              | none => rfl
              | some s => rfl
            | cons => cases argName <;> rfl
        | _ => cases hname
      | _ =>
        cases head' with
        | symbol => cases hname
        | _ => rfl
    simp only [isStrict, hprefix, Printer.isCall]

end Node

end RCode
