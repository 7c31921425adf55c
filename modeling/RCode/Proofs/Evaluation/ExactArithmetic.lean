import Mathlib.Data.Rat.Floor
import RCode.Proofs.Evaluation.NestedBlocks
import RCode.Proofs.Node.Traversal

/-!
# Integer arithmetic

Trees that apply the operators of integer arithmetic to integers have exact values (`Exact`),
whatever the size of the integers: quotients are those of rational numbers, rounded toward minus
infinity, and remainders go with them. Evaluation gives this value (`Node.evaluate_exact`) where no
division is by zero; each operator does so by itself (`IntegerOperator.apply_function`).
-/

set_option autoImplicit false

namespace RCode

/-- An operator of integer arithmetic between two operands. -/
inductive IntegerOperator where
  | add
  | subtract
  | multiply
  | floorDivide
  | modulo
deriving DecidableEq

namespace IntegerOperator

def name : IntegerOperator → String
  | .add => "+"
  | .subtract => "-"
  | .multiply => "*"
  | .floorDivide => "%/%"
  | .modulo => "%%"

/-- The function of the base environment under the name of the operator. -/
def function : IntegerOperator → Builtin
  | .add => .add
  | .subtract => .subtract
  | .multiply => .multiply
  | .floorDivide => .floorDivide
  | .modulo => .modulo

/-- The operator divides by its right operand. -/
def divides : IntegerOperator → Bool
  | .floorDivide | .modulo => true
  | _ => false

/-- The exact result. -/
def result : IntegerOperator → Int → Int → Int
  | .add, a, b => a + b
  | .subtract, a, b => a - b
  | .multiply, a, b => a * b
  | .floorDivide, a, b => ⌊(a : ℚ) / b⌋
  | .modulo, a, b => a - b * ⌊(a : ℚ) / b⌋

/-- The call of the operator with two operands. -/
def call (o : IntegerOperator) (left right : Node) (q p : Position := .nowhere) : Node :=
  .call (.symbol o.name q) [⟨none, left⟩, ⟨none, right⟩] p

/-! ## Rounded quotients -/

theorem floor_of_nonneg (a : Int) {b : Int} (h : 0 ≤ b) : ⌊(a : ℚ) / b⌋ = a.fdiv b := by
  obtain ⟨n, rfl⟩ := Int.eq_ofNat_of_zero_le h
  rw [Int.cast_natCast, Rat.floor_intCast_div_natCast, Int.fdiv_eq_ediv_of_nonneg a h]

/-- The rounded quotient of two integers is that of the rational numbers. -/
theorem floor_eq_fdiv (a b : Int) : ⌊(a : ℚ) / b⌋ = a.fdiv b := by
  rcases le_total 0 b with h | h
  · exact floor_of_nonneg a h
  · have hneg := floor_of_nonneg (-a) (neg_nonneg.mpr h)
    rwa [Int.cast_neg, Int.cast_neg, neg_div_neg_eq, Int.neg_fdiv_neg] at hneg

theorem result_modulo (a b : Int) : modulo.result a b = a.fmod b := by
  have := Int.mul_fdiv_add_fmod a b
  rw [result, floor_eq_fdiv]
  omega

/-- The function of an operator gives the exact result. -/
theorem apply_function (o : IntegerOperator) {a b : Int} (h : o.divides = true → b ≠ 0)
    (w : Workspace) :
    o.function.apply w [.integer a, .integer b] [] = .ok (.integer (o.result a b)) := by
  have hzero : o.divides = true → (Value.integer b).isZero = false := fun ho => by
    simpa [Value.isZero, Value.integer, Value.number?, Number.isZero] using h ho
  cases o with
  | add | subtract | multiply => rfl
  | floorDivide =>
    have hdivide : Value.floorDivide w (.integer a) (.integer b) = .ok (.integer (a.fdiv b)) := by
      rw [Value.floorDivide, hzero rfl]
      rfl
    rw [result, floor_eq_fdiv]
    exact congrArg Application.lift hdivide
  | modulo =>
    have hmodulo : Value.modulo w (.integer a) (.integer b) = .ok (.integer (a.fmod b)) := by
      unfold Value.modulo
      rw [hzero rfl]
      rfl
    rw [result_modulo]
    exact congrArg Application.lift hmodulo

/-- A rounded quotient and its remainder make up the dividend. The remainder is on the side of the
divisor. -/
theorem quotient_and_rest (a : Int) {b : Int} (hb : b ≠ 0) :
    add.result (multiply.result b (floorDivide.result a b)) (modulo.result a b) = a ∧
      (modulo.result a b = 0 ∨ (modulo.result a b).sign = b.sign) ∧
      (modulo.result a b).natAbs < b.natAbs := by
  refine ⟨by simp only [result]; ring, ?_⟩
  rw [result_modulo]
  rcases lt_or_gt_of_ne hb with hneg | hpos
  · -- the rest of the division of the opposites has the opposite sign
    have hopposite : a.fmod b = -(-a).fmod (-b) := by rw [Int.neg_fmod_neg, neg_neg]
    have hle := Int.fmod_nonneg_of_pos (-a) (Int.neg_pos_of_neg hneg)
    have hlt := Int.fmod_lt_of_pos (-a) (Int.neg_pos_of_neg hneg)
    refine ⟨?_, by omega⟩
    rcases hle.eq_or_lt with hzero | hrest
    · exact .inl (by omega)
    · exact .inr (by rw [Int.sign_eq_neg_one_of_neg hneg, Int.sign_eq_neg_one_of_neg (by omega)])
  · have hle := Int.fmod_nonneg_of_pos a hpos
    have hlt := Int.fmod_lt_of_pos a hpos
    refine ⟨?_, by omega⟩
    rcases hle.eq_or_lt with hzero | hrest
    · exact .inl hzero.symm
    · exact .inr (by rw [Int.sign_eq_one_of_pos hpos, Int.sign_eq_one_of_pos hrest])

/-- The base environment has the operators under their names. -/
theorem lookup?_base (o : IntegerOperator) :
    Context.base.lookup? o.name = some (.function (.builtin o.function)) := by
  cases o with
  | _ => rfl

/-- Calls of the operators are applications of functions. -/
theorem ofName?_name (o : IntegerOperator) : Form.ofName? o.name = none := by
  cases o with
  | _ => rfl

end IntegerOperator

/-- The tree is one of integer arithmetic, with its exact value in a context: integers, symbols
bound to integers, and calls of round brackets, of signs and of operators. -/
inductive Exact (c : Context) : Node → Int → Prop where
  | constant (z : Int) (p : Position) : Exact c (.constant (.integer z) p) z
  | symbol {name : String} {z : Int} (p : Position) :
      c.lookup? name = some (.integer z) → Exact c (.symbol name p) z
  | group {n : Node} {z : Int} (name : Option String) (q p : Position) :
      Exact c n z → Exact c (.call (.symbol "(" q) [⟨name, n⟩] p) z
  | plus {n : Node} {z : Int} (q p : Position) :
      Exact c n z → Exact c (.call (.symbol "+" q) [⟨none, n⟩] p) z
  | minus {n : Node} {z : Int} (q p : Position) :
      Exact c n z → Exact c (.call (.symbol "-" q) [⟨none, n⟩] p) (-z)
  | binary (o : IntegerOperator) {left right : Node} {a b : Int} (q p : Position) :
      Exact c left a → Exact c right b → Exact c (o.call left right q p) (o.result a b)

/-- No division in the tree has a right operand that evaluates to zero, whatever the host. -/
def Node.DividesByNoZero (c : Context) (n : Node) : Prop :=
  ∀ (o : IntegerOperator) (left right : Node) (q p : Position), o.divides = true →
    o.call left right q p ∈ n.preorder → ∃ h, right.evaluate h c ≠ .ok (.integer 0)

namespace Node

open Evaluation

variable {c : Context} {n left right : Node} {z a b : Int} {h : Host}

/-- The parts of a call divide by no zero if the call does not. -/
theorem DividesByNoZero.arg {head : Node} {args : List (Arg Node)} {p : Position} {x : Arg Node}
    (h : DividesByNoZero c (.call head args p)) (hx : x ∈ args) : x.value.DividesByNoZero c := by
  intro o left right q r ho hmem
  refine h o left right q r ho ?_
  rw [preorder_call]
  exact List.mem_cons_of_mem _
    (List.mem_append_right _ (mem_preorderArgs.mpr ⟨x, hx, hmem⟩))

theorem applyFunction_unnamed (h : Host) (name : String) (f : Builtin) (values : List Value) :
    applyFunction h name (.builtin f) (values.map fun v => ⟨none, v⟩) =
      (f.apply h.workspace values []).mapError (EvalError.ofFunction name (h.words f values [])) := by
  have hpositional : positional (values.map fun v => (⟨none, v⟩ : Arg Value)) = values := by
    rw [positional, List.filterMap_map]
    exact List.filterMap_some
  have hnamed : named (values.map fun v => (⟨none, v⟩ : Arg Value)) = [] := by
    have hnone : ((values.map fun v => (⟨none, v⟩ : Arg Value)).filterMap fun a =>
        a.name.map fun name => (⟨name, a.value⟩ : Entry Value)) = [] := by
      rw [List.filterMap_map]
      exact List.filterMap_none values
    rw [named, hnone]
    rfl
  rw [applyFunction, hpositional, hnamed]

/-- A call of a name that is bound to a function applies it to the values of its arguments. -/
theorem evaluate_function {name : String} {f : Builtin} {operands : List Node}
    {values : List Value} {v : Value} (hform : Form.ofName? name = none)
    (hname : c.lookup? name = some (.function (.builtin f)))
    (hvalues : List.Forall₂ (fun x v => Node.evaluate x.2 x.1 c = .ok v)
      (Host.row h.arguments operands) values)
    (happly : f.apply h.workspace values [] = .ok v) (q p : Position) :
    (Node.call (.symbol name q) (operands.map fun n => ⟨none, n⟩) p).evaluate h c = .ok v := by
  have hhead : (Node.symbol name q).evaluate (h.under 0) c = .ok (.function (.builtin f)) := by
    simp only [evaluate, eval, scope, Option.elim_none, hname, Except.map]
  have hargs : (Host.row h.arguments (operands.map fun n => (⟨none, n⟩ : Arg Node))).mapM
      (argValue fun h n => n.evaluate h c) = .ok (values.map fun v => ⟨none, v⟩) := by
    rw [Host.row_map, mapM_eq_ok_iff, List.forall₂_map_left_iff, List.forall₂_map_right_iff]
    refine hvalues.imp fun x v hx => ?_
    rw [argValue, hx]
    rfl
  have happlied := @evaluate_application h c (.symbol name q)
    (operands.map fun n => ⟨none, n⟩) p hform
  rw [happlied, hhead]
  simp only [ok_bind, hargs, name?, Option.getD_some, applyFunction_unnamed, happly,
    Except.mapError]

/-- An operator applied to trees that evaluate to integers evaluates to its exact result. -/
theorem evaluate_operator {o : IntegerOperator}
    (hname : c.lookup? o.name = some (.function (.builtin o.function)))
    (hleft : left.evaluate (h.arguments 0) c = .ok (.integer a))
    (hright : right.evaluate (h.arguments 1) c = .ok (.integer b))
    (hb : o.divides = true → b ≠ 0) (q p : Position) :
    (o.call left right q p).evaluate h c = .ok (.integer (o.result a b)) := by
  have hvalues : List.Forall₂ (fun x v => Node.evaluate x.2 x.1 c = .ok v)
      (Host.row h.arguments [left, right]) [.integer a, .integer b] :=
    .cons hleft (.cons hright .nil)
  exact evaluate_function o.ofName?_name hname hvalues (o.apply_function hb h.workspace) q p

/-- A sign before a tree that evaluates to an integer. -/
theorem evaluate_sign {o : IntegerOperator}
    (hname : c.lookup? o.name = some (.function (.builtin o.function)))
    (hn : n.evaluate (h.arguments 0) c = .ok (.integer a))
    (happly : o.function.apply h.workspace [.integer a] [] = .ok (.integer b)) (q p : Position) :
    (Node.call (.symbol o.name q) [⟨none, n⟩] p).evaluate h c = .ok (.integer b) := by
  have hvalues : List.Forall₂ (fun x v => Node.evaluate x.2 x.1 c = .ok v)
      (Host.row h.arguments [n]) [.integer a] := .cons hn .nil
  exact evaluate_function o.ofName?_name hname hvalues happly q p

/-- A tree evaluates to its exact value where no division is by zero. -/
theorem evaluate_of_exact
    (hbase : ∀ o : IntegerOperator, c.lookup? o.name = some (.function (.builtin o.function)))
    (hexact : Exact c n z) (hdivides : n.DividesByNoZero c) :
    ∀ h, n.evaluate h c = .ok (.integer z) := by
  -- the operands divide by no zero either, and evaluate to their exact values
  induction hexact with
  | constant z p => exact fun h => rfl
  | symbol p hname =>
    intro h
    simp only [evaluate, eval, scope, Option.elim_none, hname, Except.map]
  | group name q p _ ih =>
    intro h
    rw [evaluate, eval_call]
    exact ih (hdivides.arg List.mem_cons_self) (h.arguments 0)
  | plus q p _ ih =>
    intro h
    have hn := ih (hdivides.arg List.mem_cons_self) (h.arguments 0)
    exact evaluate_sign (hbase .add) hn rfl q p
  | minus q p _ ih =>
    intro h
    have hn := ih (hdivides.arg List.mem_cons_self) (h.arguments 0)
    exact evaluate_sign (hbase .subtract) hn rfl q p
  | @binary o left right a b q p _ _ ihleft ihright =>
    intro h
    have hleft := ihleft (hdivides.arg List.mem_cons_self)
    have hright := ihright (hdivides.arg (List.mem_cons_of_mem _ List.mem_cons_self))
    refine evaluate_operator (hbase o) (hleft _) (hright _) ?_ q p
    rintro ho rfl
    obtain ⟨h', hzero⟩ := hdivides o left right q p ho (self_mem_preorder _)
    exact hzero (hright h')

/-- In a context where the operators of integer arithmetic are those of the base environment, a tree
of integer arithmetic without division by zero evaluates to its exact value. For any two trees that
evaluate to integers `a` and `b` wherever they stand, where `b` is not zero, `b * (a %/% b) + a %% b`
evaluates to `a`, and `a %% b` to an integer that is zero or has the sign of `b`, and is smaller than
`b` without its sign. -/
theorem evaluate_exact {c : Context}
    (hbase : ∀ o : IntegerOperator, c.lookup? o.name = Context.base.lookup? o.name) :
    (∀ (n : Node) (z : Int), Exact c n z → n.DividesByNoZero c →
      ∀ h, n.evaluate h c = .ok (.integer z)) ∧
    ∀ (h : Host) (left right : Node) (a b : Int),
      (∀ place, left.evaluate (h.within place) c = .ok (.integer a)) →
      (∀ place, right.evaluate (h.within place) c = .ok (.integer b)) → b ≠ 0 →
        (IntegerOperator.add.call
            (IntegerOperator.multiply.call right (IntegerOperator.floorDivide.call left right))
            (IntegerOperator.modulo.call left right)).evaluate h c = .ok (.integer a) ∧
          ∃ r, (IntegerOperator.modulo.call left right).evaluate h c = .ok (.integer r) ∧
            (r = 0 ∨ r.sign = b.sign) ∧ r.natAbs < b.natAbs := by
  have hfunction : ∀ o : IntegerOperator,
      c.lookup? o.name = some (.function (.builtin o.function)) :=
    fun o => (hbase o).trans o.lookup?_base
  refine ⟨fun n z => evaluate_of_exact hfunction, fun h left right a b hleft hright hb => ?_⟩
  obtain ⟨hsum, hsign, hsize⟩ := IntegerOperator.quotient_and_rest a hb
  -- each operand has the value at its own place
  have hquotient := evaluate_operator (h := (h.arguments 0).arguments 1) (hfunction .floorDivide)
    (hleft [1, 2, 1]) (hright [1, 2, 2]) (fun _ => hb) .nowhere .nowhere
  have hrest := evaluate_operator (h := h.arguments 1) (hfunction .modulo)
    (hleft [2, 1]) (hright [2, 2]) (fun _ => hb) .nowhere .nowhere
  have hproduct := evaluate_operator (h := h.arguments 0) (hfunction .multiply)
    (hright [1, 1]) hquotient nofun .nowhere .nowhere
  have hall := evaluate_operator (hfunction .add) hproduct hrest nofun .nowhere .nowhere
  have halone := evaluate_operator (h := h) (hfunction .modulo)
    (hleft [1]) (hright [2]) (fun _ => hb) .nowhere .nowhere
  exact ⟨hall.trans (by rw [hsum]), _, halone, hsign, hsize⟩

/-- In `-(x %/% 2) * (x %% 2)` for an odd `x` below zero that no double can tell from its
neighbours, the quotient is rounded down and the remainder is 1. -/
theorem evaluate_exact_negative :
    let x : Node := .symbol "x" .nowhere
    let two : Node := .constant (.integer 2) .nowhere
    let quotient := IntegerOperator.floorDivide.call x two
    let n := IntegerOperator.multiply.call
      (.call (.symbol "-" .nowhere) [⟨none, quotient⟩] .nowhere) (IntegerOperator.modulo.call x two)
    let c := Context.base [⟨"x", .integer (-10 ^ 30 - 1)⟩]
    (∀ o : IntegerOperator, c.lookup? o.name = Context.base.lookup? o.name) ∧
      (∃ z, Exact c n z ∧ z = 5 * 10 ^ 29 + 1) ∧ n.DividesByNoZero c ∧
      ∀ h, n.evaluate h c = .ok (.integer (5 * 10 ^ 29 + 1)) := by
  intro x two quotient n c
  have hbase : ∀ o : IntegerOperator, c.lookup? o.name = Context.base.lookup? o.name := by
    intro o
    cases o with
    | _ => rfl
  have hx : Exact c x (-10 ^ 30 - 1) := .symbol _ rfl
  have htwo : Exact c two 2 := .constant 2 _
  have hexact : Exact c n _ :=
    .binary .multiply _ _ (.minus _ _ (.binary .floorDivide _ _ hx htwo))
      (.binary .modulo _ _ hx htwo)
  have hvalue : IntegerOperator.multiply.result
      (-IntegerOperator.floorDivide.result (-10 ^ 30 - 1) 2)
      (IntegerOperator.modulo.result (-10 ^ 30 - 1) 2) = 5 * 10 ^ 29 + 1 := by
    simp only [IntegerOperator.result, IntegerOperator.floor_eq_fdiv]
    decide
  have hdivides : n.DividesByNoZero c := by
    intro o left right q p ho hmem
    -- the names of the two divisions leave them as the only places of such a call in the tree
    have htwice : right = two := by
      simp [n, x, two, quotient, IntegerOperator.call, preorder, preorderArgs] at hmem
      rcases hmem with ⟨⟨hname, -⟩, -⟩ | ⟨-, ⟨-, hright⟩, -⟩ | ⟨-, ⟨-, hright⟩, -⟩
      · cases o with
        | add | subtract | multiply => cases ho
        | floorDivide | modulo => exact absurd hname (by decide)
      · exact hright
      · exact hright
    refine ⟨.plain 0, fun hzero => ?_⟩
    rw [htwice] at hzero
    cases hzero
  obtain ⟨hvalues, -⟩ := evaluate_exact hbase
  refine ⟨hbase, ⟨_, hexact, hvalue⟩, hdivides, ?_⟩
  rw [← hvalue]
  exact hvalues n _ hexact hdivides

end Node

end RCode
