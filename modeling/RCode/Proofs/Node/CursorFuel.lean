import RCode.Proofs.Node.Cursor

/-!
# Fuel of a cursor

The fuel of a run is bookkeeping: with more of it a run that ends gives the same
(`Cursor.outcome_of_le`). So a run has one outcome for all fuel beyond some bound, or none.
-/

set_option autoImplicit false

namespace RCode.Cursor

variable {α β : Type} {text : TokenText} {fuel : Nat}

/-! ## Runs -/

/-- What a run gives: nothing if it does not end, a fault, or a result and the cursor behind it. -/
def outcome (x : Run α) (c : Cursor) : Option (Except Fault (α × Cursor)) :=
  ExceptT.run (StateT.run x c)

theorem outcome_bind (x : Run α) (f : α → Run β) (c : Cursor) :
    outcome (x >>= f) c =
      match outcome x c with
      | none => none
      | some (.error e) => some (.error e)
      | some (.ok (a, c')) => outcome (f a) c' := by
  unfold outcome
  rw [StateT.run_bind, ExceptT.run_bind]
  cases ExceptT.run (StateT.run x c) with
  | none => rfl
  | some r =>
    cases r with
    | error e => rfl
    | ok p => rfl

theorem outcome_bind_of_ok {x : Run α} {f : α → Run β} {c c' : Cursor} {a : α}
    (h : outcome x c = some (.ok (a, c'))) : outcome (x >>= f) c = outcome (f a) c' := by
  rw [outcome_bind, h]


/-! ## More fuel -/

/-- Wherever the first run ends, the second one gives the same. -/
def Extends (x y : Run α) : Prop :=
  ∀ c o, outcome x c = some o → outcome y c = some o

theorem Extends.refl (x : Run α) : Extends x x :=
  fun _ _ h => h

theorem Extends.trans {x y z : Run α} (h : Extends x y) (h' : Extends y z) : Extends x z :=
  fun c o ho => h' c o (h c o ho)

theorem extends_exhausted (x : Run α) : Extends exhausted x := by
  rintro c o ⟨⟩

theorem Extends.bind {x y : Run α} {f g : α → Run β} (h : Extends x y)
    (hnext : ∀ a, Extends (f a) (g a)) : Extends (x >>= f) (y >>= g) := by
  intro c o ho
  rw [outcome_bind] at ho ⊢
  cases hx : outcome x c with
  | none =>
    rw [hx] at ho
    cases ho
  | some r =>
    rw [hx] at ho
    rw [h c r hx]
    cases r with
    | error e => exact ho
    | ok p => exact hnext p.1 p.2 o ho

/-- The steps before are the same. -/
theorem Extends.after (x : Run α) {f g : α → Run β} (hnext : ∀ a, Extends (f a) (g a)) :
    Extends (x >>= f) (x >>= g) :=
  (Extends.refl x).bind hnext

/-- The steps behind are the same. -/
theorem Extends.before {x y : Run α} (f : α → Run β) (h : Extends x y) :
    Extends (x >>= f) (y >>= f) :=
  h.bind fun a => .refl (f a)

theorem Extends.ite {x y x' y' : Run α} {q : Prop} [Decidable q] (h : Extends x y)
    (h' : Extends x' y') : Extends (if q then x else x') (if q then y else y') := by
  split
  · exact h
  · exact h'

/-- One more of the fuel does not change how a run ends. -/
structure Grows (text : TokenText) (fuel : Nat) : Prop where
  expression (power : Int) :
    Extends (expression text fuel power) (expression text (fuel + 1) power)
  operators (power : Int) (left : Node) :
    Extends (operators text fuel power left) (operators text (fuel + 1) power left)
  operand (token : Option Token) :
    Extends (operand text fuel token) (operand text (fuel + 1) token)
  block (t : Token) : Extends (block text fuel t) (block text (fuel + 1) t)
  statements (opening : Position) :
    Extends (statements text fuel opening) (statements text (fuel + 1) opening)
  condition : Extends (condition text fuel) (condition text (fuel + 1))
  conditional (t : Token) : Extends (conditional text fuel t) (conditional text (fuel + 1) t)
  whileLoop (t : Token) : Extends (whileLoop text fuel t) (whileLoop text (fuel + 1) t)
  forLoop (t : Token) : Extends (forLoop text fuel t) (forLoop text (fuel + 1) t)
  definition (t : Token) : Extends (definition text fuel t) (definition text (fuel + 1) t)
  parameters : Extends (parameters text fuel) (parameters text (fuel + 1))
  parameterList (seen : List String) :
    Extends (parameterList text fuel seen) (parameterList text (fuel + 1) seen)
  parameterDefault : Extends (parameterDefault text fuel) (parameterDefault text (fuel + 1))
  operatorForm (token : Option Token) (left : Node) :
    Extends (operatorForm text fuel token left) (operatorForm text (fuel + 1) token left)
  infixForm (name : String) (p : Position) (left : Node) :
    Extends (infixForm text fuel name p left) (infixForm text (fuel + 1) name p left)
  arguments (closing : Parser.Closing) :
    Extends (arguments text fuel closing) (arguments text (fuel + 1) closing)
  argumentList (closing : Parser.Closing) :
    Extends (argumentList text fuel closing) (argumentList text (fuel + 1) closing)
  argument (closing : Parser.Closing) :
    Extends (argument text fuel closing) (argument text (fuel + 1) closing)

theorem operand_grows (ih : Grows text fuel) (token : Option Token) :
    Extends (operand text (fuel + 1) token) (operand text (fuel + 2) token) := by
  cases token with
  | none =>
    rw [operand, operand]
    exact .refl _
  | some t =>
    obtain ⟨l, p⟩ := t
    cases l with
    | operator name =>
      rw [operand, operand]
      dsimp only
      cases Operator.prefix? name with
      | none => exact .refl _
      | some power => exact .after _ fun _ => .before _ (ih.expression power)
    | leftParen =>
      rw [operand, operand]
      exact .after _ fun _ => .before _ (ih.expression 0)
    | leftBrace =>
      rw [operand, operand]
      exact ih.block _
    | keyword k =>
      cases k with
      | ifWord =>
        rw [operand, operand]
        exact ih.conditional _
      | whileWord =>
        rw [operand, operand]
        exact ih.whileLoop _
      | forWord =>
        rw [operand, operand]
        exact ih.forLoop _
      | functionWord =>
        rw [operand, operand]
        exact ih.definition _
      | repeatWord =>
        rw [operand, operand]
        exact .after _ fun _ => .before _ (ih.expression 0)
      | breakWord | nextWord | elseWord | inWord =>
        rw [operand, operand]
        exact .refl _
    | _ =>
      rw [operand, operand]
      exact .refl _

theorem operatorForm_grows (ih : Grows text fuel) (token : Option Token) (left : Node) :
    Extends (operatorForm text (fuel + 1) token left)
      (operatorForm text (fuel + 2) token left) := by
  cases token with
  | none =>
    rw [operatorForm, operatorForm]
    exact .refl _
  | some t =>
    obtain ⟨l, p⟩ := t
    cases l with
    | leftParen | leftBracket | leftDouble =>
      rw [operatorForm, operatorForm]
      exact .before _ (ih.arguments _)
    | _ =>
      rw [operatorForm, operatorForm]
      dsimp only
      split
      · exact ih.infixForm _ _ _
      · exact .refl _

theorem infixForm_grows (ih : Grows text fuel) (name : String) (p : Position) (left : Node) :
    Extends (infixForm text (fuel + 1) name p left) (infixForm text (fuel + 2) name p left) := by
  rw [infixForm, infixForm]
  refine .after _ fun head => .ite (.refl _) (.ite (.refl _) ?_)
  cases Operator.binary? name with
  | none => exact .refl _
  | some b => exact .after _ fun _ => .before _ (ih.expression _)

theorem argument_grows (ih : Grows text fuel) (closing : Parser.Closing) :
    Extends (argument text (fuel + 1) closing) (argument text (fuel + 2) closing) := by
  rw [argument, argument]
  refine .after _ fun token => .ite (.refl _) (.after _ fun name => ?_)
  cases name with
  | none => exact .before _ (ih.expression 0)
  | some name =>
    refine .after _ fun _ => .after _ fun _ => .after _ fun following => .ite (.refl _) ?_
    exact .before _ (ih.expression _)

theorem grows_step (ih : Grows text fuel) : Grows text (fuel + 1) where
  expression power := by
    rw [expression, expression]
    exact .after _ fun token => (ih.operand token).bind fun left => ih.operators power left
  operators power left := by
    rw [operators, operators]
    refine .after _ fun token => .ite (.refl _) (.after _ fun _ => ?_)
    exact (ih.operatorForm token left).bind fun left' => ih.operators power left'
  operand := operand_grows ih
  block t := by
    rw [block, block]
    exact .after _ fun _ => .before _ (ih.statements _)
  statements opening := by
    rw [statements, statements]
    refine .after _ fun _ => .after _ fun current => .ite (.refl _) (.ite (.refl _) ?_)
    refine (ih.expression 0).bind fun statement => .after _ fun current => .ite ?_ (.refl _)
    exact .before _ (ih.statements opening)
  condition := by
    rw [condition, condition]
    exact .after _ fun _ => .after _ fun _ => .before _ (ih.expression 0)
  conditional t := by
    rw [conditional, conditional]
    refine ih.condition.bind fun test => .after _ fun _ => (ih.expression 0).bind fun body => ?_
    refine .after _ fun found => .ite ?_ (.refl _)
    exact .after _ fun _ => .after _ fun _ => .before _ (ih.expression 0)
  whileLoop t := by
    rw [whileLoop, whileLoop]
    exact ih.condition.bind fun test => .after _ fun _ => .before _ (ih.expression 0)
  forLoop t := by
    rw [forLoop, forLoop]
    refine .after _ fun _ => .after _ fun _ => .after _ fun _ => .after _ fun _ => ?_
    refine (ih.expression 0).bind fun sequence => ?_
    exact .after _ fun _ => .after _ fun _ => .after _ fun _ => .before _ (ih.expression 0)
  definition t := by
    rw [definition, definition]
    refine .after _ fun opening => .after _ fun _ => ih.parameters.bind fun items => ?_
    exact .after _ fun _ => .after _ fun _ => .before _ (ih.expression 0)
  parameters := by
    rw [parameters, parameters]
    exact .after _ fun token => .ite (.refl _) (ih.parameterList [])
  parameterList seen := by
    rw [parameterList, parameterList]
    refine .after _ fun name => .ite (.refl _) (ih.parameterDefault.bind fun default => ?_)
    refine .after _ fun item => .after _ fun separator => .ite (.refl _) (.ite ?_ (.refl _))
    exact .before _ (ih.parameterList _)
  parameterDefault := by
    rw [parameterDefault, parameterDefault]
    exact .after _ fun token => .ite (.after _ fun _ => ih.expression _) (.refl _)
  operatorForm := operatorForm_grows ih
  infixForm := infixForm_grows ih
  arguments closing := by
    rw [arguments, arguments]
    refine .after _ fun _ => .after _ fun token => .ite (.refl _) ?_
    exact .before _ (ih.argumentList closing)
  argumentList closing := by
    rw [argumentList, argumentList]
    refine (ih.argument closing).bind fun arg => .after _ fun separator => .ite (.refl _) ?_
    exact .ite (.before _ (ih.argumentList closing)) (.refl _)
  argument := argument_grows ih

theorem grows (text : TokenText) (fuel : Nat) : Grows text fuel := by
  induction fuel with
  | zero =>
    exact {
      expression := fun _ => extends_exhausted _
      operators := fun _ _ => extends_exhausted _
      operand := fun _ => extends_exhausted _
      block := fun _ => extends_exhausted _
      statements := fun _ => extends_exhausted _
      condition := extends_exhausted _
      conditional := fun _ => extends_exhausted _
      whileLoop := fun _ => extends_exhausted _
      forLoop := fun _ => extends_exhausted _
      definition := fun _ => extends_exhausted _
      parameters := extends_exhausted _
      parameterList := fun _ => extends_exhausted _
      parameterDefault := extends_exhausted _
      operatorForm := fun _ _ => extends_exhausted _
      infixForm := fun _ _ _ => extends_exhausted _
      arguments := fun _ => extends_exhausted _
      argumentList := fun _ => extends_exhausted _
      argument := fun _ => extends_exhausted _
    }
  | succ fuel ih => exact grows_step ih

theorem program_grows (text : TokenText) (fuel : Nat) :
    Extends (program text fuel) (program text (fuel + 1)) := by
  induction fuel with
  | zero => exact extends_exhausted _
  | succ fuel ih =>
    rw [program, program]
    refine .after _ fun _ => .after _ fun token => .ite (.refl _) ?_
    refine ((grows text fuel).expression 0).bind fun n => .after _ fun token => ?_
    exact .ite (.before _ ih) (.refl _)

/-- A run that ends with some fuel ends in the same way with more. -/
theorem outcome_of_le {run : Nat → Run α} (hgrows : ∀ fuel, Extends (run fuel) (run (fuel + 1)))
    {more : Nat} (hle : fuel ≤ more) : Extends (run fuel) (run more) := by
  induction hle with
  | refl => exact .refl _
  | step _ ih => exact ih.trans (hgrows _)

end RCode.Cursor
