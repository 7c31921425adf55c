import RCode.Proofs.Node.Derivation
import RCode.Proofs.Token.Joining

/-!
# Trees at other positions

`Node.move` takes every node of a tree to another position. What the parser makes of tokens and trees
it makes of them at other positions, too; only the missing marker stays where it is, so that a call
keeps its place on its left operand if the operand is there (`combine_move`).
-/

set_option autoImplicit false

namespace RCode

namespace Node

mutual

/-- The tree with its nodes at other positions. The missing marker has none. -/
def move (f : Position → Position) : Node → Node
  | .constant a p => .constant a (f p)
  | .symbol name p => .symbol name (f p)
  | .missing => .missing
  | .call head args p => .call (move f head) (moveArgs f args) (f p)
  | .params items p => .params (moveParams f items) (f p)

/-- The arguments with their nodes at other positions. -/
def moveArgs (f : Position → Position) : List (Arg Node) → List (Arg Node)
  | [] => []
  | a :: rest => ⟨a.name, move f a.value⟩ :: moveArgs f rest

/-- The parameters with their nodes at other positions. -/
def moveParams (f : Position → Position) : List (Param Node) → List (Param Node)
  | [] => []
  | p :: rest => ⟨p.name, move f p.default⟩ :: moveParams f rest

end

mutual

theorem move_id (n : Node) : n.move id = n := by
  cases n with
  | constant a p => rfl
  | symbol name p => rfl
  | missing => rfl
  | call head args p => simp only [move, move_id head, moveArgs_id args, id_eq]
  | params items p => simp only [move, moveParams_id items, id_eq]

theorem moveArgs_id (args : List (Arg Node)) : moveArgs id args = args := by
  cases args with
  | nil => rfl
  | cons a rest => simp only [moveArgs, move_id a.value, moveArgs_id rest]

theorem moveParams_id (items : List (Param Node)) : moveParams id items = items := by
  cases items with
  | nil => rfl
  | cons p rest => simp only [moveParams, move_id p.default, moveParams_id rest]

end

theorem map_move_id (ns : List Node) : ns.map (move id) = ns := by
  rw [funext move_id, List.map_id']

/-- A node that is there has its position moved. -/
theorem position_move {n : Node} (h : n.isMissing = false) (f : Position → Position) :
    (n.move f).position = f n.position := by
  cases n with
  | missing => cases h
  | _ => rfl

theorem isCallTo_move (f : Position → Position) (n : Node) (names : List String) :
    (n.move f).isCallTo names = n.isCallTo names := by
  cases n with
  | call head args p =>
    cases head with
    | _ => rfl
  | _ => rfl

theorem moveArgs_unnamed (f : Position → Position) (ns : List Node) :
    moveArgs f (ns.map fun n => ⟨none, n⟩) = (ns.map (move f)).map fun n => ⟨none, n⟩ := by
  induction ns with
  | nil => rfl
  | cons n ns ih => simp only [List.map_cons, moveArgs, ih]

end Node

namespace Parser

variable (f : Position → Position)

theorem isNamespace_move (n : Node) : isNamespace (n.move f) = isNamespace n := by
  cases n with
  | constant a p =>
    cases a with
    | _ => rfl
  | _ => rfl

theorem takesMember_move {name : String} {left : Node} :
    TakesMember name (left.move f) ↔ TakesMember name left := by
  unfold TakesMember
  rw [isNamespace_move]

theorem memberNode?_move {u : Token} {n : Node} (h : memberNode? u = some n) :
    memberNode? (u.move f) = some (n.move f) := by
  obtain ⟨l, p⟩ := u
  cases l with
  | symbol name => cases h; rfl
  | text s => cases h; rfl
  | _ => cases h

theorem keywordCall_move (word : String) (p : Position) (args : List Node) :
    (keywordCall word p args).move f = keywordCall word (f p) (args.map (Node.move f)) := by
  simp only [keywordCall, Node.move, Node.moveArgs_unnamed]

/-- The call of an operator moves with its operands. -/
theorem combine_move {name : String} {p : Position} {left right n : Node}
    (hleft : left.isMissing = false) (h : combine name p left right = .ok n) :
    combine name (f p) (left.move f) (right.move f) = .ok (n.move f) := by
  rw [combine_eq_ok_iff] at h ⊢
  cases h with
  | reversed right hreverses =>
    rw [Node.move, ← Node.position_move hleft f]
    exact .reversed _ hreverses
  | piped hfunction =>
    rw [← Node.isCallTo_move f] at hfunction
    exact .piped hfunction
  | kept right hother =>
    rw [Node.move, ← Node.position_move hleft f]
    exact .kept _ hother

/-- The goal at another position. -/
def Goal.move : Goal → Goal
  | .expression region power => .expression region power
  | .operators region power left => .operators region power (left.move f)
  | .operand region first => .operand region (first.move f)
  | .operatorForm region operator left => .operatorForm region (operator.move f) (left.move f)
  | .condition region => .condition region
  | .statements opening => .statements (f opening)
  | .parameters => .parameters
  | .parameterList seen => .parameterList seen
  | .parameterDefault => .parameterDefault
  | .arguments closing => .arguments closing
  | .argumentList closing => .argumentList closing
  | .argument closing => .argument closing

/-- The phrase at another position. -/
def Phrase.move : Phrase → Phrase
  | .node n => .node (n.move f)
  | .nodes ns => .nodes (ns.map (Node.move f))
  | .args as => .args (Node.moveArgs f as)
  | .params ps => .params (Node.moveParams f ps)

/-! ## Trees that are there -/

/-- What the goal has on its left is there. -/
def Goal.Present : Goal → Prop
  | .operators _ _ left => left.isMissing = false
  | .operatorForm _ _ left => left.isMissing = false
  | _ => True

theorem isMissing_combine {name : String} {p : Position} {left right n : Node}
    (h : combine name p left right = .ok n) : n.isMissing = false := by
  cases combine_eq_ok_iff.mp h with
  | reversed | piped | kept => rfl

/-- A tree that has been read is there; only a default may be missing. -/
theorem Reads.isMissing_eq {g : Goal} {ts rest : Tokens} {n : Node}
    (h : Reads g ts (.node n) rest) (hpresent : g.Present) (hdefault : g ≠ .parameterDefault) :
    n.isMissing = false := by
  generalize hphrase : Phrase.node n = r at h
  -- what an expression reads is its operand, or what its operators make of it
  induction h generalizing n with
  | expression _ _ _ ihoperand ihoperators =>
    exact ihoperators (ihoperand trivial nofun rfl) nofun hphrase
  | done _ =>
    cases hphrase
    exact hpresent
  | more _ _ _ _ ihform ihoperators =>
    exact ihoperators (ihform hpresent nofun rfl) nofun hphrase
  | condition _ _ _ ih => exact ih trivial nofun hphrase
  | withDefault _ _ ih => exact absurd rfl hdefault
  | noDefault => exact absurd rfl hdefault
  | member _ _ _ hmember =>
    cases hphrase
    rfl
  | binary _ _ _ _ _ hcombine _ =>
    cases hphrase
    exact isMissing_combine hcombine
  | _ => cases hphrase <;> rfl

end Parser

end RCode
