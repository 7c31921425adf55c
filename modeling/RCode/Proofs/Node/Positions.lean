import RCode.Proofs.Node.Derivation
import RCode.Proofs.Node.Erasure

/-!
# Goals and phrases up to positions

Where tokens stand decides only about the positions in the tree that is read. Here is what a goal and a
phrase have in common with others that differ in positions only; that they are read in the same way is
shown in `RCode.Proofs.Node.Widening`.
-/

set_option autoImplicit false

namespace RCode.Parser

/-! ## Reading the same lexemes -/

/-- What the tokens are, without where they stand. -/
def lexemes (ts : Tokens) : List Lexeme :=
  ts.map Token.lexeme

@[simp] theorem lexemes_nil : lexemes [] = [] := rfl

@[simp] theorem lexemes_cons (t : Token) (ts : Tokens) :
    lexemes (t :: ts) = t.lexeme :: lexemes ts := rfl

/-- A list of tokens with the same lexemes as a list that is not empty is not empty either. -/
theorem exists_of_lexemes {us ts : Tokens} {t : Token}
    (h : lexemes us = t.lexeme :: lexemes ts) :
    ∃ t' ts', us = t' :: ts' ∧ t'.lexeme = t.lexeme ∧ lexemes ts' = lexemes ts := by
  cases us with
  | nil => cases h
  | cons t' ts' =>
    obtain ⟨ht, hts⟩ := List.cons.inj h
    exact ⟨t', ts', rfl, ht, hts⟩

/-- The goals ask for the same, up to positions. -/
inductive Goal.Like : Goal → Goal → Prop
  | expression {region : Region} {power : Nat} :
      Like (.expression region power) (.expression region power)
  | operators {region : Region} {power : Nat} {m n : Node} : m.erase = n.erase →
      Like (.operators region power m) (.operators region power n)
  | operand {region : Region} {t u : Token} : t.lexeme = u.lexeme →
      Like (.operand region t) (.operand region u)
  | operatorForm {region : Region} {t u : Token} {m n : Node} :
      t.lexeme = u.lexeme → m.erase = n.erase →
      Like (.operatorForm region t m) (.operatorForm region u n)
  | condition {region : Region} : Like (.condition region) (.condition region)
  | statements {p q : Position} : Like (.statements p) (.statements q)
  | parameters : Like .parameters .parameters
  | parameterList {seen : List String} : Like (.parameterList seen) (.parameterList seen)
  | parameterDefault : Like .parameterDefault .parameterDefault
  | arguments {closing : Closing} : Like (.arguments closing) (.arguments closing)
  | argumentList {closing : Closing} : Like (.argumentList closing) (.argumentList closing)
  | argument {closing : Closing} : Like (.argument closing) (.argument closing)

namespace Goal.Like

theorem eq_operators {g : Goal} {region : Region} {power : Nat} {n : Node}
    (h : g.Like (.operators region power n)) :
    ∃ m, g = .operators region power m ∧ m.erase = n.erase := by
  cases h with
  | operators hm => exact ⟨_, rfl, hm⟩

theorem eq_operand {g : Goal} {region : Region} {t : Token} (h : g.Like (.operand region t)) :
    ∃ u, g = .operand region u ∧ u.lexeme = t.lexeme := by
  cases h with
  | operand ht => exact ⟨_, rfl, ht⟩

theorem eq_operatorForm {g : Goal} {region : Region} {t : Token} {n : Node}
    (h : g.Like (.operatorForm region t n)) :
    ∃ u m, g = .operatorForm region u m ∧ u.lexeme = t.lexeme ∧ m.erase = n.erase := by
  cases h with
  | operatorForm ht hm => exact ⟨_, _, rfl, ht, hm⟩

end Goal.Like

namespace Phrase

/-- The phrase without positions. -/
def erase : Phrase → Phrase
  | .node n => .node n.erase
  | .nodes ns => .nodes (ns.map Node.erase)
  | .args as => .args (Node.eraseArgs as)
  | .params ps => .params (Node.eraseParams ps)

theorem eq_node_of_erase {r : Phrase} {n : Node} (h : r.erase = (Phrase.node n).erase) :
    ∃ m, r = .node m ∧ m.erase = n.erase := by
  cases r with
  | node m => exact ⟨m, rfl, Phrase.node.inj h⟩
  | _ => cases h

theorem eq_nodes_of_erase {r : Phrase} {ns : List Node} (h : r.erase = (Phrase.nodes ns).erase) :
    ∃ ms, r = .nodes ms ∧ ms.map Node.erase = ns.map Node.erase := by
  cases r with
  | nodes ms => exact ⟨ms, rfl, Phrase.nodes.inj h⟩
  | _ => cases h

theorem eq_args_of_erase {r : Phrase} {as : List (Arg Node)}
    (h : r.erase = (Phrase.args as).erase) :
    ∃ bs, r = .args bs ∧ Node.eraseArgs bs = Node.eraseArgs as := by
  cases r with
  | args bs => exact ⟨bs, rfl, Phrase.args.inj h⟩
  | _ => cases h

theorem eq_params_of_erase {r : Phrase} {ps : List (Param Node)}
    (h : r.erase = (Phrase.params ps).erase) :
    ∃ qs, r = .params qs ∧ Node.eraseParams qs = Node.eraseParams ps := by
  cases r with
  | params qs => exact ⟨qs, rfl, Phrase.params.inj h⟩
  | _ => cases h

end Phrase

theorem memberNode?_like {t u : Token} {n : Node} (hn : memberNode? t = some n)
    (h : u.lexeme = t.lexeme) : ∃ m, memberNode? u = some m ∧ m.erase = n.erase := by
  unfold memberNode? at hn ⊢
  rw [h]
  split at hn
  · cases hn; exact ⟨_, rfl, rfl⟩
  · cases hn; exact ⟨_, rfl, rfl⟩
  · cases hn

theorem isNamespace_of_erase {m n : Node} (h : m.erase = n.erase) :
    isNamespace m = isNamespace n := by
  cases n with
  | constant a p =>
    cases m with
    | constant b q =>
      obtain ⟨rfl, -⟩ := Node.constant.inj h
      cases b with
      | _ => rfl
    | _ => cases h
  | _ =>
    cases m with
    | _ => first | rfl | cases h

/-- A call and a tree with the same erasure is a call with the same head and arguments. -/
theorem eq_call_of_erase {m head : Node} {args : List (Arg Node)} {p : Position}
    (h : m.erase = (Node.call head args p).erase) :
    ∃ head' args' q, m = .call head' args' q ∧ head'.erase = head.erase ∧
      Node.eraseArgs args' = Node.eraseArgs args := by
  cases m with
  | call head' args' q =>
    obtain ⟨hhead, hargs, -⟩ := Node.call.inj h
    exact ⟨head', args', q, rfl, hhead, hargs⟩
  | _ => cases h

theorem isCallTo_of_erase {m n : Node} (h : m.erase = n.erase) (names : List String) :
    m.isCallTo names = n.isCallTo names := by
  cases n with
  | call head args p =>
    obtain ⟨head', args', q, rfl, hhead, -⟩ := eq_call_of_erase h
    cases head with
    | symbol name r =>
      cases head' with
      | symbol name' r' =>
        obtain ⟨rfl, -⟩ := Node.symbol.inj hhead
        rfl
      | _ => cases hhead
    | _ =>
      cases head' with
      | symbol name' r' => cases hhead
      | _ => rfl
  | _ =>
    cases m with
    | call => cases h
    | _ => rfl

theorem combine_like {name : String} {p q : Position} {left left' right right' n : Node}
    (hn : combine name p left right = .ok n) (hl : left'.erase = left.erase)
    (hr : right'.erase = right.erase) :
    ∃ m, combine name q left' right' = .ok m ∧ m.erase = n.erase := by
  cases combine_eq_ok_iff.mp hn with
  | reversed right hreverses =>
    exact ⟨_, combine_eq_ok_iff.mpr (.reversed right' hreverses),
      by simp only [Node.erase, Node.eraseArgs, hl, hr]⟩
  | piped hfunction =>
    obtain ⟨head', args', r', rfl, hhead, hargs⟩ := eq_call_of_erase hr
    rw [← isCallTo_of_erase hr] at hfunction
    exact ⟨_, combine_eq_ok_iff.mpr (.piped hfunction),
      by simp only [Node.erase, Node.eraseArgs, hhead, hargs, hl]⟩
  | kept right hother =>
    exact ⟨_, combine_eq_ok_iff.mpr (.kept right' hother),
      by simp only [Node.erase, Node.eraseArgs, hl, hr]⟩

/-! ## Arguments and calls of keywords -/

/-- An argument is one argument. -/
theorem Reads.eq_singleton {closing : Closing} {ts rest : Tokens} {r : Phrase}
    (h : Reads (.argument closing) ts r rest) : ∃ a, r = .args [a] := by
  cases h with
  | unnamed => exact ⟨_, rfl⟩
  | named => exact ⟨_, rfl⟩

theorem keywordCall_erase {word : String} {p q : Position} {as bs : List Node}
    (h : as.map Node.erase = bs.map Node.erase) :
    (keywordCall word p as).erase = (keywordCall word q bs).erase := by
  have hmap : ∀ ns : List Node,
      Node.eraseArgs (ns.map fun n => ⟨none, n⟩) = (ns.map Node.erase).map fun n => ⟨none, n⟩ := by
    intro ns
    induction ns with
    | nil => rfl
    | cons n ns ih => simp only [List.map_cons, Node.eraseArgs, ih]
  simp only [keywordCall, Node.erase, hmap, h]

end RCode.Parser
