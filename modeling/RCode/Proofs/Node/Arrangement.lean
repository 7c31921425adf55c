import Mathlib.Data.List.Basic
import RCode.Operator
import RCode.Proofs.Node.Traversal
import RCode.Proofs.Token.Order

/-!
# Trees and the order of their source

A tree that comes from a text lists its children in an order of its own: an operator comes before its
operands, the target of a rightward assignment before the value, and the head of a call before what
is piped into the call. The symbols of the tree, in the order of its nodes, are in the order of the
text exactly if no two children with such symbols have changed places
(`ascending_symbolsNamed_iff`). Where nothing is assigned to the right or piped, only operators change
places (`ascending_symbolsNamed`).
-/

set_option autoImplicit false

namespace RCode

/-- The name is written behind the first of the arguments: it is an operator or an index. -/
def Operator.IsInfix (name : String) : Prop :=
  name = "[" ∨ name = "[[" ∨ (Operator.binary? name).isSome = true

/-- The lexeme is an operator that makes the parser move its operands. -/
def Lexeme.MovesOperands (l : Lexeme) : Prop :=
  l = .operator "->" ∨ l = .operator "->>" ∨ l = .operator "|>"

namespace Node

/-! ## Symbols -/

/-- Symbols are related in order if those of any two children of a node are. -/
theorem pairwise_symbolsNamed_iff {R : Node → Node → Prop} {names : List String} (n : Node) :
    (n.symbolsNamed names).Pairwise R ↔
      ∀ k ∈ n.preorder, k.children.Pairwise fun c d =>
        ∀ i ∈ c.symbolsNamed names, ∀ j ∈ d.symbolsNamed names, R i j := by
  induction n using induct_children with
  | h n ih =>
    rw [forall_preorder_iff]
    by_cases hleaf : n.children = []
    · -- a leaf is at most one symbol
      have hsymbols : n.symbolsNamed names = [n].filter (isSymbolOf names) := by
        rw [symbolsNamed_eq, preorder_eq, hleaf, List.flatMap_nil]
      have hpairwise : (n.symbolsNamed names).Pairwise R := by
        rw [hsymbols]
        exact (List.pairwise_singleton R n).filter _
      rw [hleaf]
      exact iff_of_true hpairwise ⟨.nil, List.forall_mem_nil _⟩
    · rw [symbolsNamed_of_children hleaf, List.pairwise_flatMap, and_comm]
      exact and_congr_right fun _ => forall₂_congr ih

/-! ## Order -/

/-- All of the first tree stands before all of the second. Missing markers stand nowhere. -/
def Precedes (m n : Node) : Prop :=
  ∀ j ∈ m.preorder, j.isMissing = false → ∀ k ∈ n.preorder, k.isMissing = false →
    j.position < k.position

/-- One of the trees stands before the other. -/
def Apart (m n : Node) : Prop :=
  m.Precedes n ∨ n.Precedes m

/-- A symbol of the tree is one of its parts. -/
theorem mem_preorder_of_symbolsNamed {n k : Node} {names : List String}
    (h : k ∈ n.symbolsNamed names) : k ∈ n.preorder ∧ k.isMissing = false := by
  rw [symbolsNamed_eq, List.mem_filter] at h
  refine ⟨h.1, ?_⟩
  cases k with
  | missing => exact absurd h.2 Bool.false_ne_true
  | _ => rfl

theorem Precedes.symbols {m n : Node} (h : m.Precedes n) {names : List String} :
    ∀ i ∈ m.symbolsNamed names, ∀ j ∈ n.symbolsNamed names, i.position < j.position := by
  intro i hi j hj
  obtain ⟨hi, himissing⟩ := mem_preorder_of_symbolsNamed hi
  obtain ⟨hj, hjmissing⟩ := mem_preorder_of_symbolsNamed hj
  exact h i hi himissing j hj hjmissing

/-- A tree that uses some names is there. -/
theorem isMissing_of_uses {n : Node} {names : List String} (h : n.uses names = true) :
    n.isMissing = false := by
  cases n with
  | missing => exact absurd h Bool.false_ne_true
  | _ => rfl

theorem Precedes.position {m n : Node} (h : m.Precedes n) (hm : m.isMissing = false)
    (hn : n.isMissing = false) : m.position < n.position :=
  h m m.self_mem_preorder hm n n.self_mem_preorder hn

/-- What stands before a node stands before its children. -/
theorem Precedes.children {m n : Node} (h : m.Precedes n) : ∀ c ∈ n.children, m.Precedes c := by
  intro c hc j hj hjmissing k hk hkmissing
  have hmem : k ∈ n.preorder := by
    rw [preorder_eq]
    exact List.mem_cons_of_mem _ (List.mem_flatMap.mpr ⟨c, hc, hk⟩)
  exact h j hj hjmissing k hmem hkmissing

/-- The children of a node that is made of some of the tokens. Any two of them stand apart. If no
operators move operands, then a child that does not stand before the later ones is the name of an
operator. -/
structure Arranged (us : List Token) (n : Node) : Prop where
  apart : n.children.Pairwise Apart
  forward : (∀ u ∈ us, ¬ u.lexeme.MovesOperands) → n.children.Pairwise fun c d =>
    c.Precedes d ∨ ∃ name p, c = .symbol name p ∧ Operator.IsInfix name

section

variable {us : List Token} {n : Node} {names : List String}

/-- No two symbols of a tree stand at one place. -/
theorem distinct_symbolsNamed (h : ∀ k ∈ n.preorder, k.Arranged us) :
    (n.symbolsNamed names).Pairwise fun i j => i.position ≠ j.position := by
  rw [pairwise_symbolsNamed_iff]
  intro k hk
  refine (h k hk).apart.imp fun {c d} hapart i hi j hj heq => ?_
  rcases hapart with hprecedes | hprecedes
  · exact Position.lt_irrefl _ (heq ▸ hprecedes.symbols i hi j hj)
  · exact Position.lt_irrefl _ (heq ▸ hprecedes.symbols j hj i hi)

/-- The symbols of a tree are in the order of the source exactly if this is true of any two children
of a node that have such symbols. -/
theorem ascending_symbolsNamed_iff (h : ∀ k ∈ n.preorder, k.Arranged us) :
    ((n.symbolsNamed names).Pairwise fun i j => i.position < j.position) ↔
      ∀ k ∈ n.preorder, k.children.Pairwise fun c d =>
        c.uses names = true → d.uses names = true → c.position < d.position := by
  rw [pairwise_symbolsNamed_iff]
  refine forall₂_congr fun k hk => ?_
  have hapart := (h k hk).apart
  constructor
  · intro hsymbols
    refine (hapart.and hsymbols).imp fun {c d} ⟨hapart, hsymbols⟩ hc hd => ?_
    rcases hapart with hprecedes | hprecedes
    · exact hprecedes.position (isMissing_of_uses hc) (isMissing_of_uses hd)
    · -- two symbols would stand in both orders
      obtain ⟨i, hi⟩ := List.exists_mem_of_ne_nil _ ((uses_iff_symbolsNamed names c).mp hc)
      obtain ⟨j, hj⟩ := List.exists_mem_of_ne_nil _ ((uses_iff_symbolsNamed names d).mp hd)
      exact absurd (hsymbols i hi j hj) (Position.lt_asymm (hprecedes.symbols j hj i hi))
  · intro hchildren
    refine (hapart.and hchildren).imp fun {c d} ⟨hapart, hchildren⟩ i hi j hj => ?_
    rcases hapart with hprecedes | hprecedes
    · exact hprecedes.symbols i hi j hj
    · have hc := (uses_iff_symbolsNamed names c).mpr (List.ne_nil_of_mem hi)
      have hd := (uses_iff_symbolsNamed names d).mpr (List.ne_nil_of_mem hj)
      exact absurd (hchildren hc hd) (Position.lt_asymm
        (hprecedes.position (isMissing_of_uses hd) (isMissing_of_uses hc)))

/-- Where no operands are moved, the symbols that are no operators are in the order of the source. -/
theorem ascending_symbolsNamed (h : ∀ k ∈ n.preorder, k.Arranged us)
    (hmoves : ∀ u ∈ us, ¬ u.lexeme.MovesOperands) (hnames : ∀ name ∈ names, ¬ Operator.IsInfix name) :
    (n.symbolsNamed names).Pairwise fun i j => i.position < j.position := by
  rw [pairwise_symbolsNamed_iff]
  intro k hk
  refine ((h k hk).forward hmoves).imp fun {c d} hforward i hi j hj => ?_
  rcases hforward with hprecedes | ⟨name, p, rfl, hinfix⟩
  · exact hprecedes.symbols i hi j hj
  · have hname : name ∈ names := by
      by_contra hname
      rw [symbolsNamed, if_neg hname] at hi
      cases hi
    exact absurd hinfix (hnames name hname)

end

end Node

end RCode
