import RCode.Proofs.Node.Canonical
import RCode.Proofs.Node.ProgramReading
import RCode.Proofs.Node.RenderingTrees

/-!
# Reading a rendered program

The parser reads every program that was rendered, and what it reads is laid out the same
(`exists_reread_program`). The way in which a tree comes back does not depend on the positions in
what comes back.
-/

set_option autoImplicit false

namespace RCode

namespace Node

/-! ## Coming back and positions -/

mutual

/-- How a tree comes back does not depend on the positions of what comes back. -/
theorem ComesBack.of_erase {n m m' : Node} : ComesBack n m → m'.erase = m.erase → ComesBack n m'
  | .constant hbelow hsame, h => by
    cases m' with
    | constant b q =>
      obtain ⟨rfl, -⟩ := Node.constant.inj h
      exact .constant hbelow hsame
    | _ => cases h
  | .belowZero hbelow, h => by
    cases m' with
    | call head args q =>
      obtain ⟨hhead, hargs, -⟩ := Node.call.inj h
      cases head with
      | symbol name r =>
        obtain ⟨rfl, -⟩ := Node.symbol.inj hhead
        obtain ⟨c, rfl, hc⟩ := eraseArgs_one_inv hargs
        cases c with
        | constant b s =>
          obtain ⟨rfl, -⟩ := Node.constant.inj hc
          exact .belowZero hbelow
        | _ => cases hc
      | _ => cases hhead
    | _ => cases h
  | .symbol, h => by
    cases m' with
    | symbol name q =>
      obtain ⟨rfl, -⟩ := Node.symbol.inj h
      exact .symbol
    | _ => cases h
  | .missing, h => by
    cases m' with
    | missing => exact .missing
    | _ => cases h
  | .call hhead hargs, h => by
    cases m' with
    | call head args q =>
      obtain ⟨hhead', hargs', -⟩ := Node.call.inj h
      exact .call (hhead.of_erase hhead') (hargs.of_erase hargs')
    | _ => cases h
  | .params hitems, h => by
    cases m' with
    | params items q =>
      obtain ⟨hitems', -⟩ := Node.params.inj h
      exact .params (hitems.of_erase hitems')
    | _ => cases h

theorem Rereads.of_erase {n m m' : Node} : Rereads n m → m'.erase = m.erase → Rereads n m'
  | .plain hcomes, h => .plain (hcomes.of_erase h)
  | .inParens hwhy hcomes, h => by
    cases m' with
    | call head args q =>
      obtain ⟨hhead, hargs, -⟩ := Node.call.inj h
      cases head with
      | symbol name r =>
        obtain ⟨rfl, -⟩ := Node.symbol.inj hhead
        obtain ⟨c, rfl, hc⟩ := eraseArgs_one_inv hargs
        exact .inParens hwhy (hcomes.of_erase hc)
      | _ => cases hhead
    | _ => cases h

theorem RereadsArgs.of_erase {args bs cs : List (Arg Node)} :
    RereadsArgs args bs → eraseArgs cs = eraseArgs bs → RereadsArgs args cs
  | .nil, h => by
    cases cs with
    | nil => exact .nil
    | cons c cs => cases h
  | .cons hvalue hrest, h => by
    cases cs with
    | nil => cases h
    | cons c cs =>
      obtain ⟨name, m⟩ := c
      obtain ⟨hc, hcs⟩ := List.cons.inj h
      obtain ⟨rfl, hm⟩ := Arg.mk.inj hc
      exact .cons (hvalue.of_erase hm) (hrest.of_erase hcs)

theorem RereadsParams.of_erase {items bs cs : List (Param Node)} :
    RereadsParams items bs → eraseParams cs = eraseParams bs → RereadsParams items cs
  | .nil, h => by
    cases cs with
    | nil => exact .nil
    | cons c cs => cases h
  | .cons hdefault hrest, h => by
    cases cs with
    | nil => cases h
    | cons c cs =>
      obtain ⟨name, m⟩ := c
      obtain ⟨hc, hcs⟩ := List.cons.inj h
      obtain ⟨rfl, hm⟩ := Param.mk.inj hc
      exact .cons (hdefault.of_erase hm) (hrest.of_erase hcs)

end

/-! ## Trees that come back unchanged -/

/-- Neither a number below zero nor a function definition is in the tree. -/
def IsUnguarded (n : Node) : Prop :=
  ∀ k ∈ n.preorder, ¬ IsBelowZero k ∧ ¬ IsDefinition k

theorem IsUnguarded.self {n : Node} (h : n.IsUnguarded) : ¬ IsBelowZero n ∧ ¬ IsDefinition n := by
  refine h n ?_
  cases n with
  | constant | symbol | missing => exact List.mem_singleton_self _
  | call | params => exact List.mem_cons_self

mutual

theorem ComesBack.same_of_unguarded {n m : Node} : ComesBack n m → n.IsUnguarded → n.same m = true
  | .constant _ hsame, _ => hsame
  | .belowZero hbelow, h => absurd hbelow h.self.1
  | .symbol, _ => beq_self_eq_true _
  | .missing, _ => rfl
  | .call hhead hargs, h => by
    have hhead' := hhead.same_of_unguarded fun k hk =>
      h k (List.mem_cons_of_mem _ (List.mem_append_left _ hk))
    have hargs' := hargs.same_of_unguarded fun k hk =>
      h k (List.mem_cons_of_mem _ (List.mem_append_right _ hk))
    rw [Node.same, hhead', hargs']
    rfl
  | .params hitems, h =>
    hitems.same_of_unguarded fun k hk => h k (List.mem_cons_of_mem _ hk)

/-- A tree without numbers below zero and function definitions comes back as itself. -/
theorem Rereads.same_of_unguarded {n m : Node} : Rereads n m → n.IsUnguarded → n.same m = true
  | .plain hcomes, h => hcomes.same_of_unguarded h
  | .inParens hwhy _, h => (hwhy.elim h.self.1 h.self.2).elim

theorem RereadsArgs.same_of_unguarded {args bs : List (Arg Node)} :
    RereadsArgs args bs → (∀ k ∈ preorderArgs args, ¬ IsBelowZero k ∧ ¬ IsDefinition k) →
      sameArgs args bs = true
  | .nil, _ => rfl
  | .cons hvalue hrest, h => by
    have hvalue' := hvalue.same_of_unguarded fun k hk => h k (List.mem_append_left _ hk)
    have hrest' := hrest.same_of_unguarded fun k hk => h k (List.mem_append_right _ hk)
    simp only [sameArgs, beq_self_eq_true, hvalue', hrest', Bool.and_self]

theorem RereadsParams.same_of_unguarded {items bs : List (Param Node)} :
    RereadsParams items bs →
      (∀ k ∈ preorderParams items, ¬ IsBelowZero k ∧ ¬ IsDefinition k) →
      sameParams items bs = true
  | .nil, _ => rfl
  | .cons hdefault hrest, h => by
    have hdefault' := hdefault.same_of_unguarded fun k hk => h k (List.mem_append_left _ hk)
    have hrest' := hrest.same_of_unguarded fun k hk => h k (List.mem_append_right _ hk)
    simp only [sameParams, beq_self_eq_true, hdefault', hrest', Bool.and_self]

end

/-- A program without numbers below zero and function definitions comes back as itself. -/
theorem sameProgram_of_unguarded {ns ms : List Node} (h : List.Forall₂ Rereads ns ms)
    (hns : ∀ n ∈ ns, n.IsUnguarded) : sameProgram ns ms = true := by
  induction h with
  | nil => rfl
  | @cons n m ns ms hn _ ih =>
    obtain ⟨hn', hns'⟩ := List.forall_mem_cons.mp hns
    rw [sameProgram, hn.same_of_unguarded hn', ih hns']
    rfl

/-! ## Rendered programs -/

/-- The layout of a program: a line for each tree, or more. -/
def programLayout (nodes : List Node) : Layout :=
  Layout.lines (nodes.map layout)

/-- What is read does not depend on the positions of the tokens. -/
theorem reads_of_erase {ns ms again : List Node} (h : List.Forall₂ Printer.ReadsPlain ns ms)
    (herase : again.map erase = ms.map erase) :
    List.Forall₂ Rereads ns again ∧ again.map layout = ns.map layout := by
  induction h generalizing again with
  | nil =>
    cases again with
    | nil => exact ⟨.nil, rfl⟩
    | cons => cases herase
  | @cons n m ns ms hnm _ ih =>
    cases again with
    | nil => cases herase
    | cons k again =>
      obtain ⟨hk, hrest⟩ := List.cons.inj herase
      obtain ⟨hreads, hlayouts⟩ := ih hrest
      refine ⟨.cons (hnm.rereads.of_erase hk) hreads, ?_⟩
      have hlayout : k.layout = n.layout := by
        rw [layout, Printer.fragment_of_same (same_of_erase hk)]
        exact hnm.layout
      rw [List.map_cons, List.map_cons, hlayout, hlayouts]

/-- The tokens of the layout of a program are read as a program that is laid out the same. -/
theorem exists_reread_program {nodes : List Node}
    (h : ∀ n ∈ nodes, n.WellFormed ∧ n.Writable) {us : Parser.Tokens}
    (hus : Parser.lexemes (Parser.skipSeparators us) =
      Parser.lexemes (programLayout nodes).tokens) :
    ∃ again, Parser.program us = .ok again ∧ List.Forall₂ Rereads nodes again ∧
      again.map layout = nodes.map layout := by
  obtain ⟨rows, hlayout, hspells, hreads⟩ :=
    Printer.exists_statement_rows fun n hn => Printer.renders (h n hn).1 (h n hn).2
  have hlines : Layout.lines (rows.map Prod.fst) = programLayout nodes := by
    rw [hlayout]
    rfl
  obtain ⟨again, hagain, herase⟩ := Grammar.program_of_rows hspells (by rw [hlines]; exact hus)
  exact ⟨again, hagain, reads_of_erase hreads (herase.trans List.map_map.symm)⟩

end Node

end RCode
