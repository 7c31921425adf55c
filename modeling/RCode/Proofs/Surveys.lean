import Mathlib
import RCode.Proofs.Node.Traversal
import RCode.Survey

/-!
# Surveys and what they survey

A survey of deprecated names lists their uses in the order of the nodes, says how often each name
occurs, in the order of first occurrence (`Survey.IsTally`), and names those first that occur most
often, without changing the order of the others (`Survey.IsRanking`). A survey of assigned names
holds the direct targets of the assignments in a program (`Node.mem_assigned_iff`). All walks through
a tree go over the same nodes in the same order (`Node.traversals_agree`).
-/

set_option autoImplicit false

namespace RCode

namespace Survey

/-! ## Counting names -/

/-- The table says for each name that occurs how often it does, in the order of first occurrence. -/
structure IsTally (occurrences : List String) (table : List (String × Nat)) : Prop where
  names : ∀ name, name ∈ table.map Prod.fst ↔ name ∈ occurrences
  /-- In particular no name is listed twice. -/
  order : (table.map Prod.fst).Pairwise fun a b => occurrences.idxOf a < occurrences.idxOf b
  counts : ∀ e ∈ table, e.2 = occurrences.count e.1
  total : (table.map Prod.snd).sum = occurrences.length

theorem eraseDups_concat (names : List String) (name : String) :
    (names ++ [name]).eraseDups =
      if name ∈ names then names.eraseDups else names.eraseDups ++ [name] := by
  rw [List.eraseDups_append]
  by_cases h : name ∈ names
  · simp [List.removeAll, h]
  · simp [List.removeAll, h, List.eraseDups_cons]

/-- Names without their repetitions come in the order of first occurrence. -/
theorem pairwise_eraseDups (names : List String) :
    names.eraseDups.Pairwise fun a b => names.idxOf a < names.idxOf b := by
  induction names using List.reverseRecOn with
  | nil => exact .nil
  | append_singleton names name ih =>
    -- one more name at the end leaves the first occurrences where they are
    have hkeeps : ∀ a ∈ names.eraseDups, (names ++ [name]).idxOf a = names.idxOf a := by
      intro a ha
      exact List.idxOf_append_of_mem (List.mem_eraseDups.mp ha)
    have hbefore : names.eraseDups.Pairwise fun a b =>
        (names ++ [name]).idxOf a < (names ++ [name]).idxOf b := by
      refine ih.imp_of_mem fun ha hb hlt => ?_
      rwa [hkeeps _ ha, hkeeps _ hb]
    rw [eraseDups_concat]
    split
    · exact hbefore
    · next hnew =>
      refine List.pairwise_append.mpr ⟨hbefore, List.pairwise_singleton _ _, ?_⟩
      intro a ha b hb
      obtain rfl := List.mem_singleton.mp hb
      have hlt := List.idxOf_lt_length_iff.mpr (List.mem_eraseDups.mp ha)
      rw [hkeeps a ha, List.idxOf_append_of_notMem hnew]
      omega

theorem nodup_eraseDups (names : List String) : names.eraseDups.Nodup := by
  refine (pairwise_eraseDups names).imp ?_
  rintro a b hlt rfl
  exact Nat.lt_irrefl _ hlt

theorem map_fst_tally (names : List String) : (tally names).map Prod.fst = names.eraseDups := by
  simp [tally, Function.comp_def]

theorem isTally_tally (names : List String) : IsTally names (tally names) where
  names name := by rw [map_fst_tally, List.mem_eraseDups]
  order := by
    rw [map_fst_tally]
    exact pairwise_eraseDups names
  counts := by
    intro e he
    obtain ⟨name, -, rfl⟩ := List.mem_map.mp he
    rfl
  total := by
    have hperm : names.eraseDups.Perm names.dedup := by
      rw [List.perm_ext_iff_of_nodup (nodup_eraseDups names) (List.nodup_dedup names)]
      intro a
      rw [List.mem_eraseDups, List.mem_dedup]
    have hcounts : (tally names).map Prod.snd = names.eraseDups.map names.count := by
      simp [tally, Function.comp_def]
    rw [hcounts, (hperm.map names.count).sum_eq]
    exact List.sum_map_count_dedup_eq_length names

/-! ## Ranking names -/

/-- The second table is the first one by falling counts, with equal counts in the old order. -/
structure IsRanking (table ranking : List (String × Nat)) : Prop where
  perm : ranking.Perm table
  falling : ranking.Pairwise fun a b => b.2 ≤ a.2
  stable : ∀ count, ranking.filter (fun e => e.2 = count) = table.filter fun e => e.2 = count

theorem isRanking_mergeSort (table : List (String × Nat)) :
    IsRanking table (table.mergeSort fun a b => decide (b.2 ≤ a.2)) := by
  have htrans : ∀ a b c : String × Nat, decide (b.2 ≤ a.2) = true → decide (c.2 ≤ b.2) = true →
      decide (c.2 ≤ a.2) = true := by
    intro a b c hab hbc
    simp only [decide_eq_true_eq] at hab hbc ⊢
    omega
  have htotal : ∀ a b : String × Nat, (decide (b.2 ≤ a.2) || decide (a.2 ≤ b.2)) = true := by
    intro a b
    simp only [Bool.or_eq_true, decide_eq_true_eq]
    omega
  have hperm := List.mergeSort_perm table fun a b => decide (b.2 ≤ a.2)
  refine ⟨hperm, ?_, fun count => ?_⟩
  · exact (List.pairwise_mergeSort htrans htotal table).imp of_decide_eq_true
  · -- the entries with one count are sorted already, so that they stay in their order
    have hsorted : (table.filter fun e => e.2 = count).Pairwise fun a b =>
        decide (b.2 ≤ a.2) = true := by
      refine List.pairwise_of_forall_mem_list fun a ha b hb => ?_
      have hcount := of_decide_eq_true (List.mem_filter.mp ha).2
      have hcount' := of_decide_eq_true (List.mem_filter.mp hb).2
      exact decide_eq_true (by omega)
    have hsublist := (List.sublist_mergeSort htrans htotal hsorted List.filter_sublist).filter
      fun e => decide (e.2 = count)
    simp only [List.filter_filter, Bool.and_self] at hsublist
    exact (hsublist.eq_of_length (hperm.filter _).length_eq.symm).symm

end Survey

namespace Node

/-! ## Walks through trees -/

/-- Every use that is found has a name. -/
theorem length_names_of_uses (names : List String) (nodes : List Node) :
    ((programUses names nodes).filterMap name?).length = (programUses names nodes).length := by
  rw [List.filterMap_length_eq_length]
  intro k hk
  obtain ⟨n, -, hk⟩ := List.mem_flatMap.mp hk
  rw [symbolsNamed_eq] at hk
  have hsymbol := (List.mem_filter.mp hk).2
  cases k with
  | symbol name p => rfl
  | _ => cases hsymbol

/-- All walks through a tree go over its nodes in one order: the symbols with some names are listed
in it, a name is used if there is such a symbol, a search stops behind the first node that passes its
test, and the count is the number of nodes. A survey of a program puts the symbols of its trees one
after the other, counts them, and has a line for each name, those with the highest counts first. -/
theorem traversals_agree (names : List String) :
    (∀ n : Node,
      n.symbolsNamed names = n.preorder.filter (isSymbolOf names) ∧
      (n.uses names = true ↔ n.symbolsNamed names ≠ []) ∧
      (∀ test, (n.search test).found = n.any test ∧
        (n.search test).tested = n.testable.take (n.testable.findIdx test + 1)) ∧
      n.count = n.preorder.length) ∧
    ∀ nodes : List Node,
      let survey := Survey.Deprecated.ofProgram names nodes
      survey.found = nodes.flatMap (symbolsNamed names) ∧
      Survey.IsTally (survey.found.filterMap name?) survey.byName ∧
      (survey.byName.map Prod.snd).sum = survey.found.length ∧
      ∃ ranking, Survey.IsRanking survey.byName ranking ∧
        survey.lines = ranking.map fun (name, count) =>
          Survey.line ("'" ++ name ++ "' used " ++ toString count ++ " time(s)") := by
  constructor
  · intro n
    refine ⟨symbolsNamed_eq names n, uses_iff_symbolsNamed names n, fun test => ?_,
      (length_preorder n).symm⟩
    rw [search_eq, any_eq]
    exact ⟨rfl, rfl⟩
  · intro nodes survey
    have htally := Survey.isTally_tally (survey.found.filterMap name?)
    refine ⟨rfl, htally, ?_, _, Survey.isRanking_mergeSort survey.byName, rfl⟩
    exact htally.total.trans (length_names_of_uses names nodes)

/-! ## Assigned names -/

theorem nodup_sortedNames (names : List String) : (sortedNames names).Nodup :=
  (List.mergeSort_perm _ _).nodup_iff.mpr (Survey.nodup_eraseDups names)

/-- The names of a block are those of the trees in it. -/
theorem assignedNames_block (nodes : List Node) (p q : Position) :
    (Node.call (.symbol "\x7b" p) (nodes.map (Arg.mk none)) q).assignedNames =
      nodes.flatMap assignedNames := by
  have hblock : ∀ args, assignedName? (.symbol "\x7b" p) args = none := by
    intro args
    unfold assignedName?
    split
    · next heq =>
      obtain ⟨rfl, -⟩ := Node.symbol.inj heq
      simp [Operator.assignments]
    · rfl
  rw [assignedNames_of_none (hblock _), List.flatMap_map]
  rfl

/-- The assigned names of a tree are the symbols that stand first in its calls of `<-`, `<<-` and `=`
with two arguments. A survey of a program holds the names that are assigned to in its trees, just as
if they stood in one block. -/
theorem mem_assigned_iff :
    (∀ (n : Node) (name : String), name ∈ n.assigned ↔
      ∃ operator ∈ ["<-", "<<-", "="], ∃ p q r given value,
        .call (.symbol operator p) [⟨given, .symbol name q⟩, value] r ∈ n.preorder) ∧
    ∀ nodes : List Node,
      let survey := Survey.Assigned.ofProgram nodes
      survey.names.Nodup ∧
      (∀ name, name ∈ survey.names ↔ ∃ n ∈ nodes, name ∈ n.assigned) ∧
      ∀ p q, survey.names = (Survey.Assigned.ofProgram
        [.call (.symbol "\x7b" p) (nodes.map (Arg.mk none)) q]).names := by
  constructor
  · intro n name
    rw [assigned, mem_sortedNames, mem_assignedNames_iff]
    simp only [assigns_iff]
    constructor
    · rintro ⟨k, hk, operator, hoperator, p, q, r, given, value, rfl⟩
      exact ⟨operator, hoperator, p, q, r, given, value, hk⟩
    · rintro ⟨operator, hoperator, p, q, r, given, value, hk⟩
      exact ⟨_, hk, operator, hoperator, p, q, r, given, value, rfl⟩
  · intro nodes survey
    refine ⟨nodup_sortedNames _, fun name => ?_, fun p q => ?_⟩
    · change name ∈ sortedNames (nodes.flatMap assignedNames) ↔ _
      rw [mem_sortedNames, List.mem_flatMap]
      simp only [assigned, mem_sortedNames]
    · change sortedNames (nodes.flatMap assignedNames) = sortedNames (List.flatMap assignedNames [_])
      rw [List.flatMap_singleton, assignedNames_block]

/-- The tree of `a <- function(k = (b = 1)) names(y) <- 2`, which assigns to `a` and `b` and to
nothing else. -/
theorem mem_assigned_iff_default :
    let call (head : String) (args : List Node) : Node :=
      .call (.symbol head .nowhere) (args.map (⟨none, ·⟩)) .nowhere
    let default := call "(" [call "=" [.symbol "b" .nowhere, .constant (.integer 1) .nowhere]]
    let body := call "<-" [call "names" [.symbol "y" .nowhere], .constant (.integer 2) .nowhere]
    let n := call "<-" [.symbol "a" .nowhere,
      call "function" [.params [⟨"k", default⟩] .nowhere, body]]
    ∀ name, name ∈ n.assigned ↔ name = "a" ∨ name = "b" := by
  intro call default body n name
  rw [mem_assigned_iff.1 n name]
  simp [n, body, default, call, preorder, preorderArgs, preorderParams]

end Node

end RCode
