import Mathlib.Data.List.Basic
import RCode.Assignment
import RCode.Deprecation
import RCode.Proofs.Node.Erasure

/-!
# Traversals and the nodes of a tree

Every traversal goes over the nodes that `Node.preorder` lists. Counting gives their number
(`length_preorder`), the symbols with some names are those among them (`symbolsNamed_eq`), a name is
used if there is such a symbol (`uses_iff`), a search tests them in turn up to the first one that
passes (`search_eq`), and the assigned names are those that calls among them assign to
(`mem_assignedNames_iff`).
-/

set_option autoImplicit false

namespace RCode.Node

/-! ## Rows of arguments and parameters -/

theorem preorderArgs_eq (args : List (Arg Node)) :
    preorderArgs args = args.flatMap fun a => a.value.preorder := by
  induction args with
  | nil => rfl
  | cons a rest ih => exact congrArg (a.value.preorder ++ ·) ih

theorem preorderParams_eq (items : List (Param Node)) :
    preorderParams items = items.flatMap fun i => i.default.preorder := by
  induction items with
  | nil => rfl
  | cons i rest ih => exact congrArg (i.default.preorder ++ ·) ih

theorem mem_preorderArgs {k : Node} {args : List (Arg Node)} :
    k ∈ preorderArgs args ↔ ∃ a ∈ args, k ∈ a.value.preorder := by
  rw [preorderArgs_eq, List.mem_flatMap]

theorem mem_preorderParams {k : Node} {items : List (Param Node)} :
    k ∈ preorderParams items ↔ ∃ i ∈ items, k ∈ i.default.preorder := by
  rw [preorderParams_eq, List.mem_flatMap]

theorem symbolNamesArgs_eq (args : List (Arg Node)) :
    symbolNamesArgs args = args.flatMap fun a => a.value.symbolNames := by
  induction args with
  | nil => rfl
  | cons a rest ih => exact congrArg (a.value.symbolNames ++ ·) ih

theorem symbolNamesParams_eq (items : List (Param Node)) :
    symbolNamesParams items = items.flatMap fun i => i.default.symbolNames := by
  induction items with
  | nil => rfl
  | cons i rest ih => exact congrArg (i.default.symbolNames ++ ·) ih

/-- The symbols of an argument are symbols of the arguments. -/
theorem mem_symbolNamesArgs {args : List (Arg Node)} {a : Arg Node} (h : a ∈ args) {name : String}
    (hname : name ∈ a.value.symbolNames) : name ∈ symbolNamesArgs args := by
  rw [symbolNamesArgs_eq]
  exact List.mem_flatMap.mpr ⟨a, h, hname⟩

theorem mem_symbolNamesParams {items : List (Param Node)} {q : Param Node} (h : q ∈ items)
    {name : String} (hname : name ∈ q.default.symbolNames) : name ∈ symbolNamesParams items := by
  rw [symbolNamesParams_eq]
  exact List.mem_flatMap.mpr ⟨q, h, hname⟩

theorem symbolsNamedArgs_eq (names : List String) (args : List (Arg Node)) :
    symbolsNamedArgs names args = args.flatMap fun a => a.value.symbolsNamed names := by
  induction args with
  | nil => rfl
  | cons a rest ih => exact congrArg (a.value.symbolsNamed names ++ ·) ih

theorem symbolsNamedParams_eq (names : List String) (items : List (Param Node)) :
    symbolsNamedParams names items = items.flatMap fun i => i.default.symbolsNamed names := by
  induction items with
  | nil => rfl
  | cons i rest ih => exact congrArg (i.default.symbolsNamed names ++ ·) ih

theorem anyArgs_eq (test : Node → Bool) (args : List (Arg Node)) :
    anyArgs test args = args.any fun a => a.value.any test := by
  induction args with
  | nil => rfl
  | cons a rest ih => exact congrArg (a.value.any test || ·) ih

theorem anyParams_eq (test : Node → Bool) (items : List (Param Node)) :
    anyParams test items = items.any fun i => i.default.any test := by
  induction items with
  | nil => rfl
  | cons i rest ih => exact congrArg (i.default.any test || ·) ih

theorem assignedNamesArgs_eq (args : List (Arg Node)) :
    assignedNamesArgs args = args.flatMap fun a => a.value.assignedNames := by
  induction args with
  | nil => rfl
  | cons a rest ih => exact congrArg (a.value.assignedNames ++ ·) ih

theorem assignedNamesParams_eq (items : List (Param Node)) :
    assignedNamesParams items = items.flatMap fun i => i.default.assignedNames := by
  induction items with
  | nil => rfl
  | cons i rest ih => exact congrArg (i.default.assignedNames ++ ·) ih

/-! ## Walks through trees -/

theorem preorder_call (head : Node) (args : List (Arg Node)) (p : Position) :
    (Node.call head args p).preorder =
      .call head args p :: (head.preorder ++ preorderArgs args) :=
  rfl

theorem preorder_params (items : List (Param Node)) (p : Position) :
    (Node.params items p).preorder = .params items p :: preorderParams items :=
  rfl

theorem length_preorderArgs {args : List (Arg Node)}
    (ih : ∀ a ∈ args, a.value.preorder.length = a.value.count) :
    (preorderArgs args).length = countArgs args := by
  induction args with
  | nil => rfl
  | cons a rest tail =>
    obtain ⟨iha, ihrest⟩ := List.forall_mem_cons.mp ih
    exact List.length_append.trans (congrArg₂ (· + ·) iha (tail ihrest))

theorem length_preorderParams {items : List (Param Node)}
    (ih : ∀ i ∈ items, i.default.preorder.length = i.default.count) :
    (preorderParams items).length = countParams items := by
  induction items with
  | nil => rfl
  | cons i rest tail =>
    obtain ⟨ihi, ihrest⟩ := List.forall_mem_cons.mp ih
    exact List.length_append.trans (congrArg₂ (· + ·) ihi (tail ihrest))

/-- The count of a tree is the number of its nodes. -/
theorem length_preorder (n : Node) : n.preorder.length = n.count := by
  induction n using Node.ind with
  | constant a p => rfl
  | symbol name p => rfl
  | missing => rfl
  | params items p ih =>
    rw [preorder_params, List.length_cons, length_preorderParams ih]
    exact Nat.add_comm _ _
  | call head args p ihHead ihArgs =>
    rw [preorder_call, List.length_cons, List.length_append, ihHead, length_preorderArgs ihArgs]
    exact Nat.add_comm _ _

/-- The node is a symbol with one of the names. -/
def isSymbolOf (names : List String) (n : Node) : Bool :=
  n.name?.any (· ∈ names)

/-- The symbols with some names are found in the order of the nodes. -/
theorem symbolsNamed_eq (names : List String) (n : Node) :
    n.symbolsNamed names = n.preorder.filter (isSymbolOf names) := by
  induction n using Node.ind with
  | constant a p => rfl
  | symbol name p =>
    change (if name ∈ names then [Node.symbol name p] else []) = [Node.symbol name p].filter _
    by_cases h : name ∈ names
    · simp [isSymbolOf, name?, h]
    · simp [isSymbolOf, name?, h]
  | missing => rfl
  | params items p ih =>
    have hlist : isSymbolOf names (.params items p) = false := rfl
    rw [preorder_params, List.filter_cons_of_neg (Bool.eq_false_iff.mp hlist), preorderParams_eq,
      List.filter_flatMap]
    exact (symbolsNamedParams_eq names items).trans (List.flatMap_congr ih)
  | call head args p ihHead ihArgs =>
    have hcall : isSymbolOf names (.call head args p) = false := rfl
    rw [preorder_call, List.filter_cons_of_neg (Bool.eq_false_iff.mp hcall), List.filter_append,
      ← ihHead, preorderArgs_eq, List.filter_flatMap, ← List.flatMap_congr ihArgs]
    exact congrArg _ (symbolsNamedArgs_eq names args)

theorem exists_preorder_leaf {P : Node → Prop} {n : Node} (hleaf : n.preorder = [n]) :
    (∃ k ∈ n.preorder, P k) ↔ P n := by
  rw [hleaf]
  exact ⟨fun ⟨k, hk, h⟩ => List.eq_of_mem_singleton hk ▸ h,
    fun h => ⟨n, List.mem_singleton_self n, h⟩⟩

/-- A node of a call is the call or a node of one of its parts. -/
theorem exists_preorder_call {P : Node → Prop} {head : Node} {args : List (Arg Node)}
    {p : Position} : (∃ k ∈ (Node.call head args p).preorder, P k) ↔
      P (.call head args p) ∨ (∃ k ∈ head.preorder, P k) ∨
        ∃ a ∈ args, ∃ k ∈ a.value.preorder, P k := by
  simp only [preorder_call, List.exists_mem_cons_iff, List.mem_append, or_and_right, exists_or,
    mem_preorderArgs]
  exact or_congr_right (or_congr_right
    ⟨fun ⟨k, ⟨a, ha, hk⟩, h⟩ => ⟨a, ha, k, hk, h⟩, fun ⟨a, ha, k, hk, h⟩ => ⟨k, ⟨a, ha, hk⟩, h⟩⟩)

theorem exists_preorder_params {P : Node → Prop} {items : List (Param Node)} {p : Position} :
    (∃ k ∈ (Node.params items p).preorder, P k) ↔
      P (.params items p) ∨ ∃ i ∈ items, ∃ k ∈ i.default.preorder, P k := by
  simp only [preorder_params, List.exists_mem_cons_iff, mem_preorderParams]
  exact or_congr_right
    ⟨fun ⟨k, ⟨i, hi, hk⟩, h⟩ => ⟨i, hi, k, hk, h⟩, fun ⟨i, hi, k, hk, h⟩ => ⟨k, ⟨i, hi, hk⟩, h⟩⟩

/-- The parts of a call are the call and the parts of its head and of its arguments. -/
theorem forall_preorder_call {P : Node → Prop} {head : Node} {args : List (Arg Node)}
    {p : Position} : (∀ k ∈ (Node.call head args p).preorder, P k) ↔
      P (.call head args p) ∧ (∀ k ∈ head.preorder, P k) ∧
        ∀ a ∈ args, ∀ k ∈ a.value.preorder, P k := by
  simp only [preorder_call, List.forall_mem_cons, List.forall_mem_append, mem_preorderArgs]
  exact and_congr_right fun _ => and_congr_right fun _ =>
    ⟨fun h a ha k hk => h k ⟨a, ha, hk⟩, fun h k ⟨a, ha, hk⟩ => h a ha k hk⟩

theorem forall_preorder_params {P : Node → Prop} {items : List (Param Node)} {p : Position} :
    (∀ k ∈ (Node.params items p).preorder, P k) ↔
      P (.params items p) ∧ ∀ i ∈ items, ∀ k ∈ i.default.preorder, P k := by
  simp only [preorder_params, List.forall_mem_cons, mem_preorderParams]
  exact and_congr_right fun _ =>
    ⟨fun h i hi k hk => h k ⟨i, hi, hk⟩, fun h k ⟨i, hi, hk⟩ => h i hi k hk⟩

/-! ## Children -/

/-- The nodes of a tree are the tree and those of its children. -/
theorem preorder_eq (n : Node) : n.preorder = n :: n.children.flatMap preorder := by
  cases n with
  | call head args p =>
    rw [preorder_call, preorderArgs_eq, children, List.flatMap_cons, List.flatMap_map]
  | params items p => rw [preorder_params, preorderParams_eq, children, List.flatMap_map]
  | _ => rfl

theorem self_mem_preorder (n : Node) : n ∈ n.preorder := by
  rw [preorder_eq]
  exact List.mem_cons_self

theorem forall_preorder_iff {P : Node → Prop} {n : Node} :
    (∀ k ∈ n.preorder, P k) ↔ P n ∧ ∀ c ∈ n.children, ∀ k ∈ c.preorder, P k := by
  rw [preorder_eq, List.forall_mem_cons, List.forall_mem_flatMap]

/-- What holds of a node if it holds of its children holds of all nodes. -/
theorem induct_children {P : Node → Prop} (h : ∀ n, (∀ c ∈ n.children, P c) → P n) (n : Node) :
    P n := by
  induction n using Node.ind with
  | constant a p => exact h _ (List.forall_mem_nil _)
  | symbol name p => exact h _ (List.forall_mem_nil _)
  | missing => exact h _ (List.forall_mem_nil _)
  | params items p ih => exact h _ (List.forall_mem_map.mpr ih)
  | call head args p ihHead ihArgs =>
    exact h _ (List.forall_mem_cons.mpr ⟨ihHead, List.forall_mem_map.mpr ihArgs⟩)

/-- The symbols of a node with children are those of its children. -/
theorem symbolsNamed_of_children {n : Node} (h : n.children ≠ []) (names : List String) :
    n.symbolsNamed names = n.children.flatMap (symbolsNamed names) := by
  have hself : isSymbolOf names n = false := by
    cases n with
    | symbol name p => exact absurd rfl h
    | _ => rfl
  rw [symbolsNamed_eq, preorder_eq, List.filter_cons_of_neg (Bool.eq_false_iff.mp hself),
    List.filter_flatMap]
  exact List.flatMap_congr fun c _ => (symbolsNamed_eq names c).symm

/-! ## Tests -/

/-- The node is tested by searches: it is neither a parameter list nor a missing argument. -/
def isTestable : Node → Bool
  | .params _ _ => false
  | .missing => false
  | _ => true

/-- The nodes that searches test, in order. -/
def testable (n : Node) : List Node :=
  n.preorder.filter isTestable

theorem testable_params (items : List (Param Node)) (p : Position) :
    (Node.params items p).testable = items.flatMap fun i => i.default.testable := by
  have hlist : isTestable (.params items p) = false := rfl
  rw [testable, preorder_params, List.filter_cons_of_neg (Bool.eq_false_iff.mp hlist),
    preorderParams_eq, List.filter_flatMap]
  rfl

theorem testable_call (head : Node) (args : List (Arg Node)) (p : Position) :
    (Node.call head args p).testable =
      .call head args p :: (head.testable ++ args.flatMap fun a => a.value.testable) := by
  have hcall : isTestable (.call head args p) = true := rfl
  rw [testable, preorder_call, List.filter_cons_of_pos hcall, List.filter_append,
    preorderArgs_eq, List.filter_flatMap]
  rfl

theorem any_congr_of_mem {α : Type} {l : List α} {p q : α → Bool} (h : ∀ a ∈ l, p a = q a) :
    l.any p = l.any q := by
  rw [Bool.eq_iff_iff, List.any_eq_true, List.any_eq_true]
  exact exists_congr fun a => and_congr_right fun ha => by rw [h a ha]

/-- A test passes somewhere in the tree if a node that is tested passes it. -/
theorem any_eq (test : Node → Bool) (n : Node) : n.any test = n.testable.any test := by
  induction n using Node.ind with
  | constant a p => exact (Bool.or_false _).symm
  | symbol name p => exact (Bool.or_false _).symm
  | missing => rfl
  | params items p ih =>
    rw [testable_params, List.any_flatMap]
    exact (anyParams_eq test items).trans (any_congr_of_mem ih)
  | call head args p ihHead ihArgs =>
    rw [testable_call, List.any_cons, List.any_append, List.any_flatMap, ← ihHead,
      ← any_congr_of_mem ihArgs, ← anyArgs_eq, ← Bool.or_assoc]
    rfl

/-- A test that no parameter list and no missing argument passes is passed by a node of the tree
exactly if the search finds one. -/
theorem any_iff {test : Node → Bool} (hmissing : test .missing = false)
    (hparams : ∀ items p, test (.params items p) = false) (n : Node) :
    n.any test = true ↔ ∃ k ∈ n.preorder, test k = true := by
  have htestable : ∀ k, test k = true → isTestable k = true := by
    intro k hk
    cases k with
    | missing => exact absurd hk (Bool.eq_false_iff.mp hmissing)
    | params items p => exact absurd hk (Bool.eq_false_iff.mp (hparams items p))
    | _ => rfl
  rw [any_eq, List.any_eq_true]
  simp only [testable, List.mem_filter]
  constructor
  · rintro ⟨k, ⟨hk, -⟩, hpasses⟩
    exact ⟨k, hk, hpasses⟩
  · rintro ⟨k, hk, hpasses⟩
    exact ⟨k, ⟨hk, htestable k hpasses⟩, hpasses⟩

/-- A tree uses a name if it has a symbol with it. -/
theorem uses_iff (names : List String) (n : Node) :
    n.uses names = true ↔ ∃ k ∈ n.preorder, isSymbolOf names k = true :=
  any_iff rfl (fun _ _ => rfl) n

/-- A tree uses a name if there is a symbol to be found in it. -/
theorem uses_iff_symbolsNamed (names : List String) (n : Node) :
    n.uses names = true ↔ n.symbolsNamed names ≠ [] := by
  rw [uses_iff, symbolsNamed_eq, ne_eq, List.filter_eq_nil_iff]
  push Not
  exact Iff.rfl

/-! ## Searches -/

/-- A search through a list of nodes tests them up to the first one that passes. -/
def Search.through (test : Node → Bool) (ns : List Node) : Search :=
  ⟨ns.any test, ns.take (ns.findIdx test + 1)⟩

/-- A search through two lists is one through the first and, if it finds nothing, the second. -/
theorem Search.through_append (test : Node → Bool) (ms ns : List Node) :
    through test (ms ++ ns) = (through test ms).andThen (through test ns) := by
  unfold through andThen
  rw [List.any_append, List.findIdx_append, List.take_append]
  cases hany : ms.any test with
  | true =>
    have hlt : ms.findIdx test < ms.length :=
      List.findIdx_lt_length.mpr (List.any_eq_true.mp hany)
    -- the first list is cut, and nothing is taken from the second one
    have hnone : ms.findIdx test + 1 - ms.length = 0 := by omega
    simp [hlt, hnone]
  | false =>
    have hlength : ms.findIdx test = ms.length :=
      List.findIdx_eq_length.mpr (by simpa using List.any_eq_false.mp hany)
    -- the first list is taken whole
    have hall : ms.take (ms.length + 1) = ms := List.take_of_length_le (Nat.le_succ _)
    have hfirst : ms.take (ns.findIdx test + ms.length + 1) = ms :=
      List.take_of_length_le (by omega)
    have hrest : ns.findIdx test + ms.length + 1 - ms.length = ns.findIdx test + 1 := by omega
    simp [hlength, hall, hrest, hfirst]

theorem Search.through_singleton (test : Node → Bool) (n : Node) :
    through test [n] = one test n := by
  cases h : test n with
  | true => simp [through, one, h]
  | false => simp [through, one, h]

theorem searchArgs_eq {test : Node → Bool} {args : List (Arg Node)}
    (ih : ∀ a ∈ args, a.value.search test = .through test a.value.testable) :
    searchArgs test args = .through test (args.flatMap fun a => a.value.testable) := by
  induction args with
  | nil => rfl
  | cons a rest tail =>
    obtain ⟨iha, ihrest⟩ := List.forall_mem_cons.mp ih
    rw [List.flatMap_cons, Search.through_append, ← iha, ← tail ihrest]
    rfl

theorem searchParams_eq {test : Node → Bool} {items : List (Param Node)}
    (ih : ∀ i ∈ items, i.default.search test = .through test i.default.testable) :
    searchParams test items = .through test (items.flatMap fun i => i.default.testable) := by
  induction items with
  | nil => rfl
  | cons i rest tail =>
    obtain ⟨ihi, ihrest⟩ := List.forall_mem_cons.mp ih
    rw [List.flatMap_cons, Search.through_append, ← ihi, ← tail ihrest]
    rfl

/-- A search of a tree goes through its nodes in order. -/
theorem search_eq (test : Node → Bool) (n : Node) :
    n.search test = .through test n.testable := by
  induction n using Node.ind with
  | constant a p => exact (Search.through_singleton test _).symm
  | symbol name p => exact (Search.through_singleton test _).symm
  | missing => rfl
  | params items p ih =>
    rw [testable_params]
    exact searchParams_eq ih
  | call head args p ihHead ihArgs =>
    rw [testable_call, ← List.cons_append, Search.through_append, ← List.singleton_append,
      Search.through_append, Search.through_singleton, ← ihHead, ← searchArgs_eq ihArgs]
    rfl

/-! ## Assigned names -/

/-- The node is a call that assigns to the name. -/
def Assigns (name : String) : Node → Prop
  | .call head args _ => assignedName? head args = some name
  | _ => False

/-- A call that assigns to a symbol has this symbol and a value as its arguments. -/
theorem assignedName?_eq_some {head : Node} {args : List (Arg Node)} {name : String}
    (h : assignedName? head args = some name) :
    ∃ operator p q target value,
      head = .symbol operator p ∧ args = [⟨target, .symbol name q⟩, value] := by
  unfold assignedName? at h
  split at h
  · next operator p target value =>
    split at h
    · obtain ⟨given, value'⟩ := target
      cases value' with
      | symbol name' q =>
        cases h
        exact ⟨operator, p, q, given, value, rfl, rfl⟩
      | _ => cases h
    · cases h
  · cases h

/-- The calls that assign to a name are the calls of the assignment operators with two arguments
whose first one is the symbol of this name. -/
theorem assigns_iff {k : Node} {name : String} :
    k.Assigns name ↔ ∃ operator ∈ Operator.assignments, ∃ p q r given value,
      k = .call (.symbol operator p) [⟨given, .symbol name q⟩, value] r := by
  constructor
  · intro h
    cases k with
    | call head args r =>
      obtain ⟨operator, p, q, given, value, rfl, rfl⟩ := assignedName?_eq_some h
      by_cases hoperator : operator ∈ Operator.assignments
      · exact ⟨operator, hoperator, p, q, r, given, value, rfl⟩
      · simp [Assigns, assignedName?, hoperator] at h
    | _ => exact h.elim
  · rintro ⟨operator, hoperator, p, q, r, given, value, rfl⟩
    simp [Assigns, assignedName?, hoperator, name?]

/-- All parts of a call that assigns to no symbol are searched. -/
theorem assignedNames_of_none {head : Node} {args : List (Arg Node)} {p : Position}
    (h : assignedName? head args = none) : (Node.call head args p).assignedNames =
      head.assignedNames ++ args.flatMap fun a => a.value.assignedNames := by
  rw [assignedNames, assignedNamesArgs_eq]
  intro name a value hname
  rw [h] at hname
  cases hname

/-- A call that assigns to a symbol assigns to its name first. -/
theorem assignedNames_of_some {operator name name' : String} {target : Option String}
    {value : Arg Node} {p q r : Position}
    (h : assignedName? (.symbol operator p) [⟨target, .symbol name q⟩, value] = some name') :
    (Node.call (.symbol operator p) [⟨target, .symbol name q⟩, value] r).assignedNames =
      name' :: value.value.assignedNames := by
  rw [assignedNames]
  exact h

/-- The assigned names are those that the calls in the tree assign to. -/
theorem mem_assignedNames_iff {n : Node} {name : String} :
    name ∈ n.assignedNames ↔ ∃ k ∈ n.preorder, k.Assigns name := by
  induction n using Node.ind with
  | constant a p => exact iff_of_false List.not_mem_nil (mt (exists_preorder_leaf rfl).mp id)
  | symbol name' p => exact iff_of_false List.not_mem_nil (mt (exists_preorder_leaf rfl).mp id)
  | missing => exact iff_of_false List.not_mem_nil (mt (exists_preorder_leaf rfl).mp id)
  | params items p ih =>
    change name ∈ assignedNamesParams items ↔ _
    rw [assignedNamesParams_eq, List.mem_flatMap, exists_preorder_params]
    simp only [Assigns, false_or]
    exact exists_congr fun i => and_congr_right fun hi => ih i hi
  | call head args p ihHead ihArgs =>
    rw [exists_preorder_call, Assigns]
    cases hassigned : assignedName? head args with
    | none =>
      rw [assignedNames_of_none hassigned, List.mem_append, ihHead, List.mem_flatMap]
      simp only [reduceCtorEq, false_or]
      exact or_congr_right (exists_congr fun a => and_congr_right fun ha => ihArgs a ha)
    | some name' =>
      -- neither the operator nor the target is a call
      obtain ⟨operator, r, q, given, value, rfl, rfl⟩ := assignedName?_eq_some hassigned
      have hvalue := ihArgs value (List.mem_cons_of_mem _ List.mem_cons_self)
      rw [assignedNames_of_some hassigned, List.mem_cons, hvalue]
      simp only [Option.some.injEq, List.exists_mem_cons_iff, preorder, List.not_mem_nil, Assigns,
        false_and, exists_false, or_false, false_or, eq_comm]

end RCode.Node
