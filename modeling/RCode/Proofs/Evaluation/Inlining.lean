import RCode.Proofs.Evaluation.Rule

/-!
# Statements of blocks in blocks

The statements of the blocks in a block can stand in the places of these blocks (`Node.inlinedArgs`).
Each of them comes from a place in the block, and no two places in them come from the same place
(`Node.origin_injective`), so that a host can tell apart whatever it could tell apart before.
-/

set_option autoImplicit false

namespace RCode

namespace Node

/-- The node is a block. -/
def isBlock (n : Node) : Bool :=
  n.isCallTo ["\x7b"]

mutual

/-- The statements that a named statement stands for: those of a block, and any other statement
itself. -/
def inlined (name : Option String) : Node → List (Arg Node)
  | .call head args p =>
    if (Node.call head args p).isBlock then inlinedArgs args else [⟨name, .call head args p⟩]
  | n => [⟨name, n⟩]

/-- The statements of a block with those of its inner blocks in their places, to any depth. -/
def inlinedArgs : List (Arg Node) → List (Arg Node)
  | [] => []
  | a :: rest => inlined a.name a.value ++ inlinedArgs rest

end

mutual

/-- The node is an empty block, or a block that ends with such a block. -/
def endsEmpty : Node → Bool
  | .call head args p => (Node.call head args p).isBlock && endsEmptyArgs args
  | _ => false

/-- There are no statements, or the last one is an empty block or ends with one. -/
def endsEmptyArgs : List (Arg Node) → Bool
  | [] => true
  | [a] => endsEmpty a.value
  | _ :: rest => endsEmptyArgs rest

end

theorem endsEmptyArgs_cons_cons (a b : Arg Node) (rest : List (Arg Node)) :
    endsEmptyArgs (a :: b :: rest) = endsEmptyArgs (b :: rest) := by
  rw [endsEmptyArgs]
  exact nofun

theorem endsEmptyArgs_concat (before : List (Arg Node)) (a : Arg Node) :
    endsEmptyArgs (before ++ [a]) = a.value.endsEmpty := by
  induction before with
  | nil => rw [List.nil_append, endsEmptyArgs]
  | cons b before ih =>
    cases before with
    | nil => rw [← ih]; exact endsEmptyArgs_cons_cons b a []
    | cons d before => rw [← ih]; exact endsEmptyArgs_cons_cons b d (before ++ [a])

/-- No statement that stands for a row of statements is a block, if none of theirs is. -/
theorem inlinedArgs_isBlock_of {args : List (Arg Node)}
    (ih : ∀ a ∈ args, ∀ name, ∀ b ∈ inlined name a.value, b.value.isBlock = false) :
    ∀ b ∈ inlinedArgs args, b.value.isBlock = false := by
  induction args with
  | nil => exact nofun
  | cons a rest tail =>
    obtain ⟨iha, ihrest⟩ := List.forall_mem_cons.mp ih
    intro b hb
    rw [inlinedArgs, List.mem_append] at hb
    rcases hb with hb | hb
    · exact iha a.name b hb
    · exact tail ihrest b hb

theorem inlined_isBlock (n : Node) : ∀ name, ∀ b ∈ inlined name n, b.value.isBlock = false := by
  induction n using Node.ind with
  | call head args p _ ihArgs =>
    intro name b hb
    cases hblock : (Node.call head args p).isBlock with
    | true =>
      rw [inlined, if_pos hblock] at hb
      exact inlinedArgs_isBlock_of ihArgs b hb
    | false =>
      rw [inlined, hblock] at hb
      obtain rfl : b = ⟨name, .call head args p⟩ := List.mem_singleton.mp hb
      exact hblock
  | _ =>
    intro name b hb
    obtain rfl := List.mem_singleton.mp hb
    rfl

/-- Statements in their places are no blocks. -/
theorem inlinedArgs_isBlock (args : List (Arg Node)) :
    ∀ b ∈ inlinedArgs args, b.value.isBlock = false :=
  inlinedArgs_isBlock_of fun a _ => inlined_isBlock a.value

/-! ## Where the statements come from -/

mutual

/-- The places, inside of a statement, of the statements that it stands for. -/
def inlinedPlaces : Node → List Place
  | .call head args p =>
    if (Node.call head args p).isBlock then
      (inlinedArgsPlaces args).map fun x => (x.1 + 1) :: x.2
    else [[]]
  | _ => [[]]

/-- The places that the statements of a block with its inner blocks come from, each of them inside of
a statement of the block, which is given by its number. -/
def inlinedArgsPlaces : List (Arg Node) → List (Nat × Place)
  | [] => []
  | a :: rest =>
    (inlinedPlaces a.value).map (0, ·) ++ (inlinedArgsPlaces rest).map fun x => (x.1 + 1, x.2)

end

/-- Where the statement with a number comes from, in the block. Beyond the last statement there is
nothing that could come from anywhere. -/
def inlinedPlace (args : List (Arg Node)) (i : Nat) : Place :=
  match (inlinedArgsPlaces args)[i]? with
  | some x => (x.1 + 1) :: x.2
  | none => [args.length + i + 1]

/-- Where a place in the block of the statements in their places comes from. -/
def origin (args : List (Arg Node)) : Place → Place
  | (i + 1) :: place => inlinedPlace args i ++ place
  | place => place

/-- There is a place for each statement. -/
theorem length_inlinedArgsPlaces_of {args : List (Arg Node)}
    (ih : ∀ a ∈ args, ∀ name, (inlinedPlaces a.value).length = (inlined name a.value).length) :
    (inlinedArgsPlaces args).length = (inlinedArgs args).length := by
  induction args with
  | nil => rfl
  | cons a rest tail =>
    obtain ⟨iha, ihrest⟩ := List.forall_mem_cons.mp ih
    rw [inlinedArgsPlaces, inlinedArgs, List.length_append, List.length_append, List.length_map,
      List.length_map, iha a.name, tail ihrest]

theorem length_inlinedPlaces (n : Node) :
    ∀ name, (inlinedPlaces n).length = (inlined name n).length := by
  induction n using Node.ind with
  | call head args p _ ihArgs =>
    intro name
    rw [inlinedPlaces, inlined]
    split
    · rw [List.length_map, length_inlinedArgsPlaces_of ihArgs]
    · rfl
  | _ => exact fun name => rfl

/-- The statements come from statements of the block. -/
theorem lt_of_mem_inlinedArgsPlaces {args : List (Arg Node)} {x : Nat × Place}
    (h : x ∈ inlinedArgsPlaces args) : x.1 < args.length := by
  induction args generalizing x with
  | nil => cases h
  | cons a rest ih =>
    rw [inlinedArgsPlaces, List.mem_append, List.mem_map, List.mem_map] at h
    rcases h with ⟨place, -, rfl⟩ | ⟨y, hy, rfl⟩
    · exact Nat.zero_lt_succ _
    · exact Nat.succ_lt_succ (ih hy)

/-- Neither of the places lies in the other one. -/
def Incomparable (x y : Place) : Prop :=
  ¬ x <+: y ∧ ¬ y <+: x

theorem incomparable_cons_cons {i j : Nat} {x y : Place} :
    Incomparable (i :: x) (j :: y) ↔ (i = j → Incomparable x y) := by
  simp only [Incomparable, List.cons_prefix_cons]
  by_cases h : i = j
  · simp [h]
  · simp [h, Ne.symm h]

theorem Incomparable.symm {x y : Place} (h : Incomparable x y) : Incomparable y x :=
  And.symm h

theorem append_ne_of_incomparable {x y : Place} (h : Incomparable x y) (u v : Place) :
    x ++ u ≠ y ++ v := by
  intro heq
  have hx : x <+: y ++ v := heq ▸ List.prefix_append x u
  rcases List.prefix_or_prefix_of_prefix hx (List.prefix_append y v) with hxy | hyx
  · exact h.1 hxy
  · exact h.2 hyx

/-- No two statements come from places one of which lies in the other one. -/
theorem pairwise_inlinedArgsPlaces_of {args : List (Arg Node)}
    (ih : ∀ a ∈ args, (inlinedPlaces a.value).Pairwise Incomparable) :
    (inlinedArgsPlaces args).Pairwise fun x y => x.1 = y.1 → Incomparable x.2 y.2 := by
  induction args with
  | nil => exact .nil
  | cons a rest tail =>
    obtain ⟨iha, ihrest⟩ := List.forall_mem_cons.mp ih
    rw [inlinedArgsPlaces, List.pairwise_append, List.pairwise_map, List.pairwise_map]
    refine ⟨iha.imp fun {x y} hxy (_ : 0 = 0) => hxy, (tail ihrest).imp fun hxy heq => ?_, ?_⟩
    · exact hxy (Nat.succ.inj heq)
    · rintro x hx y hy heq
      obtain ⟨_, -, rfl⟩ := List.mem_map.mp hx
      obtain ⟨_, -, rfl⟩ := List.mem_map.mp hy
      cases heq

theorem pairwise_inlinedPlaces (n : Node) : (inlinedPlaces n).Pairwise Incomparable := by
  induction n using Node.ind with
  | call head args p _ ihArgs =>
    rw [inlinedPlaces]
    split
    · rw [List.pairwise_map]
      refine (pairwise_inlinedArgsPlaces_of ihArgs).imp fun hxy => ?_
      exact incomparable_cons_cons.mpr fun heq => hxy (Nat.succ.inj heq)
    · exact List.pairwise_singleton _ _
  | _ => exact List.pairwise_singleton _ _

theorem incomparable_inlinedPlace_of_lt (args : List (Arg Node)) {i j : Nat} (h : i < j) :
    Incomparable (inlinedPlace args i) (inlinedPlace args j) := by
  have hpairwise := pairwise_inlinedArgsPlaces_of fun a (_ : a ∈ args) =>
    pairwise_inlinedPlaces a.value
  unfold inlinedPlace
  cases hi : (inlinedArgsPlaces args)[i]? with
  | none =>
    have hle : (inlinedArgsPlaces args).length ≤ j :=
      Nat.le_trans (List.getElem?_eq_none_iff.mp hi) (Nat.le_of_lt h)
    rw [List.getElem?_eq_none hle]
    exact incomparable_cons_cons.mpr fun heq => by omega
  | some x =>
    have hx := lt_of_mem_inlinedArgsPlaces (List.mem_of_getElem? hi)
    cases hj : (inlinedArgsPlaces args)[j]? with
    | none => exact incomparable_cons_cons.mpr fun heq => by omega
    | some y =>
      obtain ⟨hilt, rfl⟩ := List.getElem?_eq_some_iff.mp hi
      obtain ⟨hjlt, rfl⟩ := List.getElem?_eq_some_iff.mp hj
      have hxy := List.pairwise_iff_getElem.mp hpairwise i j hilt hjlt h
      exact incomparable_cons_cons.mpr fun heq => hxy (Nat.succ.inj heq)

theorem incomparable_inlinedPlace (args : List (Arg Node)) {i j : Nat} (h : i ≠ j) :
    Incomparable (inlinedPlace args i) (inlinedPlace args j) := by
  rcases Nat.lt_or_gt_of_ne h with hlt | hlt
  · exact incomparable_inlinedPlace_of_lt args hlt
  · exact (incomparable_inlinedPlace_of_lt args hlt).symm

/-- A part of a statement comes from a part of a statement. -/
theorem inlinedPlace_append_eq_cons (args : List (Arg Node)) (i : Nat) (place : Place) :
    ∃ j rest, inlinedPlace args i ++ place = (j + 1) :: rest := by
  unfold inlinedPlace
  cases (inlinedArgsPlaces args)[i]? with
  | some x => exact ⟨x.1, x.2 ++ place, rfl⟩
  | none => exact ⟨args.length + i, place, rfl⟩

/-- What stands in different places comes from different places. -/
theorem origin_injective (args : List (Arg Node)) : Function.Injective (origin args) := by
  -- only the statements of the block move, and they stay statements
  have hmoved : ∀ {x y i} {rest : Place}, x = (i + 1) :: rest → origin args x = origin args y →
      ∃ j rest', y = (j + 1) :: rest' := by
    rintro _ y i rest rfl h
    obtain ⟨j, rest', heq⟩ := inlinedPlace_append_eq_cons args i rest
    have hy : (j + 1) :: rest' = origin args y := heq.symm.trans h
    rcases y with _ | ⟨_ | k, y⟩
    · cases hy
    · cases hy
    · exact ⟨k, y, rfl⟩
  intro x y h
  rcases x with _ | ⟨_ | i, x⟩
  case cons.succ =>
    obtain ⟨j, y, rfl⟩ := hmoved rfl h
    by_cases hij : i = j
    · subst hij
      rw [List.append_cancel_left (h : inlinedPlace args i ++ x = inlinedPlace args i ++ y)]
    · exact absurd h (append_ne_of_incomparable (incomparable_inlinedPlace args hij) x y)
  all_goals
    rcases y with _ | ⟨_ | j, y⟩
    · exact h
    · exact h
    · obtain ⟨_, _, heq⟩ := hmoved rfl h.symm
      cases heq

end Node

namespace Host

/-- A statement in its place has the host that it has had before. -/
theorem arguments_moved_origin (h : Host) {args : List (Arg Node)} {i : Nat} {x : Nat × Place}
    (hx : (Node.inlinedArgsPlaces args)[i]? = some x) :
    (h.moved (Node.origin args)).arguments i = (h.arguments x.1).within x.2 := by
  unfold arguments moved under within
  simp only [Node.origin, Node.inlinedPlace, hx, List.cons_append]

end Host

end RCode
