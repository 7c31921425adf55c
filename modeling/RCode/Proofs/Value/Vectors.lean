import RCode.Proofs.Value.WellFormed

/-!
# Vectors

The functions on vectors see no more of their values than the items in them, at any depth
(`Builtin.apply_of_flatten`). A vector that `c` has made has the items of its values
(`Value.flattenOne_combine`), whether it is a single item, a list of several or an empty list. So
vectors within vectors, lists and NULL make no difference (`Builtin.apply_written_out`).
-/

set_option autoImplicit false

namespace RCode

namespace Value

/-! ## Items -/

/-- The value is one item of a vector: neither a list nor NULL. -/
def isItem : Value → Bool
  | .list _ => false
  | .atom .null => false
  | _ => true

theorem flattenOne_of_isItem {v : Value} (h : v.isItem = true) : v.flattenOne = [v] := by
  cases v with
  | list items => cases h
  | atom a =>
    cases a with
    | null => cases h
    | _ => rfl
  | _ => rfl

/-- A row of items is a vector of these items. -/
theorem flatten_of_isItem {values : List Value} (h : ∀ v ∈ values, v.isItem = true) :
    flatten values = values := by
  induction values with
  | nil => rfl
  | cons v rest ih =>
    obtain ⟨hv, hrest⟩ := List.forall_mem_cons.mp h
    rw [flatten, flattenOne_of_isItem hv, ih hrest]
    rfl

mutual

theorem isItem_of_mem_flattenOne : (v : Value) → ∀ item ∈ v.flattenOne, item.isItem = true
  | .list items => isItem_of_mem_flatten items
  | .atom .null => List.forall_mem_nil _
  | .atom (.logical _) | .atom (.integer _) | .atom (.double _) | .atom (.nan _)
  | .atom (.text _) | .dict _ | .function _ | .node _ => List.forall_mem_singleton.mpr rfl

/-- What a vector consists of are items, however deep its lists are. -/
theorem isItem_of_mem_flatten : (values : List Value) → ∀ item ∈ flatten values, item.isItem = true
  | [] => List.forall_mem_nil _
  | v :: rest =>
    List.forall_mem_append.mpr ⟨isItem_of_mem_flattenOne v, isItem_of_mem_flatten rest⟩

end

theorem flatten_append (as bs : List Value) : flatten (as ++ bs) = flatten as ++ flatten bs := by
  rw [flatten_eq, flatten_eq, flatten_eq, List.flatMap_append]

/-- The items in the middle of a row are those of the value that stands there. -/
theorem flatten_between (before after : List Value) (v : Value) :
    flatten (before ++ v :: after) = flatten before ++ v.flattenOne ++ flatten after := by
  rw [flatten_append, flatten, List.append_assoc]

theorem flatten_flatten (values : List Value) : flatten (flatten values) = flatten values :=
  flatten_of_isItem (isItem_of_mem_flatten values)

/-- A vector that was put together has the items of its values. -/
theorem flattenOne_combine (values : List Value) :
    (combine values).flattenOne = flatten values := by
  have hitems := isItem_of_mem_flatten values
  unfold combine
  -- a single item is its own vector, and any other row of items is a list
  split
  · next v heq =>
    have hv : v.isItem = true := hitems v (heq ▸ List.mem_cons_self)
    rw [flattenOne_of_isItem hv, heq]
  · rw [flattenOne, flatten_flatten]

theorem combine_of_flatten {as bs : List Value} (h : flatten as = flatten bs) :
    combine as = combine bs := by
  rw [combine, combine, h]

end Value

namespace Builtin

open Value Signature Application

/-- The functions that take all their values as one vector. -/
def onVectors : List Builtin :=
  [.combine, .sum, .paste, .pasteTight]

/-- A function on vectors gives the same for values with the same items. -/
theorem apply_of_flatten {f : Builtin} (hf : f ∈ onVectors) {as bs : List Value}
    (h : flatten as = flatten bs) (w : Workspace) (named : List (Entry Value)) :
    f.apply w as named = f.apply w bs named := by
  have hpaste : ∀ separator, Value.paste separator as = Value.paste separator bs := by
    intro separator
    rw [Value.paste, Value.paste, h]
  simp only [onVectors, List.mem_cons, List.not_mem_nil, or_false] at hf
  rcases hf with rfl | rfl | rfl | rfl
  · simp only [apply, variadic, combine_of_flatten h]
  · simp only [apply, variadic, Value.sum, h]
  · simp only [apply, hpaste]
  · simp only [apply, variadic, hpaste]

/-- What the functions on vectors make of vectors within vectors. The values of `ys` can always be
put together. If the vector, or a list of these values, is given among others to one of the
functions, it gives the same as for the values themselves, or fails in the same way; a NULL can be
left out. A vector put together once more is the same vector. If the values are items, it is the only
one of them or a list of them. -/
theorem apply_written_out (xs ys zs : List Value) :
    ∃ v, (∀ w, combine.apply w ys [] = .ok v) ∧
      (∀ f ∈ onVectors, ∀ (w : Workspace) (named : List (Entry Value)),
        f.apply w (xs ++ v :: zs) named = f.apply w (xs ++ ys ++ zs) named ∧
          f.apply w (xs ++ .list ys :: zs) named = f.apply w (xs ++ ys ++ zs) named ∧
          f.apply w (xs ++ .null :: zs) named = f.apply w (xs ++ zs) named) ∧
      (∀ w, combine.apply w [v] [] = .ok v) ∧
      ((∀ y ∈ ys, y.isItem = true) → ys = [v] ∨ ys.length ≠ 1 ∧ v = .list ys) := by
  have hrow : flatten (xs ++ ys ++ zs) = flatten xs ++ flatten ys ++ flatten zs := by
    rw [flatten_append, flatten_append]
  refine ⟨Value.combine ys, fun _ => rfl, fun f hf w named => ⟨?_, ?_, ?_⟩, fun _ => ?_, ?_⟩
  · apply apply_of_flatten hf
    rw [flatten_between, flattenOne_combine, hrow]
  · apply apply_of_flatten hf
    rw [flatten_between, flattenOne, hrow]
  · apply apply_of_flatten hf
    rw [flatten_between, flatten_append]
    exact congrArg (· ++ flatten zs) (List.append_nil _)
  · -- a vector has the same items as the vector of this vector
    have hitems : flatten [Value.combine ys] = flatten ys := by
      rw [flatten, flattenOne_combine]
      exact List.append_nil _
    exact congrArg Except.ok (combine_of_flatten hitems)
  · intro hitems
    rw [Value.combine, flatten_of_isItem hitems]
    split
    · exact .inl rfl
    · next hne =>
      refine .inr ⟨fun hone => ?_, rfl⟩
      obtain ⟨y, rfl⟩ := List.length_eq_one_iff.mp hone
      exact hne y rfl

end Builtin

end RCode
