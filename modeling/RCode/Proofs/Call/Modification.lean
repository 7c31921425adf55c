import Mathlib.Data.List.Forall2
import Mathlib.Data.List.Induction
import Mathlib.Data.List.Nodup
import RCode.Call.Edit
import RCode.Proofs.Failure

/-!
# Changing named arguments

`Call.modify` makes its changes one after the other, each on the call that the one before has left.
`Call.change_eq_ok_iff` says all that one change can do: it drops the arguments of its name, or it puts
an argument in place of the first one of its name, or at the end. From this follows what a list of
changes under different names makes of a call (`Call.modify_updates`): one rule for each argument that
was there (`Call.Carried`), and a new argument for each name that was not. `Call.Rows.change` carries
this over one more change.
-/

set_option autoImplicit false

namespace RCode.Call

/-! ## One change -/

/-- The arguments with an argument of a name: it stands for the first one of that name, or at the
end. -/
def putArg (args : List (Arg Node)) (name : String) (value : Node) : List (Arg Node) :=
  match args with
  | [] => [⟨some name, value⟩]
  | a :: rest =>
    if a.name = some name then ⟨some name, value⟩ :: rest else a :: putArg rest name value

/-- The arguments without those of a name. -/
def dropArgs (args : List (Arg Node)) (name : String) : List (Arg Node) :=
  args.filter fun a => a.name ≠ some name

/-- The change sets its argument to the tree. -/
structure Sets (e : Entry Value) (n : Node) : Prop where
  notNull : e.value.isNull = false
  quoted : e.value.quote = .ok n
  built : Arg.build (some e.name) n = .ok ⟨some e.name, n⟩

theorem build_eq_ok {name : Option String} {n : Node} {a : Arg Node}
    (h : Arg.build name n = .ok a) : a = ⟨name, n⟩ := by
  unfold Arg.build at h
  split at h
  · cases h
  · split at h
    · cases h
    · exact (Except.ok.inj h).symm

/-- Where a name is taken, its first argument is replaced. -/
theorem putArg_of_findIdx? {args : List (Arg Node)} {name : String} {i : Nat}
    (h : (args.findIdx? fun a => a.name = some name) = some i) (n : Node) :
    args[i]?.bind Arg.name = some name ∧ putArg args name n = args.set i ⟨some name, n⟩ := by
  induction args generalizing i with
  | nil => cases h
  | cons a rest ih =>
    rw [List.findIdx?_cons] at h
    by_cases hname : a.name = some name
    · rw [if_pos (decide_eq_true hname)] at h
      obtain rfl := Option.some.inj h
      exact ⟨hname, if_pos hname⟩
    · rw [if_neg (by simpa using hname)] at h
      obtain ⟨k, hk, rfl⟩ := Option.map_eq_some_iff.mp h
      obtain ⟨hfound, hput⟩ := ih hk
      refine ⟨hfound, ?_⟩
      rw [putArg, if_neg hname, hput, List.set_cons_succ]

/-- Where no argument has the name, one is added. -/
theorem putArg_of_not_mem {args : List (Arg Node)} {name : String}
    (h : some name ∉ args.map Arg.name) (n : Node) :
    putArg args name n = args ++ [⟨some name, n⟩] := by
  induction args with
  | nil => rfl
  | cons a rest ih =>
    rw [List.map_cons, List.mem_cons, not_or] at h
    rw [putArg, if_neg (Ne.symm h.1), ih h.2, List.cons_append]

theorem replaceArg_eq_ok_iff {c r : Call} {name : String} {n : Node} (h : some name ∈ c.names) :
    c.replaceArg (.name name) n = .ok r ↔
      Arg.build (some name) n = .ok ⟨some name, n⟩ ∧ r = c.withArgs (putArg c.args name n) := by
  obtain ⟨i, hi⟩ : ∃ i, (c.args.findIdx? fun a => a.name = some name) = some i := by
    rw [← Option.isSome_iff_exists, List.findIdx?_isSome, List.any_eq_true]
    obtain ⟨a, ha, hname⟩ := List.mem_map.mp h
    exact ⟨a, ha, decide_eq_true hname⟩
  obtain ⟨hname, hput⟩ := putArg_of_findIdx? hi n
  simp only [replaceArg, place, hi, ok_bind, hname, bind_eq_ok_iff, mapError_eq_ok_iff, hput]
  constructor
  · rintro ⟨a, ha, hr⟩
    obtain rfl := build_eq_ok ha
    exact ⟨ha, (Except.ok.inj hr).symm⟩
  · rintro ⟨hbuilt, rfl⟩
    exact ⟨_, hbuilt, rfl⟩

theorem addArg_eq_ok_iff {c r : Call} {name : String} {n : Node} (h : some name ∉ c.names) :
    c.addArg n (some name) none = .ok r ↔
      Arg.build (some name) n = .ok ⟨some name, n⟩ ∧ r = c.withArgs (putArg c.args name n) := by
  simp only [addArg, insertionPlace, ok_bind, bind_eq_ok_iff, mapError_eq_ok_iff,
    putArg_of_not_mem h, List.insertIdx_length_self]
  constructor
  · rintro ⟨a, ha, hr⟩
    obtain rfl := build_eq_ok ha
    exact ⟨ha, (Except.ok.inj hr).symm⟩
  · rintro ⟨hbuilt, rfl⟩
    exact ⟨_, hbuilt, rfl⟩

/-- A change drops the arguments of its name, or it puts the tree of its value in place of the first
one, or at the end. -/
theorem change_eq_ok_iff {c r : Call} {e : Entry Value} :
    c.change e.name e.value = .ok r ↔
      (e.value.isNull = true ∧ r = c.withArgs (dropArgs c.args e.name)) ∨
        ∃ n, Sets e n ∧ r = c.withArgs (putArg c.args e.name n) := by
  have hsets : e.value.isNull = false →
      ((∃ n, e.value.quote = .ok n ∧ Arg.build (some e.name) n = .ok ⟨some e.name, n⟩ ∧
          r = c.withArgs (putArg c.args e.name n)) ↔
        ∃ n, Sets e n ∧ r = c.withArgs (putArg c.args e.name n)) := by
    intro hnull
    apply exists_congr
    intro n
    constructor
    · rintro ⟨hquoted, hbuilt, hr⟩
      exact ⟨⟨hnull, hquoted, hbuilt⟩, hr⟩
    · rintro ⟨h, hr⟩
      exact ⟨h.quoted, h.built, hr⟩
  unfold change
  cases hnull : e.value.isNull with
  | true =>
    have hnone : ¬ ∃ n, Sets e n ∧ r = c.withArgs (putArg c.args e.name n) := by
      rintro ⟨n, h, -⟩
      exact absurd (hnull.symm.trans h.notNull) (by decide)
    rw [if_pos rfl, or_iff_left hnone]
    exact ⟨fun h => ⟨rfl, (Except.ok.inj h).symm⟩, fun h => h.2 ▸ rfl⟩
  | false =>
    rw [if_neg Bool.false_ne_true, or_iff_right (fun h => Bool.false_ne_true h.1), ← hsets hnull]
    by_cases hmem : some e.name ∈ c.names
    · rw [if_pos hmem, bind_eq_ok_iff]
      simp only [mapError_eq_ok_iff, replaceArg_eq_ok_iff hmem]
    · rw [if_neg hmem, bind_eq_ok_iff]
      simp only [mapError_eq_ok_iff, addArg_eq_ok_iff hmem]

/-! ## Names after a change -/

theorem get?_putArg (c : Call) (name : String) (n : Node) (name' : String) :
    (c.withArgs (putArg c.args name n)).get? name' =
      if name' = name then some n else c.get? name' := by
  obtain ⟨head, args, p⟩ := c
  simp only [get?, withArgs]
  induction args with
  | nil =>
    by_cases h : name' = name
    · simp [putArg, h]
    · simp [putArg, h, Ne.symm h]
  | cons a rest ih =>
    rw [putArg]
    by_cases hname : a.name = some name
    · rw [if_pos hname]
      by_cases h : name' = name
      · simp [h]
      · -- neither the old nor the new argument has the other name
        have hother : a.name ≠ some name' := by
          rw [hname]
          exact fun heq => h (Option.some.inj heq).symm
        simp [h, hother, Ne.symm h]
    · rw [if_neg hname]
      by_cases hfound : a.name = some name'
      · have h : name' ≠ name := by
          rintro rfl
          exact hname hfound
        simp [hfound, h]
      · simpa [hfound] using ih

theorem get?_dropArgs (c : Call) (name name' : String) :
    (c.withArgs (dropArgs c.args name)).get? name' =
      if name' = name then none else c.get? name' := by
  simp only [get?, withArgs, dropArgs, List.find?_filter]
  by_cases h : name' = name
  · subst h
    simp
  · -- an argument of the other name is not dropped
    rw [if_neg h]
    congr 2
    funext a
    by_cases hfound : a.name = some name'
    · simp [hfound, h]
    · simp [hfound]

/-- The call is as a change wants it: it has no argument of the name, or the first one is the tree. -/
def Holds (c : Call) (e : Entry Value) : Prop :=
  (e.value.isNull = true ∧ c.get? e.name = none) ∨ ∃ n, Sets e n ∧ c.get? e.name = some n

theorem holds_change {c r : Call} {e : Entry Value} (h : c.change e.name e.value = .ok r) :
    r.Holds e := by
  rcases change_eq_ok_iff.mp h with ⟨hnull, rfl⟩ | ⟨n, hsets, rfl⟩
  · exact .inl ⟨hnull, by rw [get?_dropArgs, if_pos rfl]⟩
  · exact .inr ⟨n, hsets, by rw [get?_putArg, if_pos rfl]⟩

/-- A change is seen under its name alone. -/
theorem get?_change {c r : Call} {e : Entry Value} (h : c.change e.name e.value = .ok r)
    {name : String} (hname : name ≠ e.name) : r.get? name = c.get? name := by
  rcases change_eq_ok_iff.mp h with ⟨-, rfl⟩ | ⟨n, -, rfl⟩
  · rw [get?_dropArgs, if_neg hname]
  · rw [get?_putArg, if_neg hname]

/-- Putting what is there changes nothing. -/
theorem putArg_self {c : Call} {name : String} {n : Node} (h : c.get? name = some n) :
    putArg c.args name n = c.args := by
  obtain ⟨head, args, p⟩ := c
  induction args with
  | nil => cases h
  | cons a rest ih =>
    rw [putArg]
    by_cases hname : a.name = some name
    · obtain ⟨given, value⟩ := a
      obtain rfl : given = some name := hname
      have hvalue : value = n := by simpa [get?] using h
      rw [if_pos rfl, hvalue]
    · rw [if_neg hname]
      exact congrArg (List.cons a) (ih (by simpa [get?, hname] using h))

theorem dropArgs_self {c : Call} {name : String} (h : c.get? name = none) :
    dropArgs c.args name = c.args := by
  rw [dropArgs, List.filter_eq_self]
  simpa [get?, List.find?_eq_none] using h

/-- A change that holds changes nothing. -/
theorem change_of_holds {c : Call} {e : Entry Value} (h : c.Holds e) :
    c.change e.name e.value = .ok c := by
  apply change_eq_ok_iff.mpr
  rcases h with ⟨hnull, hnone⟩ | ⟨n, hsets, hsome⟩
  · exact .inl ⟨hnull, by rw [dropArgs_self hnone]; rfl⟩
  · exact .inr ⟨n, hsets, by rw [putArg_self hsome]; rfl⟩

/-! ## Rows of arguments -/

/-- No change is about the argument. -/
def isUntouched (changes : List (Entry Value)) (a : Arg Node) : Bool :=
  a.name.all fun name => name ∉ changes.map Entry.name

/-- What changes make of a row of arguments, behind arguments that have taken new values under the
names `seen`. -/
inductive Carried (changes : List (Entry Value)) :
    List String → List (Arg Node) → List (Arg Node) → Prop where
  | nil (seen : List String) : Carried changes seen [] []
  /-- An argument that no change is about stays what it is. -/
  | untouched {seen : List String} {a : Arg Node} {args new : List (Arg Node)} :
      isUntouched changes a = true → Carried changes seen args new →
        Carried changes seen (a :: args) (a :: new)
  /-- The first argument of a name takes the new value at its place. -/
  | replaced {seen : List String} {e : Entry Value} {value n : Node} {args new : List (Arg Node)} :
      e ∈ changes → Sets e n → e.name ∉ seen → Carried changes (e.name :: seen) args new →
        Carried changes seen (⟨some e.name, value⟩ :: args) (⟨some e.name, n⟩ :: new)
  /-- Further arguments of that name stay what they are. -/
  | repeated {seen : List String} {e : Entry Value} {value : Node} {args new : List (Arg Node)} :
      e ∈ changes → e.value.isNull = false → e.name ∈ seen → Carried changes seen args new →
        Carried changes seen (⟨some e.name, value⟩ :: args) (⟨some e.name, value⟩ :: new)
  /-- All arguments of a removed name go. -/
  | removed {seen : List String} {e : Entry Value} {value : Node} {args new : List (Arg Node)} :
      e ∈ changes → e.value.isNull = true → Carried changes seen args new →
        Carried changes seen (⟨some e.name, value⟩ :: args) new

variable {changes : List (Entry Value)} {seen : List String} {args new : List (Arg Node)}
  {e : Entry Value} {n : Node}

theorem isUntouched_concat {a : Arg Node} :
    isUntouched (changes ++ [e]) a = true ↔ isUntouched changes a = true ∧ a.name ≠ some e.name := by
  obtain ⟨name, value⟩ := a
  cases name with
  | none => simp [isUntouched]
  | some name => simp [isUntouched, not_or]

theorem isUntouched_named (h : e ∈ changes) (value : Node) :
    isUntouched changes ⟨some e.name, value⟩ = false := by
  have hmem : e.name ∈ changes.map Entry.name := List.mem_map_of_mem h
  simp only [isUntouched, Option.all_some, hmem, not_true_eq_false, decide_false]

theorem distinct_concat (h : ((changes ++ [e]).map Entry.name).Nodup) :
    (changes.map Entry.name).Nodup ∧ e.name ∉ changes.map Entry.name := by
  rw [List.map_append, List.nodup_append] at h
  obtain ⟨hbefore, -, hother⟩ := h
  exact ⟨hbefore, fun hmem => hother _ hmem _ (List.mem_singleton_self _) rfl⟩

theorem ne_of_new (hnew : e.name ∉ changes.map Entry.name) {d : Entry Value} (hd : d ∈ changes) :
    d.name ≠ e.name := by
  intro heq
  exact hnew (heq ▸ List.mem_map_of_mem hd)

namespace Carried

theorem refl (seen : List String) (args : List (Arg Node)) : Carried [] seen args args := by
  induction args with
  | nil => exact .nil seen
  | cons a rest ih =>
    apply untouched _ ih
    cases hname : a.name with
    | none => simp [isUntouched, hname]
    | some name => simp [isUntouched, hname]

/-- Changes leave the arguments of other names there. -/
theorem mem_names (h : Carried changes seen args new) {name : String}
    (hname : name ∉ changes.map Entry.name) :
    some name ∈ new.map Arg.name ↔ some name ∈ args.map Arg.name := by
  have hother : ∀ e ∈ changes, some name ≠ some e.name := by
    intro e he heq
    exact hname (Option.some.inj heq ▸ List.mem_map_of_mem he)
  induction h with
  | nil => exact Iff.rfl
  | untouched _ _ ih => simp only [List.map_cons, List.mem_cons, ih]
  | replaced he _ _ _ ih => simp only [List.map_cons, List.mem_cons, ih]
  | repeated he _ _ _ ih => simp only [List.map_cons, List.mem_cons, ih]
  | removed he _ _ ih => simp only [List.map_cons, List.mem_cons, ih, hother _ he, false_or]

/-- The arguments that no change is about are the same, in the same order. -/
theorem filter_isUntouched (h : Carried changes seen args new) :
    new.filter (isUntouched changes) = args.filter (isUntouched changes) := by
  induction h with
  | nil => rfl
  | untouched ha _ ih => rw [List.filter_cons_of_pos ha, List.filter_cons_of_pos ha, ih]
  | replaced he _ _ _ ih =>
    simp only [List.filter_cons, isUntouched_named he, Bool.false_eq_true, if_false, ih]
  | repeated he _ _ _ ih =>
    simp only [List.filter_cons, isUntouched_named he, Bool.false_eq_true, if_false, ih]
  | removed he _ _ ih =>
    simp only [List.filter_cons, isUntouched_named he, Bool.false_eq_true, if_false, ih]

/-- One more change, about a name that no argument has. -/
theorem absent (h : Carried changes seen args new) (hnone : some e.name ∉ new.map Arg.name) :
    Carried (changes ++ [e]) seen args new := by
  induction h with
  | nil seen => exact .nil seen
  | untouched ha _ ih =>
    rw [List.map_cons, List.mem_cons, not_or] at hnone
    exact .untouched (isUntouched_concat.mpr ⟨ha, Ne.symm hnone.1⟩) (ih hnone.2)
  | replaced he hsets hseen _ ih =>
    rw [List.map_cons, List.mem_cons, not_or] at hnone
    exact .replaced (List.mem_append_left _ he) hsets hseen (ih hnone.2)
  | repeated he hnull hseen _ ih =>
    rw [List.map_cons, List.mem_cons, not_or] at hnone
    exact .repeated (List.mem_append_left _ he) hnull hseen (ih hnone.2)
  | removed he hnull _ ih => exact .removed (List.mem_append_left _ he) hnull (ih hnone)

/-- One more change, which removes its arguments. -/
theorem drop (h : Carried changes seen args new) (hnew : e.name ∉ changes.map Entry.name)
    (hnull : e.value.isNull = true) :
    Carried (changes ++ [e]) seen args (dropArgs new e.name) := by
  have hlast : e ∈ changes ++ [e] := List.mem_concat_self
  have hkept : ∀ d ∈ changes, ∀ value rest, dropArgs (⟨some d.name, value⟩ :: rest) e.name =
      ⟨some d.name, value⟩ :: dropArgs rest e.name := by
    intro d hd value rest
    exact List.filter_cons_of_pos (by simpa using ne_of_new hnew hd)
  induction h with
  | nil seen => exact .nil seen
  | @untouched _ a _ rest ha _ ih =>
    by_cases hname : a.name = some e.name
    · obtain ⟨name, value⟩ := a
      obtain rfl : name = some e.name := hname
      have hdrop : dropArgs (⟨some e.name, value⟩ :: rest) e.name = dropArgs rest e.name :=
        List.filter_cons_of_neg (by simp)
      rw [hdrop]
      exact .removed hlast hnull ih
    · have hdrop : dropArgs (a :: rest) e.name = a :: dropArgs rest e.name :=
        List.filter_cons_of_pos (by simpa using hname)
      rw [hdrop]
      exact .untouched (isUntouched_concat.mpr ⟨ha, hname⟩) ih
  | replaced he hsets hseen _ ih =>
    rw [hkept _ he]
    exact .replaced (List.mem_append_left _ he) hsets hseen ih
  | repeated he hnull' hseen _ ih =>
    rw [hkept _ he]
    exact .repeated (List.mem_append_left _ he) hnull' hseen ih
  | removed he hnull' _ ih => exact .removed (List.mem_append_left _ he) hnull' ih

/-- One more change, which has already replaced the first argument of its name. -/
theorem behind (h : Carried changes seen args new) (hnew : e.name ∉ changes.map Entry.name)
    (hnull : e.value.isNull = false) {seen' : List String}
    (hseen' : ∀ name, name ∈ seen' ↔ name = e.name ∨ name ∈ seen) :
    Carried (changes ++ [e]) seen' args new := by
  have hlast : e ∈ changes ++ [e] := List.mem_concat_self
  induction h generalizing seen' with
  | nil => exact .nil seen'
  | @untouched seen a _ _ ha _ ih =>
    by_cases hname : a.name = some e.name
    · obtain ⟨name, value⟩ := a
      obtain rfl : name = some e.name := hname
      exact .repeated hlast hnull ((hseen' _).mpr (.inl rfl)) (ih hseen')
    · exact .untouched (isUntouched_concat.mpr ⟨ha, hname⟩) (ih hseen')
  | @replaced seen d _ _ _ _ he hsets hseen _ ih =>
    have hnot : d.name ∉ seen' := by
      rw [hseen', not_or]
      exact ⟨ne_of_new hnew he, hseen⟩
    refine .replaced (List.mem_append_left _ he) hsets hnot (ih fun name => ?_)
    rw [List.mem_cons, List.mem_cons, hseen', or_left_comm]
  | repeated he hnull' hseen _ ih =>
    exact .repeated (List.mem_append_left _ he) hnull' ((hseen' _).mpr (.inr hseen)) (ih hseen')
  | removed he hnull' _ ih => exact .removed (List.mem_append_left _ he) hnull' (ih hseen')

/-- One more change, which sets an argument that is there. -/
theorem put (h : Carried changes seen args new) (hnew : e.name ∉ changes.map Entry.name)
    (hsets : Sets e n) (hseen : e.name ∉ seen) (hsome : some e.name ∈ new.map Arg.name) :
    Carried (changes ++ [e]) seen args (putArg new e.name n) := by
  have hlast : e ∈ changes ++ [e] := List.mem_concat_self
  have hskip : ∀ d ∈ changes, ∀ value rest, putArg (⟨some d.name, value⟩ :: rest) e.name n =
      ⟨some d.name, value⟩ :: putArg rest e.name n := by
    intro d hd value rest
    exact if_neg fun heq => ne_of_new hnew hd (Option.some.inj heq)
  have hrest : ∀ d ∈ changes, ∀ value rest,
      some e.name ∈ (⟨some d.name, value⟩ :: rest : List (Arg Node)).map Arg.name →
        some e.name ∈ rest.map Arg.name := by
    intro d hd value rest hmem
    rw [List.map_cons, List.mem_cons] at hmem
    exact hmem.resolve_left fun heq => ne_of_new hnew hd (Option.some.inj heq).symm
  induction h with
  | nil => cases hsome
  | @untouched seen a _ rest ha htail ih =>
    by_cases hname : a.name = some e.name
    · -- this is the first argument of the name, and all further ones lie behind it
      obtain ⟨name, value⟩ := a
      obtain rfl : name = some e.name := hname
      have hput : putArg (⟨some e.name, value⟩ :: rest) e.name n = ⟨some e.name, n⟩ :: rest :=
        if_pos rfl
      rw [hput]
      refine .replaced hlast hsets hseen (htail.behind hnew hsets.notNull fun name => ?_)
      exact List.mem_cons
    · rw [List.map_cons, List.mem_cons] at hsome
      rw [putArg, if_neg hname]
      exact .untouched (isUntouched_concat.mpr ⟨ha, hname⟩)
        (ih hseen (hsome.resolve_left (Ne.symm hname)))
  | @replaced seen d _ _ _ _ he hsets' hseen' _ ih =>
    have hnot : e.name ∉ d.name :: seen := by
      rw [List.mem_cons, not_or]
      exact ⟨(ne_of_new hnew he).symm, hseen⟩
    rw [hskip _ he]
    exact .replaced (List.mem_append_left _ he) hsets' hseen' (ih hnot (hrest _ he _ _ hsome))
  | repeated he hnull hseen' _ ih =>
    rw [hskip _ he]
    exact .repeated (List.mem_append_left _ he) hnull hseen' (ih hseen (hrest _ he _ _ hsome))
  | removed he hnull _ ih => exact .removed (List.mem_append_left _ he) hnull (ih hseen hsome)

end Carried

/-! ## Lists of changes -/

theorem modify_concat (c : Call) (changes : List (Entry Value)) (e : Entry Value) :
    c.modify (changes ++ [e]) = c.modify changes >>= fun r => r.change e.name e.value := by
  rw [modify, List.foldlM_append]
  congr 1
  funext r
  exact bind_pure _

theorem head_change {c r : Call} (h : c.change e.name e.value = .ok r) :
    r.head = c.head ∧ r.position = c.position := by
  rcases change_eq_ok_iff.mp h with ⟨-, rfl⟩ | ⟨n, -, rfl⟩
  · exact ⟨rfl, rfl⟩
  · exact ⟨rfl, rfl⟩

theorem head_modify {c r : Call} (h : c.modify changes = .ok r) :
    r.head = c.head ∧ r.position = c.position := by
  induction changes using List.reverseRecOn generalizing r with
  | nil =>
    obtain rfl := Except.ok.inj h
    exact ⟨rfl, rfl⟩
  | append_singleton changes e ih =>
    rw [modify_concat] at h
    obtain ⟨mid, hmid, hlast⟩ := bind_eq_ok h
    obtain ⟨hhead, hposition⟩ := ih hmid
    obtain ⟨hhead', hposition'⟩ := head_change hlast
    exact ⟨hhead'.trans hhead, hposition'.trans hposition⟩

/-- After changes under different names all of them hold: none undoes another. -/
theorem holds_modify {c r : Call} (hdistinct : (changes.map Entry.name).Nodup)
    (h : c.modify changes = .ok r) : ∀ e ∈ changes, r.Holds e := by
  induction changes using List.reverseRecOn generalizing r with
  | nil => exact List.forall_mem_nil _
  | append_singleton changes last ih =>
    rw [modify_concat] at h
    obtain ⟨mid, hmid, hlast⟩ := bind_eq_ok h
    obtain ⟨hbefore, hnew⟩ := distinct_concat hdistinct
    intro e he
    rcases List.mem_append.mp he with he | he
    · have hholds := ih hbefore hmid e he
      rw [Holds, get?_change hlast (ne_of_new hnew he)]
      exact hholds
    · rw [List.mem_singleton.mp he]
      exact holds_change hlast

theorem modify_of_holds {c : Call} (h : ∀ e ∈ changes, c.Holds e) : c.modify changes = .ok c := by
  induction changes with
  | nil => rfl
  | cons e rest ih =>
    obtain ⟨hfirst, hrest⟩ := List.forall_mem_cons.mp h
    rw [modify, List.foldlM_cons, change_of_holds hfirst]
    exact ih hrest

/-- The change adds an argument to the call. -/
def adds (c : Call) (e : Entry Value) : Bool :=
  !e.value.isNull && !c.names.contains (some e.name)

/-- The argument is the one that the change adds. -/
def IsAdded (e : Entry Value) (a : Arg Node) : Prop :=
  a.name = some e.name ∧ Sets e a.value

theorem putArg_append {args added : List (Arg Node)} {name : String}
    (h : some name ∈ args.map Arg.name) (n : Node) :
    putArg (args ++ added) name n = putArg args name n ++ added := by
  induction args with
  | nil => cases h
  | cons a rest ih =>
    rw [List.cons_append, putArg, putArg]
    by_cases hname : a.name = some name
    · rw [if_pos hname, if_pos hname, List.cons_append]
    · rw [List.map_cons, List.mem_cons] at h
      rw [if_neg hname, if_neg hname, ih (h.resolve_left (Ne.symm hname)), List.cons_append]

theorem names_of_isAdded {es : List (Entry Value)} {added : List (Arg Node)}
    (h : List.Forall₂ IsAdded es added) : added.map Arg.name = es.map fun e => some e.name := by
  induction h with
  | nil => rfl
  | cons hadded _ ih => rw [List.map_cons, List.map_cons, hadded.1, ih]

/-- The rows of a changed call: what the arguments of the call have become, and behind them the added
ones, in the order of the changes. -/
structure Rows (c : Call) (changes : List (Entry Value)) (old added : List (Arg Node)) : Prop where
  carried : Carried changes [] c.args old
  isAdded : List.Forall₂ IsAdded (changes.filter c.adds) added

namespace Rows

variable {c : Call} {old added : List (Arg Node)}

/-- The arguments added so far have other names than the next change. -/
theorem not_mem_added (h : Rows c changes old added) (hnew : e.name ∉ changes.map Entry.name) :
    some e.name ∉ added.map Arg.name := by
  rw [names_of_isAdded h.isAdded]
  intro hmem
  obtain ⟨d, hd, hname⟩ := List.mem_map.mp hmem
  exact ne_of_new hnew (List.mem_filter.mp hd).1 (Option.some.inj hname)

theorem isAdded_concat (h : Rows c changes old added) (hadds : c.adds e = false) :
    List.Forall₂ IsAdded ((changes ++ [e]).filter c.adds) added := by
  rw [List.filter_append, List.filter_cons_of_neg (Bool.eq_false_iff.mp hadds), List.filter_nil,
    List.append_nil]
  exact h.isAdded

/-- A removal is seen among the old arguments only. -/
theorem drop (h : Rows c changes old added) (hnew : e.name ∉ changes.map Entry.name)
    (hnull : e.value.isNull = true) :
    dropArgs (old ++ added) e.name = dropArgs old e.name ++ added ∧
      Rows c (changes ++ [e]) (dropArgs old e.name) added := by
  have hadds : c.adds e = false := by simp [adds, hnull]
  have hkept : dropArgs added e.name = added := by
    rw [dropArgs, List.filter_eq_self]
    intro a ha
    have hne : a.name ≠ some e.name :=
      fun heq => h.not_mem_added hnew (heq ▸ List.mem_map_of_mem ha)
    simpa using hne
  refine ⟨?_, h.carried.drop hnew hnull, h.isAdded_concat hadds⟩
  calc dropArgs (old ++ added) e.name
      = dropArgs old e.name ++ dropArgs added e.name := List.filter_append _ _
    _ = dropArgs old e.name ++ added := by rw [hkept]

/-- A new value for an old argument leaves the added ones alone. -/
theorem put (h : Rows c changes old added) (hnew : e.name ∉ changes.map Entry.name)
    (hsets : Sets e n) (hmem : some e.name ∈ old.map Arg.name) :
    putArg (old ++ added) e.name n = putArg old e.name n ++ added ∧
      Rows c (changes ++ [e]) (putArg old e.name n) added := by
  have hname : some e.name ∈ c.names := (h.carried.mem_names hnew).mp hmem
  have hadds : c.adds e = false := by simp [adds, hname]
  exact ⟨putArg_append hmem n, h.carried.put hnew hsets List.not_mem_nil hmem,
    h.isAdded_concat hadds⟩

/-- A new name stands behind all others. -/
theorem add (h : Rows c changes old added) (hnew : e.name ∉ changes.map Entry.name)
    (hsets : Sets e n) (hmem : some e.name ∉ old.map Arg.name) :
    putArg (old ++ added) e.name n = old ++ (added ++ [⟨some e.name, n⟩]) ∧
      Rows c (changes ++ [e]) old (added ++ [⟨some e.name, n⟩]) := by
  have hname : some e.name ∉ c.names := mt (h.carried.mem_names hnew).mpr hmem
  have hadds : c.adds e = true := by simp [adds, hsets.notNull, hname]
  have hfree : some e.name ∉ (old ++ added).map Arg.name := by
    rw [List.map_append, List.mem_append, not_or]
    exact ⟨hmem, h.not_mem_added hnew⟩
  refine ⟨?_, h.carried.absent hmem, ?_⟩
  · rw [putArg_of_not_mem hfree, List.append_assoc]
  · rw [List.filter_append, List.filter_cons_of_pos hadds]
    exact List.rel_append h.isAdded (.cons ⟨rfl, hsets⟩ .nil)

/-- What one more change makes of the rows. -/
theorem change (h : Rows c changes old added) (hnew : e.name ∉ changes.map Entry.name)
    {mid r : Call} (hmid : mid.args = old ++ added) (hchange : mid.change e.name e.value = .ok r) :
    ∃ old' added', r.args = old' ++ added' ∧ Rows c (changes ++ [e]) old' added' := by
  rcases change_eq_ok_iff.mp hchange with ⟨hnull, rfl⟩ | ⟨n, hsets, rfl⟩
  · obtain ⟨hargs, hrows⟩ := h.drop hnew hnull
    exact ⟨_, _, (congrArg (dropArgs · e.name) hmid).trans hargs, hrows⟩
  · by_cases hmem : some e.name ∈ old.map Arg.name
    · obtain ⟨hargs, hrows⟩ := h.put hnew hsets hmem
      exact ⟨_, _, (congrArg (putArg · e.name n) hmid).trans hargs, hrows⟩
    · obtain ⟨hargs, hrows⟩ := h.add hnew hsets hmem
      exact ⟨_, _, (congrArg (putArg · e.name n) hmid).trans hargs, hrows⟩

end Rows

theorem exists_rows {c r : Call} (hdistinct : (changes.map Entry.name).Nodup)
    (h : c.modify changes = .ok r) :
    ∃ old added, r.args = old ++ added ∧ Rows c changes old added := by
  induction changes using List.reverseRecOn generalizing r with
  | nil =>
    obtain rfl := Except.ok.inj h
    exact ⟨c.args, [], (List.append_nil _).symm, .refl [] c.args, .nil⟩
  | append_singleton changes e ih =>
    rw [modify_concat] at h
    obtain ⟨mid, hmid, hlast⟩ := bind_eq_ok h
    obtain ⟨hbefore, hnew⟩ := distinct_concat hdistinct
    obtain ⟨old, added, hargs, hrows⟩ := ih hbefore hmid
    exact hrows.change hnew hargs hlast

/-- What changes under different names make of a call, where they succeed. Head and position stay.
Under each changed name there is the tree of the new value, or nothing if the value is NULL. The
arguments that no change is about are the same in the same order, and all arguments follow the rules of
`Carried`; behind them stand those of the new names, in the order of the changes. The same changes once
more leave the changed call as it is. -/
theorem modify_updates {c r : Call} {changes : List (Entry Value)}
    (hdistinct : (changes.map Entry.name).Nodup) (h : c.modify changes = .ok r) :
    (r.head = c.head ∧ r.position = c.position) ∧
      (∀ e ∈ changes, if e.value.isNull = true then r.get? e.name = none
        else ∃ n, e.value.quote = .ok n ∧ r.get? e.name = some n) ∧
      r.args.filter (isUntouched changes) = c.args.filter (isUntouched changes) ∧
      (∃ old added, r.args = old ++ added ∧ Carried changes [] c.args old ∧
        List.Forall₂ IsAdded (changes.filter c.adds) added) ∧
      r.modify changes = .ok r := by
  have hholds := holds_modify hdistinct h
  obtain ⟨old, added, hargs, hold, hadded⟩ := exists_rows hdistinct h
  refine ⟨head_modify h, ?_, ?_, ⟨old, added, hargs, hold, hadded⟩, modify_of_holds hholds⟩
  · intro e he
    rcases hholds e he with ⟨hnull, hnone⟩ | ⟨n, hsets, hsome⟩
    · rw [if_pos hnull]
      exact hnone
    · rw [if_neg (Bool.eq_false_iff.mp hsets.notNull)]
      exact ⟨n, hsets.quoted, hsome⟩
  · have hnone : added.filter (isUntouched changes) = [] := by
      rw [List.filter_eq_nil_iff]
      intro a ha
      have hname := List.mem_map_of_mem (f := Arg.name) ha
      rw [names_of_isAdded hadded] at hname
      obtain ⟨e, he, heq⟩ := List.mem_map.mp hname
      obtain ⟨name, value⟩ := a
      obtain rfl : some e.name = name := heq
      rw [isUntouched_named (List.mem_filter.mp he).1]
      exact Bool.false_ne_true
    rw [hargs, List.filter_append, hnone, List.append_nil, hold.filter_isUntouched]

/-- In `f(a = x, y, b = x, a = y)` the first `a` is set, `b` removed and `d` added. -/
theorem modify_updates_repeated :
    let x : Node := .symbol "x" ⟨1, 3⟩
    let y : Node := .symbol "y" ⟨1, 8⟩
    let c : Call := ⟨.symbol "f" ⟨1, 1⟩,
      [⟨some "a", x⟩, ⟨none, y⟩, ⟨some "b", x⟩, ⟨some "a", y⟩], ⟨1, 1⟩⟩
    let changes : List (Entry Value) := [⟨"d", .text "z"⟩, ⟨"b", .null⟩, ⟨"a", .node y⟩]
    let r : Call := ⟨.symbol "f" ⟨1, 1⟩, [⟨some "a", y⟩, ⟨none, y⟩, ⟨some "a", y⟩,
      ⟨some "d", .constant (.text "z") .nowhere⟩], ⟨1, 1⟩⟩
    (changes.map Entry.name).Nodup ∧ c.modify changes = .ok r ∧ r.get? "b" = none ∧
      r.modify changes = .ok r := by
  intro x y c changes r
  have hdistinct : (changes.map Entry.name).Nodup := by decide
  have h : c.modify changes = .ok r := rfl
  obtain ⟨-, hget, -, -, hagain⟩ := modify_updates hdistinct h
  exact ⟨hdistinct, h, hget ⟨"b", .null⟩ (by simp [changes]), hagain⟩

end RCode.Call
