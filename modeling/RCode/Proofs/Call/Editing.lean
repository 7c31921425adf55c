import RCode.Proofs.Call.Modification
import RCode.Proofs.Node.Erasure
import RCode.Proofs.Value.WellFormed

/-!
# Edits of calls and what undoes them

An edit is about one argument, which stands between those before and those behind it: the argument
that its key means (`ArgKey.Means`), or the new one at its place. What an edit does is said once
for each kind (`Call.replaceArg_of_means`, `Call.removeArg_of_means`, `Call.addArg_of_place`); that
edits undo each other follows (`Call.edits_undone`). In a sequence of edits those that fail leave no
trace, since the call goes on as it was (`Call.foldlM_performed`).
-/

set_option autoImplicit false

namespace RCode

/-- The key means the argument between two rows of others. Places are counted from either end, and a
name means the first argument that has it. -/
inductive ArgKey.Means : ArgKey → List (Arg Node) → Arg Node → List (Arg Node) → Prop where
  | fromStart (before : List (Arg Node)) (a : Arg Node) (after : List (Arg Node)) :
      Means (.index before.length) before a after
  | fromEnd (before : List (Arg Node)) (a : Arg Node) (after : List (Arg Node)) :
      Means (.index (-(after.length + 1 : Nat))) before a after
  | named {before : List (Arg Node)} {s : String} (value : Node) (after : List (Arg Node)) :
      some s ∉ before.map Arg.name → Means (.name s) before ⟨some s, value⟩ after

namespace Call

variable {c r : Call} {key : ArgKey} {before after : List (Arg Node)} {a : Arg Node} {v : Node}

/-! ## Keys -/

/-- The error of a key that means no argument. An index that is too long for its message gives the
error of a number that cannot be written. -/
def noArgument (c : Call) : ArgKey → EditError
  | .index i => if Text.isShort i then .noSuchIndex c.args.length i else .node .unwritable
  | .name s => .noSuchName s

/-- A place from either end is the rest of its division by the number of arguments. -/
theorem place_index {i : Int} (h : -(c.args.length : Int) ≤ i ∧ i < c.args.length) :
    c.place (.index i) = .ok (i % c.args.length).toNat :=
  if_pos h

theorem place_of_means (hargs : c.args = before ++ a :: after) (h : key.Means before a after) :
    c.place key = .ok before.length := by
  have hcount : c.args.length = before.length + (after.length + 1) := by
    rw [hargs, List.length_append, List.length_cons]
  -- both places leave the same rest
  have hrest : ((before.length : Int) % (c.args.length : Int)).toNat = before.length := by
    rw [Int.emod_eq_of_lt (by omega) (by omega), Int.toNat_natCast]
  cases h with
  | fromStart => rw [place_index (by omega), hrest]
  | fromEnd =>
    have hshift : (-(after.length + 1 : Nat) : Int) % (c.args.length : Int) =
        (before.length : Int) % (c.args.length : Int) := by
      rw [← Int.add_emod_right]
      congr 1
      omega
    rw [place_index (by omega), hshift, hrest]
  | @named _ s value _ hfirst =>
    have hbefore : (before.findIdx? fun a => a.name = some s) = none := by
      rw [List.findIdx?_eq_none_iff]
      intro b hb
      exact decide_eq_false fun hname => hfirst (hname ▸ List.mem_map_of_mem hb)
    simp only [place, hargs, List.findIdx?_append, hbefore, List.findIdx?_cons, decide_true,
      Option.none_or, if_true, Option.map_some, Nat.zero_add]

/-- The argument at a place stands between those before and those behind it. -/
theorem args_eq_rows {i : Nat} (h : i < c.args.length) :
    c.args = c.args.take i ++ c.args[i] :: c.args.drop (i + 1) ∧ (c.args.take i).length = i := by
  refine ⟨?_, List.length_take_of_le (Nat.le_of_lt h)⟩
  rw [← List.drop_eq_getElem_cons h, List.take_append_drop]

/-- Every place that a key gives is that of the argument it means. -/
theorem means_of_place {i : Nat} (h : c.place key = .ok i) :
    ∃ before a after, c.args = before ++ a :: after ∧ i = before.length ∧
      key.Means before a after := by
  cases key with
  | index k =>
    by_cases hrange : -(c.args.length : Int) ≤ k ∧ k < c.args.length
    · rw [place_index hrange, Except.ok.injEq] at h
      have hlt : i < c.args.length := by
        have := Int.emod_lt_of_pos k (b := (c.args.length : Int)) (by omega)
        omega
      obtain ⟨hrows, hbefore⟩ := args_eq_rows hlt
      refine ⟨_, _, _, hrows, hbefore.symm, ?_⟩
      -- the sign of the index says from which end it counts
      by_cases hk : 0 ≤ k
      · obtain rfl : k = (c.args.take i).length := by
          rw [hbefore, ← h, Int.emod_eq_of_lt hk hrange.2, Int.toNat_of_nonneg hk]
        exact .fromStart _ _ _
      · obtain rfl : k = -((c.args.drop (i + 1)).length + 1 : Nat) := by
          have hrest : k % (c.args.length : Int) = k + c.args.length := by
            rw [← Int.add_emod_right, Int.emod_eq_of_lt (by omega) (by omega)]
          rw [List.length_drop]
          omega
        exact .fromEnd _ _ _
    · rw [place, if_neg hrange] at h
      cases h
  | name s =>
    unfold place at h
    dsimp only at h
    split at h
    · next j hfound =>
      obtain rfl := Except.ok.inj h
      obtain ⟨hlt, hname, hfirst⟩ := List.findIdx?_eq_some_iff_getElem.mp hfound
      obtain ⟨hrows, hbefore⟩ := args_eq_rows hlt
      have hnot : some s ∉ (c.args.take j).map Arg.name := by
        intro hmem
        obtain ⟨b, hb, hbname⟩ := List.mem_map.mp hmem
        obtain ⟨k, hk, rfl⟩ := List.mem_take_iff_getElem.mp hb
        exact hfirst k (by omega) (decide_eq_true hbname)
      have ha : c.args[j] = ⟨some s, c.args[j].value⟩ := by
        rw [← of_decide_eq_true hname]
      refine ⟨_, _, _, hrows, hbefore.symm, ?_⟩
      rw [ha]
      exact .named _ _ hnot
    · cases h

theorem place_eq_error {e : EditError} (h : c.place key = .error e) : e = c.noArgument key := by
  cases key with
  | index i | name s =>
    unfold place at h
    dsimp only at h
    split at h
    · cases h
    · exact (Except.error.inj h).symm

/-- A key that means no argument has no place. -/
theorem place_of_not_means
    (h : ¬ ∃ before a after, c.args = before ++ a :: after ∧ key.Means before a after) :
    c.place key = .error (c.noArgument key) := by
  cases hplace : c.place key with
  | ok i =>
    obtain ⟨before, a, after, hargs, -, hmeans⟩ := means_of_place hplace
    exact absurd ⟨before, a, after, hargs, hmeans⟩ h
  | error e => rw [place_eq_error hplace]

/-! ## Single edits -/

theorem build_of_not_isMissing {name : Option String} (hname : name ≠ some "")
    (hv : v.isMissing = false) : Arg.build name v = .ok ⟨name, v⟩ := by
  rw [Arg.build, if_neg hname, if_neg (Bool.eq_false_iff.mp hv)]

/-- A replacement keeps the name of its argument and the arguments around it. -/
theorem replaceArg_of_means (hargs : c.args = before ++ a :: after)
    (h : key.Means before a after) (v : Node) :
    c.replaceArg key v =
      ((Arg.build a.name v).mapError .node).map fun b => c.withArgs (before ++ b :: after) := by
  have hname : (c.args[before.length]?.bind Arg.name) = a.name := by simp [hargs]
  rw [replaceArg, place_of_means hargs h, ok_bind, hname]
  cases (Arg.build a.name v).mapError EditError.node with
  | error e => rfl
  | ok b =>
    have hset : c.args.set before.length b = before ++ b :: after := by simp [hargs]
    simp only [ok_bind, hset, Except.map, withArgs, pure, Except.pure]

/-- A removal keeps the arguments around. -/
theorem removeArg_of_means (hargs : c.args = before ++ a :: after)
    (h : key.Means before a after) : c.removeArg key = .ok (c.withArgs (before ++ after)) := by
  have herase : c.args.eraseIdx before.length = before ++ after := by
    rw [hargs, List.eraseIdx_append_of_length_le (Nat.le_refl _), Nat.sub_self,
      List.eraseIdx_cons_zero]
  simp only [removeArg, place_of_means hargs h, ok_bind, herase, withArgs, pure, Except.pure]

/-- The index can be counted, or there is none. -/
def IsCountable (index : Option Int) : Prop :=
  ∀ i ∈ index, -Value.countLimit ≤ i ∧ i < Value.countLimit

/-- The place in a row of a given length that an index means for a new thing: negative indices count
from the end, and none is beyond an end. Without an index it is the end. -/
def newPlace (count : Nat) (index : Option Int) : Int :=
  index.elim count fun i => max 0 (min count (if i < 0 then i + count else i))

theorem insertionPlace_of_isCountable {index : Option Int} (h : IsCountable index) :
    ∃ i : Nat, c.insertionPlace index = .ok i ∧ i = newPlace c.args.length index := by
  cases index with
  | none => exact ⟨_, rfl, rfl⟩
  | some i =>
    refine ⟨_, if_pos (h i rfl), ?_⟩
    simp only [clampIndex, newPlace, Option.elim_some]
    split <;> omega

/-- An index that cannot be counted is refused, whatever the new argument is. -/
theorem addArg_of_not_isCountable {index : Option Int} (h : ¬ IsCountable index)
    {name : Option String} (hname : name ≠ some "") (hv : v.isMissing = false) :
    c.addArg v name index = .error .indexTooLarge := by
  cases index with
  | none => exact absurd (by rintro _ ⟨⟩) h
  | some i =>
    have hi : ¬ (-Value.countLimit ≤ i ∧ i < Value.countLimit) := by
      refine fun hi => h ?_
      rintro _ ⟨⟩
      exact hi
    rw [addArg, build_of_not_isMissing hname hv, insertionPlace, if_neg hi]
    rfl

theorem insertIdx_between {α : Type} (before after : List α) (a : α) :
    (before ++ after).insertIdx before.length a = before ++ a :: after := by
  induction before with
  | nil => rfl
  | cons b before ih => exact congrArg (List.cons b) ih

/-- A new argument keeps the arguments around its place. -/
theorem addArg_of_place {index : Option Int} (hindex : IsCountable index)
    (hargs : c.args = before ++ after) (h : before.length = newPlace c.args.length index)
    (v : Node) (name : Option String) :
    c.addArg v name index =
      ((Arg.build name v).mapError .node).map fun b => c.withArgs (before ++ b :: after) := by
  obtain ⟨i, hplace, hi⟩ := insertionPlace_of_isCountable (c := c) hindex
  obtain rfl : i = before.length := by omega
  rw [addArg, hplace]
  cases (Arg.build name v).mapError EditError.node with
  | error e => rfl
  | ok b =>
    have hinsert : c.args.insertIdx before.length b = before ++ b :: after := by
      rw [hargs, insertIdx_between]
    simp only [ok_bind, hinsert, Except.map, withArgs, pure, Except.pure]

/-- Only at an index that can be counted there is a new argument. -/
theorem isCountable_of_addArg {index : Option Int} {name : Option String}
    (h : c.addArg v name index = .ok r) : IsCountable index := by
  obtain ⟨b, -, h⟩ := bind_eq_ok h
  obtain ⟨i, hplace, -⟩ := bind_eq_ok h
  rintro i rfl
  rw [insertionPlace] at hplace
  split at hplace
  · next hi => exact hi
  · cases hplace

/-- Every new argument has its place. -/
theorem exists_newPlace (c : Call) (index : Option Int) :
    ∃ before after, c.args = before ++ after ∧ before.length = newPlace c.args.length index := by
  have hplace : newPlace c.args.length index ≤ c.args.length ∧
      0 ≤ newPlace c.args.length index := by
    cases index with
    | none => simp [newPlace]
    | some i => simp only [newPlace, Option.elim_some]; omega
  refine ⟨c.args.take (newPlace c.args.length index).toNat, c.args.drop _,
    (List.take_append_drop _ _).symm, ?_⟩
  rw [List.length_take]
  omega

/-- The name that a key means finds its argument. -/
theorem get?_of_means {s : String} (hargs : c.args = before ++ a :: after)
    (h : (ArgKey.name s).Means before a after) : c.get? s = some a.value := by
  cases h with
  | named value after hfirst =>
    have hbefore : (before.find? fun a => a.name = some s) = none := by
      rw [List.find?_eq_none]
      intro b hb hname
      exact hfirst (of_decide_eq_true hname ▸ List.mem_map_of_mem hb)
    have hrow : (c.args.find? fun a => a.name = some s) = some ⟨some s, value⟩ := by
      rw [hargs, List.find?_append, hbefore, Option.none_or]
      exact List.find?_cons_of_pos (decide_eq_true rfl)
    rw [get?, hrow, Option.map_some]

/-- A key means the same place whatever the value of its argument is. -/
theorem means_value (h : key.Means before a after) (v : Node) :
    key.Means before ⟨a.name, v⟩ after := by
  cases h with
  | fromStart => exact .fromStart _ _ _
  | fromEnd => exact .fromEnd _ _ _
  | named _ _ hfirst => exact .named _ _ hfirst

/-- A place and its counterpart from the other end mean the same argument. -/
theorem place_counterpart {i : Int} (h : 0 ≤ i ∧ i < c.args.length) :
    c.place (.index (i - c.args.length)) = c.place (.index i) := by
  rw [place_index (by omega), place_index (by omega), Int.sub_emod_right]

/-! ## Well-formed calls -/

theorem wellFormed_iff : c.toNode.WellFormed ↔
    (c.head.isMissing = false ∧ c.head.isParams = false ∧ c.head.WellFormed) ∧
      ∀ a ∈ c.args, a.name ≠ some "" ∧ a.value.isMissing = false ∧ a.value.WellFormed := by
  constructor
  · rintro ⟨hmissing, hparams, hhead, hargs⟩
    exact ⟨⟨hmissing, hparams, hhead⟩, fun a ha => Node.wellFormed_arg hargs ha⟩
  · rintro ⟨⟨hmissing, hparams, hhead⟩, hargs⟩
    exact ⟨hmissing, hparams, hhead, Node.wellFormedArgs_of_forall hargs⟩

/-! ## Sequences of edits -/

/-- An edit of a call. -/
inductive Edit where
  | withHead (head : Node)
  | withArgs (args : List (Arg Node))
  | replaceArg (key : ArgKey) (value : Node)
  | addArg (value : Node) (name : Option String) (index : Option Int)
  | removeArg (key : ArgKey)
  | modify (changes : List (Entry Value))

/-- The trees that the edit puts into a call are well formed. -/
def Edit.WellFormed : Edit → Prop
  | .withHead head => head.WellFormed
  | .withArgs args => Node.WellFormedArgs args
  | .replaceArg _ value => value.WellFormed
  | .addArg value _ _ => value.WellFormed
  | .removeArg _ => True
  | .modify changes => ∀ e ∈ changes, e.value.WellFormed

/-- The call that an edit makes. -/
def edit (c : Call) : Edit → Except EditError Call
  | .withHead head => c.withHead head
  | .withArgs args => .ok (c.withArgs args)
  | .replaceArg key value => c.replaceArg key value
  | .addArg value name index => c.addArg value name index
  | .removeArg key => c.removeArg key
  | .modify changes => c.modify changes

/-- The current call after edits, one after the other. An edit that fails makes no call, so that the
next one is of the same call. -/
def edited (c : Call) : List Edit → Call
  | [] => c
  | e :: rest =>
    match c.edit e with
    | .ok r => r.edited rest
    | .error _ => c.edited rest

/-- The edits that succeed, each of the call that is current then. -/
def performed (c : Call) : List Edit → List Edit
  | [] => []
  | e :: rest =>
    match c.edit e with
    | .ok r => e :: r.performed rest
    | .error _ => c.performed rest

/-- The edits that succeed make the current call by themselves. -/
theorem foldlM_performed (c : Call) (edits : List Edit) :
    (c.performed edits).foldlM edit c = .ok (c.edited edits) := by
  -- an edit that fails leaves the call as it is for the others
  induction edits generalizing c with
  | nil => rfl
  | cons e rest ih =>
    cases h : c.edit e with
    | error problem =>
      simp only [performed, edited, h]
      exact ih c
    | ok r =>
      simp only [performed, edited, h, List.foldlM_cons, ok_bind]
      exact ih r

/-- A call stays well formed when its arguments are exchanged for arguments of its own and others
that are well formed. -/
theorem wellFormed_withArgs {args : List (Arg Node)} (hc : c.toNode.WellFormed)
    (h : ∀ a ∈ args, a ∈ c.args ∨
      a.name ≠ some "" ∧ a.value.isMissing = false ∧ a.value.WellFormed) :
    (c.withArgs args).toNode.WellFormed := by
  obtain ⟨hhead, hargs⟩ := wellFormed_iff.mp hc
  exact wellFormed_iff.mpr ⟨hhead, fun a ha => (h a ha).elim (hargs a) id⟩

/-- A built argument is well formed if its value is. -/
theorem wellFormed_of_build {name : Option String} (h : Arg.build name v = .ok a)
    (hv : v.WellFormed) : a.name ≠ some "" ∧ a.value.isMissing = false ∧ a.value.WellFormed := by
  unfold Arg.build at h
  split at h
  · cases h
  · next hname =>
    split at h
    · cases h
    · next hmissing =>
      cases h
      exact ⟨hname, Bool.eq_false_iff.mpr hmissing, hv⟩

/-- A call with one more argument is well formed if the argument was built. -/
theorem wellFormed_of_insertion {name : Option String} (hc : c.toNode.WellFormed)
    (hv : v.WellFormed) (hkept : ∀ d ∈ before ++ after, d ∈ c.args)
    (h : (((Arg.build name v).mapError EditError.node).map fun b =>
      c.withArgs (before ++ b :: after)) = .ok r) : r.toNode.WellFormed := by
  cases hbuilt : Arg.build name v with
  | error e =>
    rw [hbuilt] at h
    cases h
  | ok b =>
    rw [hbuilt] at h
    cases h
    refine wellFormed_withArgs hc fun d hd => ?_
    rw [List.mem_append, List.mem_cons] at hd
    rcases hd with hd | rfl | hd
    · exact .inl (hkept d (List.mem_append_left _ hd))
    · exact .inr (wellFormed_of_build hbuilt hv)
    · exact .inl (hkept d (List.mem_append_right _ hd))

theorem mem_putArg {args : List (Arg Node)} {name : String} {d : Arg Node}
    (h : d ∈ putArg args name v) : d ∈ args ∨ d = ⟨some name, v⟩ := by
  induction args with
  | nil => exact .inr (List.mem_singleton.mp h)
  | cons b rest ih =>
    rw [putArg] at h
    split at h
    · rcases List.mem_cons.mp h with rfl | h
      · exact .inr rfl
      · exact .inl (List.mem_cons_of_mem b h)
    · rcases List.mem_cons.mp h with rfl | h
      · exact .inl List.mem_cons_self
      · exact (ih h).imp_left (List.mem_cons_of_mem b)

theorem wellFormed_modify {changes : List (Entry Value)} (hc : c.toNode.WellFormed)
    (hvalues : ∀ e ∈ changes, e.value.WellFormed) (h : c.modify changes = .ok r) :
    r.toNode.WellFormed := by
  induction changes generalizing c with
  | nil =>
    obtain rfl := Except.ok.inj h
    exact hc
  | cons e rest ih =>
    obtain ⟨hvalue, hrest⟩ := List.forall_mem_cons.mp hvalues
    rw [modify, List.foldlM_cons] at h
    obtain ⟨mid, hmid, h⟩ := bind_eq_ok h
    refine ih ?_ hrest h
    -- a change drops arguments or sets one
    rcases change_eq_ok_iff.mp hmid with ⟨-, rfl⟩ | ⟨n, hsets, rfl⟩
    · exact wellFormed_withArgs hc fun d hd => .inl (List.mem_filter.mp hd).1
    · refine wellFormed_withArgs hc fun d hd => (mem_putArg hd).imp_right ?_
      rintro rfl
      exact wellFormed_of_build hsets.built ((Value.quote_ends hvalue).yields n hsets.quoted)

/-- An edit that puts well-formed trees into a well-formed call makes a well-formed call. -/
theorem wellFormed_edit {e : Edit} (hc : c.toNode.WellFormed) (he : e.WellFormed)
    (h : c.edit e = .ok r) : r.toNode.WellFormed := by
  obtain ⟨hhead, hargs⟩ := wellFormed_iff.mp hc
  cases e with
  | withHead head =>
    rw [edit, withHead, mapError_eq_ok_iff] at h
    unfold build at h
    split at h
    · cases h
    · next hbad =>
      cases h
      rw [Bool.or_eq_true, not_or, Bool.not_eq_true, Bool.not_eq_true] at hbad
      exact wellFormed_iff.mpr ⟨⟨hbad.1, hbad.2, he⟩, hargs⟩
  | withArgs args =>
    cases h
    exact wellFormed_withArgs hc fun a ha => .inr (Node.wellFormed_arg he ha)
  | replaceArg key value =>
    obtain ⟨i, hplace, -⟩ := bind_eq_ok (show c.replaceArg key value = .ok r from h)
    obtain ⟨before, a, after, hrows, -, hmeans⟩ := means_of_place hplace
    refine wellFormed_of_insertion hc he ?_ ((replaceArg_of_means hrows hmeans value).symm.trans h)
    intro d hd
    rw [hrows, List.mem_append, List.mem_cons]
    exact (List.mem_append.mp hd).imp_right .inr
  | addArg value name index =>
    have hindex : IsCountable index := isCountable_of_addArg h
    obtain ⟨before, after, hrows, hplace⟩ := c.exists_newPlace index
    refine wellFormed_of_insertion hc he ?_
      ((addArg_of_place hindex hrows hplace value name).symm.trans h)
    intro d hd
    rwa [hrows]
  | removeArg key =>
    obtain ⟨i, hplace, -⟩ := bind_eq_ok (show c.removeArg key = .ok r from h)
    obtain ⟨before, a, after, hrows, -, hmeans⟩ := means_of_place hplace
    cases (removeArg_of_means hrows hmeans).symm.trans h
    refine wellFormed_withArgs hc fun d hd => .inl ?_
    rw [hrows, List.mem_append, List.mem_cons]
    exact (List.mem_append.mp hd).imp_right .inr
  | modify changes => exact wellFormed_modify hc he h

theorem wellFormed_edited {edits : List Edit} (hc : c.toNode.WellFormed)
    (h : ∀ e ∈ edits, e.WellFormed) : (c.edited edits).toNode.WellFormed := by
  induction edits generalizing c with
  | nil => exact hc
  | cons e rest ih =>
    obtain ⟨he, hrest⟩ := List.forall_mem_cons.mp h
    cases hedit : c.edit e with
    | error problem =>
      simp only [edited, hedit]
      exact ih hc hrest
    | ok r =>
      simp only [edited, hedit]
      exact ih (wellFormed_edit hc he hedit) hrest

/-! ## Edits that undo each other -/

/-- Edits of a well-formed call that put a tree `v` into it, and those that undo them.

- A new argument stands at the place that its index means, between the arguments that were there,
  and removing it gives the call back. The index must lie in the range of indices of lists: any other
  one is refused.
- Where a key means an argument, a replacement changes its value alone, and so does the replacement
  of the new value by the old one, which gives the call back. If the key is a name, the call has the
  old value under it and the changed call the new one. A removal leaves the other arguments, and
  adding the argument at its place gives the call back, if the place can be counted.
- A place and its counterpart from the other end mean the same for both.
- Where a key means no argument, both fail.
- After a sequence of edits the current call is the one that the edits that succeed make by
  themselves, and it is well formed if the edits put only well-formed trees into it. -/
theorem edits_undone {c : Call} (hc : c.toNode.WellFormed) {v : Node} (hv : v.isMissing = false) :
    (∀ (name : Option String) (index : Option Int), name ≠ some "" →
      (IsCountable index → ∃ before after, c.args = before ++ after ∧
        before.length = newPlace c.args.length index ∧
        ∃ r, r = c.withArgs (before ++ ⟨name, v⟩ :: after) ∧ c.addArg v name index = .ok r ∧
          r.removeArg (.index before.length) = .ok c) ∧
      (¬ IsCountable index → c.addArg v name index = .error .indexTooLarge)) ∧
    (∀ (key : ArgKey) (before : List (Arg Node)) (a : Arg Node) (after : List (Arg Node)),
      c.args = before ++ a :: after → key.Means before a after →
        (∃ r, r = c.withArgs (before ++ ⟨a.name, v⟩ :: after) ∧ c.replaceArg key v = .ok r ∧
          r.replaceArg key a.value = .ok c ∧
          ∀ s, key = .name s → c.get? s = some a.value ∧ r.get? s = some v) ∧
        ∃ r, r = c.withArgs (before ++ after) ∧ c.removeArg key = .ok r ∧
          (before.length < Value.countLimit →
            r.addArg a.value a.name (some before.length) = .ok c)) ∧
    (∀ i : Int, 0 ≤ i → i < c.args.length → ∀ w : Node,
      c.replaceArg (.index (i - c.args.length)) w = c.replaceArg (.index i) w ∧
        c.removeArg (.index (i - c.args.length)) = c.removeArg (.index i)) ∧
    (∀ key : ArgKey,
      (¬ ∃ before a after, c.args = before ++ a :: after ∧ key.Means before a after) → ∀ w : Node,
        c.replaceArg key w = .error (c.noArgument key) ∧
          c.removeArg key = .error (c.noArgument key)) ∧
    ∀ edits : List Edit, (c.performed edits).foldlM edit c = .ok (c.edited edits) ∧
      ((∀ e ∈ edits, e.WellFormed) → (c.edited edits).toNode.WellFormed) := by
  obtain ⟨-, hwell⟩ := wellFormed_iff.mp hc
  refine ⟨?_, ?_, ?_, ?_, ?_⟩
  · refine fun name index hname =>
      ⟨fun hindex => ?_, fun hindex => addArg_of_not_isCountable hindex hname hv⟩
    obtain ⟨before, after, hargs, hplace⟩ := c.exists_newPlace index
    refine ⟨before, after, hargs, hplace, _, rfl, ?_, ?_⟩
    · rw [addArg_of_place hindex hargs hplace, build_of_not_isMissing hname hv]
      rfl
    · rw [removeArg_of_means rfl (.fromStart before ⟨name, v⟩ after)]
      exact congrArg Except.ok (congrArg c.withArgs hargs.symm)
  · intro key before a after hargs hmeans
    obtain ⟨hname, hmissing, -⟩ := hwell a (by simp [hargs])
    have hnew := means_value hmeans v
    refine ⟨⟨_, rfl, ?_, ?_, ?_⟩, _, rfl, removeArg_of_means hargs hmeans, fun hcount => ?_⟩
    · rw [replaceArg_of_means hargs hmeans, build_of_not_isMissing hname hv]
      rfl
    · rw [replaceArg_of_means rfl hnew, build_of_not_isMissing hname hmissing]
      exact congrArg Except.ok (congrArg c.withArgs hargs.symm)
    · rintro s rfl
      exact ⟨get?_of_means hargs hmeans, get?_of_means rfl hnew⟩
    · have hindex : IsCountable (some (before.length : Int)) := by
        rintro _ ⟨⟩
        exact ⟨by rw [Value.countLimit]; omega, hcount⟩
      have hplace : (before.length : Int) =
          newPlace (c.withArgs (before ++ after)).args.length (some before.length) := by
        simp only [newPlace, withArgs, Option.elim_some, List.length_append]
        omega
      rw [addArg_of_place hindex rfl hplace, build_of_not_isMissing hname hmissing]
      exact congrArg Except.ok (congrArg c.withArgs hargs.symm)
  · intro i hi hlt w
    have hplace := place_counterpart ⟨hi, hlt⟩
    rw [replaceArg, replaceArg, removeArg, removeArg, hplace]
    exact ⟨rfl, rfl⟩
  · intro key hkey w
    have hplace := place_of_not_means hkey
    rw [replaceArg, removeArg, hplace]
    exact ⟨rfl, rfl⟩
  · exact fun edits => ⟨foldlM_performed c edits, wellFormed_edited hc⟩

/-- In `f(x, a = y, a = z)` an argument is added in front of the last one, the first `a` is replaced
by its name, and there is neither a fourth argument nor a `b`. -/
theorem edits_undone_repeated :
    let x : Node := .symbol "x" ⟨1, 3⟩
    let y : Node := .symbol "y" ⟨1, 10⟩
    let z : Node := .symbol "z" ⟨1, 17⟩
    let v : Node := .constant (.integer 1) .nowhere
    let c : Call := ⟨.symbol "f" ⟨1, 1⟩, [⟨none, x⟩, ⟨some "a", y⟩, ⟨some "a", z⟩], ⟨1, 1⟩⟩
    let r := c.withArgs [⟨none, x⟩, ⟨some "a", y⟩, ⟨none, v⟩, ⟨some "a", z⟩]
    let r' := c.withArgs [⟨none, x⟩, ⟨some "a", v⟩, ⟨some "a", z⟩]
    (c.toNode.WellFormed ∧ v.isMissing = false) ∧
      (c.addArg v none (some (-1)) = .ok r ∧ r.removeArg (.index 2) = .ok c) ∧
      c.addArg v none (some Value.countLimit) = .error .indexTooLarge ∧
      (c.replaceArg (.name "a") v = .ok r' ∧ r'.replaceArg (.name "a") y = .ok c) ∧
      c.removeArg (.index (-3)) = c.removeArg (.index 0) ∧
      c.removeArg (.index 3) = .error (.noSuchIndex 3 3) ∧
      c.edited [.removeArg (.name "b"), .replaceArg (.name "a") v, .addArg v (some "") none] =
        r' := by
  intro x y z v c r r'
  have hc : c.toNode.WellFormed := by
    simp [c, x, y, z, toNode, Node.WellFormed, Node.WellFormedArgs, Node.isMissing, Node.isParams]
  have hv : v.isMissing = false := rfl
  obtain ⟨hadd, hkeys, hcounterpart, -, -⟩ := edits_undone hc hv
  have hlarge : ¬ IsCountable (some Value.countLimit) := fun h => Int.lt_irrefl _ (h _ rfl).2
  have hmeans : (ArgKey.name "a").Means [⟨none, x⟩] ⟨some "a", y⟩ [⟨some "a", z⟩] :=
    .named y _ (by decide)
  obtain ⟨⟨_, rfl, hreplace, hback, -⟩, -⟩ := hkeys _ _ _ _ rfl hmeans
  have hfourth : c.place (.index 3) = .error (.noSuchIndex 3 3) := by
    have hshort : Text.isShort 3 = true := @Text.isShort_of_lt 3 1 (by decide) (by decide)
    rw [place, if_neg (by decide), if_pos hshort]
    rfl
  refine ⟨⟨hc, hv⟩, ⟨rfl, rfl⟩, (hadd none _ (by decide)).2 hlarge, ⟨hreplace, hback⟩,
    (hcounterpart 0 (by decide) (by decide) v).2, ?_, rfl⟩
  rw [removeArg, hfourth]
  rfl

/-- At the first index that no list has, `f(x)` gets no argument; at the index before it the argument
goes to the end, as the one that the index means would. -/
theorem edits_undone_index_limit :
    let x : Arg Node := ⟨none, .symbol "x" .nowhere⟩
    let y : Node := .symbol "y" .nowhere
    let c : Call := ⟨.symbol "f" .nowhere, [x], .nowhere⟩
    newPlace c.args.length (some Value.countLimit) = 1 ∧
      c.addArg y none (some Value.countLimit) ≠ .ok (c.withArgs [x, ⟨none, y⟩]) ∧
      c.addArg y none (some Value.countLimit) = .error .indexTooLarge ∧
      c.addArg y none (some (Value.countLimit - 1)) = .ok (c.withArgs [x, ⟨none, y⟩]) := by
  refine ⟨rfl, ?_, rfl, rfl⟩
  rintro ⟨⟩

end Call

end RCode
