import RCode.Proofs.Call.Matching

/-!
# Standardised calls

A standardised call is left as it is by standardising it again (`Call.standardise_standardised`).
Its arguments are settled: each one that went to a parameter now has exactly its name, and what
`...` took could go to no parameter then, while fewer had values, and so still can go to none.
-/

set_option autoImplicit false

namespace RCode

namespace Matching

variable {formals : List String} {routes : List Route} {formal : String}

/-! ## The order of the parameters -/

theorem mem_inOrder {r : Route} : r ∈ inOrder formals routes ↔ r.place ∈ formals ∧ r ∈ routes := by
  simp [inOrder, and_comm]

theorem filter_inOrder_of_notMem (h : formal ∉ formals) :
    (inOrder formals routes).filter (fun r => r.place = formal) = [] := by
  refine List.filter_eq_nil_iff.mpr fun r hr hplace => h ?_
  rw [← of_decide_eq_true hplace]
  exact (mem_inOrder.mp hr).1

/-- In order, the arguments at one place are the same in the same order. -/
theorem filter_inOrder (hformals : formals.Nodup) (h : formal ∈ formals) :
    (inOrder formals routes).filter (fun r => r.place = formal) =
      routes.filter fun r => r.place = formal := by
  induction formals with
  | nil => cases h
  | cons other formals ih =>
    obtain ⟨hnew, hnodup⟩ := List.nodup_cons.mp hformals
    rw [inOrder, List.flatMap_cons, ← inOrder, List.filter_append, List.filter_filter]
    by_cases heq : formal = other
    · subst heq
      rw [filter_inOrder_of_notMem hnew, List.append_nil]
      exact List.filter_congr fun r _ => by simp
    · have hnone :
          routes.filter (fun r => decide (r.place = formal) && decide (r.place = other)) = [] := by
        refine List.filter_eq_nil_iff.mpr fun r _ hboth => heq ?_
        obtain ⟨hformal, hother⟩ := Bool.and_eq_true_iff.mp hboth
        exact (of_decide_eq_true hformal).symm.trans (of_decide_eq_true hother)
      rw [hnone, List.nil_append]
      exact ih hnodup ((List.mem_cons.mp h).resolve_left heq)

theorem inOrder_inOrder (hformals : formals.Nodup) :
    inOrder formals (inOrder formals routes) = inOrder formals routes :=
  List.flatMap_congr fun _ h => filter_inOrder hformals h

/-! ## Settled arguments -/

/-- The route of an argument that has gone where it goes. -/
def Route.settled (r : Route) : Route :=
  ⟨r.result, r.goal⟩

theorem result_settled (r : Route) : r.settled.result = r.result := by
  cases hgoal : r.goal with
  | none => simp [Route.settled, Route.result, hgoal]
  | some formal => simp [Route.settled, Route.result, hgoal]

theorem inOrder_map_settled (formals : List String) (routes : List Route) :
    inOrder formals (routes.map Route.settled) = (inOrder formals routes).map Route.settled := by
  rw [inOrder, inOrder, List.map_flatMap]
  exact List.flatMap_congr fun _ _ => List.filter_map

/-- Where the arguments of a standardised call go. -/
def settled (formals : List String) (routes : List Route) : List Route :=
  (inOrder formals routes).map Route.settled

theorem map_arg_settled (formals : List String) (routes : List Route) :
    (settled formals routes).map Route.arg = arranged formals routes := by
  rw [settled, arranged, List.map_map]
  rfl

theorem arranged_settled (hformals : formals.Nodup) (routes : List Route) :
    arranged formals (settled formals routes) = arranged formals routes := by
  rw [arranged, settled, inOrder_map_settled, inOrder_inOrder hformals, List.map_map, arranged]
  exact List.map_congr_left fun r _ => result_settled r

theorem goals_settled_perm (hformals : formals.Nodup) (h : Matches formals routes) :
    (goals (settled formals routes)).Perm (goals routes) := by
  have : goals (settled formals routes) = goals (inOrder formals routes) := by
    rw [goals, settled, List.filterMap_map]
    rfl
  rw [this]
  exact (inOrder_perm hformals h.place_mem).filterMap _

theorem mem_settled (h : Matches formals routes) {q : Route} :
    q ∈ settled formals routes ↔ ∃ r ∈ routes, r.settled = q := by
  rw [settled, List.mem_map]
  refine exists_congr fun r => and_congr_left fun _ => ?_
  exact mem_inOrder.trans ⟨And.right, fun hr => ⟨h.place_mem r hr, hr⟩⟩

/-- The parameters that have values are those that the settled arguments name. -/
theorem Matches.exactNames_settled (h : Matches formals routes) (hmem : formal ∈ goals routes) :
    formal ∈ exactNames formals ((settled formals routes).map Route.arg) := by
  obtain ⟨r, hr, hgoal⟩ := mem_goals.mp hmem
  obtain ⟨hformal, hdots⟩ := h.parameters formal hmem
  refine mem_exactNames.mpr ⟨r.result, ?_, ?_⟩
  · exact List.mem_map.mpr ⟨r.settled, (mem_settled h).mpr ⟨r, hr, rfl⟩, rfl⟩
  · exact exactName?_eq_some.mpr ⟨by rw [Route.result, hgoal], hdots, hformal⟩

/-- The name of an argument that went to no parameter begins none that is free in the end. -/
theorem Matches.openTo_eq_nil (h : Matches formals routes) {r : Route} (hr : r ∈ routes)
    (hgoal : r.goal = none) {name : String} (hname : r.arg.name = some name)
    {taken : List String} (htaken : goals routes ⊆ taken) :
    openTo (leading formals) taken name = [] := by
  have hexact : exactName? formals r.arg = none := by
    cases hexact : exactName? formals r.arg with
    | none => rfl
    | some formal =>
      rw [h.named.exact r hr formal hexact] at hgoal
      cases hgoal
  obtain ⟨before, after, hroutes⟩ := List.append_of_mem hr
  have hturn := (h.named before r after hroutes).inPart name hname hexact
  rw [hgoal, Option.toList_none] at hturn
  -- when its turn came, fewer parameters were taken
  have hsubset : exactNames formals (routes.map Route.arg) ++ namedGoals before ⊆ taken := by
    refine fun f hf => htaken ?_
    rcases List.mem_append.mp hf with hf | hf
    · rw [← goals_isExact h.named.exact] at hf
      exact (List.filter_sublist.filterMap _).subset hf
    · rw [hroutes, goals, List.filterMap_append]
      exact List.mem_append_left _ (namedGoals_subset hf)
  have hsublist : (openTo (leading formals) taken name).Sublist _ := openTo_sublist hsubset name
  rw [hturn] at hsublist
  exact List.sublist_nil.mp hsublist

/-- An unnamed argument goes to no parameter only when there is no free one. -/
theorem Matches.leading_subset (h : Matches formals routes) {r : Route} (hr : r ∈ routes)
    (hgoal : r.goal = none) (hname : r.arg.name = none) : leading formals ⊆ goals routes := by
  intro formal hleading
  by_cases hnamed : formal ∈ namedGoals routes
  · exact namedGoals_subset hnamed
  · -- there are more unnamed arguments than free parameters, so all of these are goals
    have hunnamed : r.isNamed = false := by rw [Route.isNamed, hname]; rfl
    obtain ⟨i, hi, hplace⟩ := h.unnamed.exists_place hr hunnamed
    have hnone : (freeFor formals routes)[i]? = none := hplace.symm.trans hgoal
    have hlength : (freeFor formals routes).length ≤ routes.countP fun r => !r.isNamed := by
      rw [List.countP_eq_length_filter]
      exact (List.getElem?_eq_none_iff.mp hnone).trans (List.getElem?_eq_some_iff.mp hi).1.le
    have hgoals := h.unnamed.goals_eq
    rw [List.take_of_length_le hlength] at hgoals
    have hfree : formal ∈ goals (routes.filter fun r => !r.isNamed) := by
      rw [hgoals]
      exact mem_freeFor.mpr ⟨hleading, hnamed⟩
    exact (List.filter_sublist.filterMap _).subset hfree

/-- Settled arguments follow the rules of matching. -/
theorem Matches.settled (hformals : formals.Nodup) (h : Matches formals routes) :
    Matches formals (settled formals routes) where
  parameters formal hmem := h.parameters formal ((goals_settled_perm hformals h).mem_iff.mp hmem)
  once := (goals_settled_perm hformals h).nodup_iff.mpr h.once
  named := by
    intro before q after hsettled
    have hq : q ∈ Matching.settled formals routes := by
      rw [hsettled]
      exact List.mem_append_right _ List.mem_cons_self
    obtain ⟨r, hr, rfl⟩ := (mem_settled h).mp hq
    cases hgoal : r.goal with
    | none =>
      have harg : r.settled.arg = r.arg := by simp [Route.settled, Route.result, hgoal]
      constructor
      · intro formal hexact
        rw [harg] at hexact
        exact h.named.exact r hr formal hexact
      · intro name hname _
        rw [harg] at hname
        rw [show r.settled.goal = none from hgoal]
        exact h.openTo_eq_nil hr hgoal hname fun f hf =>
          List.mem_append_left _ (h.exactNames_settled hf)
    | some formal =>
      have hname : r.settled.arg.name = some formal := by simp [Route.settled, Route.result, hgoal]
      obtain ⟨hformal, hdots⟩ := h.parameters formal (mem_goals.mpr ⟨r, hr, hgoal⟩)
      have hexact : exactName? formals r.settled.arg = some formal :=
        exactName?_eq_some.mpr ⟨hname, hdots, hformal⟩
      constructor
      · intro other hother
        rw [← hother, hexact]
        exact hgoal
      · intro _ _ hnone
        rw [hexact] at hnone
        cases hnone
  unnamed := by
    intro i q hq
    obtain ⟨hmem, hunnamed⟩ := List.mem_filter.mp (List.mem_of_getElem? hq)
    obtain ⟨r, hr, rfl⟩ := (mem_settled h).mp hmem
    have hname : r.settled.arg.name = none := by simpa [Route.isNamed] using hunnamed
    cases hgoal : r.goal with
    | some formal => simp [Route.settled, Route.result, hgoal] at hname
    | none =>
      have harg : r.settled.arg = r.arg := by simp [Route.settled, Route.result, hgoal]
      rw [harg] at hname
      have hfree : freeFor formals (Matching.settled formals routes) = [] := by
        refine List.filter_eq_nil_iff.mpr fun formal hleading hnot => of_decide_eq_true hnot ?_
        obtain ⟨s, hs, hsgoal⟩ := mem_goals.mp (h.leading_subset hr hgoal hname hleading)
        refine mem_namedGoals.mpr ⟨s.settled, (mem_settled h).mpr ⟨s, hs, rfl⟩, ?_, hsgoal⟩
        simp [Route.isNamed, Route.settled, Route.result, hsgoal]
      rw [hfree]
      exact hgoal
  absorbed q hq hgoal := by
    obtain ⟨r, hr, rfl⟩ := (mem_settled h).mp hq
    exact h.absorbed r hr hgoal

end Matching

open Matching

/-- Standardising is idempotent: nothing that `...` has taken is taken by a parameter when the call
is standardised again. -/
theorem Call.standardise_standardised {c d : Call} {formals : List String}
    (hformals : formals.Nodup) (h : c.standardise formals = .ok d) :
    d.standardise formals = .ok d := by
  obtain ⟨routes, -, hmatches, rfl⟩ := standardise_eq_ok_iff hformals |>.mp h
  have := standardArgs_of_matches (hmatches.settled hformals)
  rw [map_arg_settled, arranged_settled hformals] at this
  rw [standardise, this]
  rfl

theorem Call.standardise_standardised_dots :
    let c : Call := ⟨.symbol "f" .nowhere, [⟨some "tr", .symbol "a" .nowhere⟩,
      ⟨none, .symbol "b" .nowhere⟩, ⟨some "se", .symbol "s" .nowhere⟩,
      ⟨none, .symbol "d" .nowhere⟩], .nowhere⟩
    let d : Call := { c with args := [⟨some "x", .symbol "b" .nowhere⟩,
      ⟨some "trim", .symbol "a" .nowhere⟩, ⟨some "se", .symbol "s" .nowhere⟩,
      ⟨none, .symbol "d" .nowhere⟩] }
    let formals := ["x", "trim", dots, "sep"]
    formals.Nodup ∧ c.standardise formals = .ok d ∧ d.standardise formals = .ok d := by
  intro c d formals
  have hok : c.standardise formals = .ok d := rfl
  exact ⟨by decide, hok, standardise_standardised (by decide) hok⟩

end RCode
