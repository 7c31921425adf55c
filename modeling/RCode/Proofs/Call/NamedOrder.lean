import RCode.Proofs.Call.Matching

/-!
# The order of the named arguments

Partial names are matched one after the other, each with the parameters that the ones before it
left. If the arguments of a call without `...` can be matched in two orders, the two orders give the
same call. For an argument that goes to another parameter in the second order, the first order lets
one with a longer name take that parameter earlier; in the second order the longer name has to come
earlier as well, when the parameter is still free for it, and yet goes elsewhere (`goal_eq`).

But not every order can be matched. A name that begins several of the parameters that exact names
leave is refused where it stands first, although it is not ambiguous any more in an order in which
other names have taken all of these parameters but one (`Call.standardise_rearranged`).
-/

set_option autoImplicit false

namespace RCode

namespace Matching

variable {formals : List String} {routes routes' before after : List Route} {q r : Route}
  {args args' : List (Arg Node)} {name formal other : String}

/-- The same arguments in another order, in which the unnamed ones stand in the same order. -/
structure Rearranged (args args' : List (Arg Node)) : Prop where
  perm : args.Perm args'
  unnamed : args.filter (fun a => a.name.isNone) = args'.filter fun a => a.name.isNone

/-- The parameters that exact names leave and that a name begins. -/
def openAtFirst (formals : List String) (args : List (Arg Node)) (name : String) : List String :=
  openTo (leading formals) (exactNames formals args) name

/-- No name begins several of the parameters that exact names leave. -/
def IsUnambiguous (formals : List String) (args : List (Arg Node)) : Prop :=
  ∀ a ∈ args, ∀ name, a.name = some name → exactName? formals a = none →
    (openAtFirst formals args name).length ≤ 1

theorem Rearranged.symm (h : Rearranged args args') : Rearranged args' args :=
  ⟨h.perm.symm, h.unnamed.symm⟩

theorem openTo_sublist_openAtFirst (formals : List String) (args : List (Arg Node))
    (more : List String) (name : String) :
    (openTo (leading formals) (exactNames formals args ++ more) name).Sublist
      (openAtFirst formals args name) :=
  openTo_sublist (List.subset_append_left _ _) name

theorem openAtFirst_perm (h : args.Perm args') (name : String) :
    openAtFirst formals args name = openAtFirst formals args' name :=
  openTo_congr (fun _ => (h.filterMap _).mem_iff) name

theorem IsUnambiguous.perm (h : IsUnambiguous formals args) (hargs : args.Perm args') :
    IsUnambiguous formals args' := by
  intro a ha name hname hexact
  rw [← openAtFirst_perm hargs]
  exact h a (hargs.mem_iff.mpr ha) name hname hexact

/-- A parameter that a name begins is begun by what begins the name. -/
theorem openAtFirst_of_begins {longer : String} (h : formal ∈ openAtFirst formals args longer)
    (hbegins : name.toList <+: formal.toList) : formal ∈ openAtFirst formals args name :=
  mem_openTo.mpr ⟨(mem_openTo.mp h).1, (mem_openTo.mp h).2.1, hbegins⟩

theorem exists_route (h : (routes.map Route.arg).Perm (routes'.map Route.arg)) (hr : r ∈ routes) :
    ∃ r' ∈ routes', r'.arg = r.arg :=
  List.mem_map.mp (h.mem_iff.mp (List.mem_map_of_mem hr))

/-! ## Arguments one before the other -/

/-- The first argument stands before the second. -/
def Precedes (routes : List Route) (q r : Route) : Prop :=
  ∃ before between after, routes = before ++ q :: (between ++ r :: after)

theorem Precedes.mem (h : Precedes routes q r) : q ∈ routes := by
  obtain ⟨before, between, after, rfl⟩ := h
  exact List.mem_append_right _ List.mem_cons_self

/-- Only one argument goes to a parameter. -/
theorem Matches.eq_of_goal (h : Matches formals routes) (hq : q ∈ routes) (hr : r ∈ routes)
    (hqgoal : q.goal = some formal) (hrgoal : r.goal = some formal) : q = r := by
  have hone := filter_goal h.once hr hrgoal
  have hmem : q ∈ routes.filter fun r => r.goal = some formal :=
    List.mem_filter.mpr ⟨hq, decide_eq_true hqgoal⟩
  rw [hone] at hmem
  exact List.mem_singleton.mp hmem

/-- No earlier argument goes where an argument goes. -/
theorem Matches.notMem_goals (h : Matches formals (before ++ r :: after))
    (hgoal : r.goal = some formal) : formal ∉ goals before := by
  intro hmem
  have honce := h.once
  rw [goals, List.filterMap_append, List.filterMap_cons, hgoal] at honce
  exact List.disjoint_of_nodup_append honce hmem List.mem_cons_self

/-- The parameter that an argument goes to was free from the beginning. -/
theorem InTurn.mem_openAtFirst
    (h : InTurn formals (exactNames formals (routes.map Route.arg)) routes) (hr : r ∈ routes)
    (hname : r.arg.name = some name) (hexact : exactName? formals r.arg = none)
    (hgoal : r.goal = some formal) : formal ∈ openAtFirst formals (routes.map Route.arg) name := by
  obtain ⟨before, after, hroutes⟩ := List.append_of_mem hr
  have hturn := (h before r after hroutes).inPart name hname hexact
  have hmem : formal ∈ r.goal.toList := Option.mem_toList.mpr hgoal
  rw [← hturn] at hmem
  exact (openTo_sublist_openAtFirst formals _ _ name).subset hmem

/-- Whatever else a name begins has been taken before its turn. -/
theorem InTurn.exists_precedes
    (h : InTurn formals (exactNames formals (routes.map Route.arg)) routes) (hr : r ∈ routes)
    (hname : r.arg.name = some name) (hexact : exactName? formals r.arg = none)
    (hgoal : r.goal ≠ some other)
    (hopen : other ∈ openAtFirst formals (routes.map Route.arg) name) :
    ∃ q, q.isNamed = true ∧ q.goal = some other ∧ Precedes routes q r := by
  obtain ⟨before, after, hroutes⟩ := List.append_of_mem hr
  have hturn := (h before r after hroutes).inPart name hname hexact
  obtain ⟨hleading, hfree, hbegins⟩ := mem_openTo.mp hopen
  have htaken : other ∈ namedGoals before := by
    by_contra hnot
    refine hgoal (Option.mem_toList.mp ?_)
    rw [← hturn, mem_openTo, List.mem_append]
    exact ⟨hleading, fun hmem => hmem.elim hfree hnot, hbegins⟩
  obtain ⟨q, hq, hnamed, hqgoal⟩ := mem_namedGoals.mp htaken
  obtain ⟨first, between, rfl⟩ := List.append_of_mem hq
  exact ⟨q, hnamed, hqgoal, first, between, after, by simp [hroutes]⟩

/-- The name of an argument does not begin what a later one goes to. -/
theorem Matches.not_begins (h : Matches formals routes) (hprecedes : Precedes routes q r)
    (hname : q.arg.name = some name) (hexact : exactName? formals q.arg = none)
    (hgoal : r.goal = some formal) : formal ∉ openAtFirst formals (routes.map Route.arg) name := by
  obtain ⟨before, between, after, hroutes⟩ := hprecedes
  intro hopen
  obtain ⟨hleading, hfree, hbegins⟩ := mem_openTo.mp hopen
  have hturn := (h.named before q _ hroutes).inPart name hname hexact
  rw [hroutes, ← List.cons_append, ← List.append_assoc] at h
  have hnot := h.notMem_goals hgoal
  rw [goals, List.filterMap_append] at hnot
  have hmem : formal ∈ q.goal.toList := by
    rw [← hturn, mem_openTo, List.mem_append]
    refine ⟨hleading, fun hmem => hmem.elim hfree fun hmem => hnot ?_, hbegins⟩
    exact List.mem_append_left _ (namedGoals_subset hmem)
  refine hnot (List.mem_append_right _ (mem_goals.mpr ⟨q, List.mem_cons_self, ?_⟩))
  exact Option.mem_toList.mp hmem

/-! ## Two orders that can be matched -/

theorem Matches.exists_goal (h : Matches formals routes) (hdots : dots ∉ formals)
    (hr : r ∈ routes) : ∃ formal, r.goal = some formal := by
  cases hgoal : r.goal with
  | none => exact absurd (h.absorbed r hr hgoal) hdots
  | some formal => exact ⟨formal, rfl⟩

theorem exactName?_congr {a b : Arg Node} (h : a.name = b.name) :
    exactName? formals a = exactName? formals b := by
  rw [exactName?, h, exactName?]

/-- An argument goes in part to a parameter that no argument names exactly. -/
theorem InTurn.exactName?_of_free {taken : List String} (h : InTurn formals taken routes)
    (hq : q ∈ routes) (hgoal : q.goal = some formal)
    (hfree : formal ∉ exactNames formals (routes.map Route.arg)) :
    exactName? formals q.arg = none := by
  cases hexact : exactName? formals q.arg with
  | none => rfl
  | some other =>
    have hsame := h.exact q hq other hexact
    rw [hgoal] at hsame
    obtain rfl := Option.some.inj hsame
    exact absurd (mem_exactNames.mpr ⟨q.arg, List.mem_map_of_mem hq, hexact⟩) hfree

/-- An argument that takes another parameter that the name of `r` begins has a longer name, which
does not begin the parameter that `r` goes to. -/
theorem Matches.exists_longer (h : Matches formals routes) (hr : r ∈ routes)
    (hname : r.arg.name = some name) (hexact : exactName? formals r.arg = none)
    (hgoal : r.goal = some formal) (hne : other ≠ formal)
    (hopen : other ∈ openAtFirst formals (routes.map Route.arg) name) :
    ∃ q longer, q ∈ routes ∧ q.goal = some other ∧ q.arg.name = some longer ∧
      exactName? formals q.arg = none ∧
      other ∈ openAtFirst formals (routes.map Route.arg) longer ∧
      name.toList <+: longer.toList ∧ ¬ longer.toList <+: formal.toList := by
  have hother : r.goal ≠ some other := fun hsame =>
    hne (Option.some.inj (hsame.symm.trans hgoal))
  obtain ⟨q, hnamed, hqgoal, hbefore⟩ := h.named.exists_precedes hr hname hexact hother hopen
  obtain ⟨longer, hlonger⟩ := Option.isSome_iff_exists.mp hnamed
  have hq := hbefore.mem
  have hqexact := h.named.exactName?_of_free hq hqgoal (mem_openTo.mp hopen).2.1
  have hqopen := h.named.mem_openAtFirst hq hlonger hqexact hqgoal
  have hformal := h.named.mem_openAtFirst hr hname hexact hgoal
  have hnot : ¬ longer.toList <+: formal.toList := fun hbegins =>
    h.not_begins hbefore hlonger hqexact hgoal (openAtFirst_of_begins hformal hbegins)
  refine ⟨q, longer, hq, hqgoal, hlonger, hqexact, hqopen, ?_, hnot⟩
  -- both names begin the other parameter
  rcases List.prefix_or_prefix_of_prefix (mem_openTo.mp hopen).2.2 (mem_openTo.mp hqopen).2.2 with
    hbegins | hbegins
  · exact hbegins
  · exact absurd (hbegins.trans (mem_openTo.mp hformal).2.2) hnot

/-- Arguments of one name go to the same parameter in every order that can be matched. -/
theorem goal_eq (h : Matches formals routes) (h' : Matches formals routes') (hdots : dots ∉ formals)
    (hargs : (routes.map Route.arg).Perm (routes'.map Route.arg)) {r' : Route} (hr : r ∈ routes)
    (hr' : r' ∈ routes') (hname : r.arg.name = some name) (hname' : r'.arg.name = some name) :
    r.goal = r'.goal := by
  have hexacts : exactName? formals r.arg = exactName? formals r'.arg :=
    exactName?_congr (hname.trans hname'.symm)
  cases hexact : exactName? formals r.arg with
  | some formal =>
    rw [h.named.exact r hr formal hexact, h'.named.exact r' hr' formal (hexacts ▸ hexact)]
  | none =>
    obtain ⟨g, hg⟩ := h.exists_goal hdots hr
    obtain ⟨f, hf⟩ := h'.exists_goal hdots hr'
    have hexact' := hexacts.symm.trans hexact
    by_contra hdiffer
    have hne : f ≠ g := fun heq => hdiffer (by rw [hg, hf, heq])
    have hfopen : f ∈ openAtFirst formals (routes.map Route.arg) name := by
      rw [openAtFirst_perm hargs]
      exact h'.named.mem_openAtFirst hr' hname' hexact' hf
    -- in the first order `q`, with a longer name, takes `f` before `r` has its turn
    obtain ⟨q, longer, hq, hqgoal, hlonger, hqexact, hqopen, hbegins, hnot⟩ :=
      h.exists_longer hr hname hexact hg hne hfopen
    -- in the second order it goes to some `k`, which the name of `r'` begins too
    obtain ⟨q', hq', hqarg⟩ := exists_route hargs hq
    obtain ⟨k, hk⟩ := h'.exists_goal hdots hq'
    rw [← hqarg] at hlonger hqexact
    have hkopen := h'.named.mem_openAtFirst hq' hlonger hqexact hk
    have hkf : r'.goal ≠ some k := by
      intro hsame
      obtain rfl := h'.eq_of_goal hq' hr' hk hsame
      obtain rfl := Option.some.inj (hname'.symm.trans hlonger)
      exact hnot (mem_openTo.mp (h.named.mem_openAtFirst hr hname hexact hg)).2.2
    -- so `q'` stands before `r'`, when `f` is still free for it
    obtain ⟨s, -, hsgoal, hbefore⟩ := h'.named.exists_precedes hr' hname' hexact' hkf
      (openAtFirst_of_begins hkopen (hbegins.trans (mem_openTo.mp hkopen).2.2))
    obtain rfl := h'.eq_of_goal hbefore.mem hq' hsgoal hk
    rw [openAtFirst_perm hargs] at hqopen
    exact h'.not_begins hbefore hlonger hqexact hf hqopen

/-- The named arguments have different names. -/
theorem Matches.nodup_names (h : Matches formals routes) (hdots : dots ∉ formals) :
    ((routes.map Route.arg).filterMap Arg.name).Nodup := by
  have honce := h.once
  rw [goals, List.Nodup, List.pairwise_filterMap] at honce
  rw [List.filterMap_map, List.Nodup, List.pairwise_filterMap]
  refine honce.imp_of_mem fun {q r} hq hr hdiffer name hname name' hname' heq => ?_
  subst heq
  obtain ⟨formal, hgoal⟩ := h.exists_goal hdots hq
  have hsame := goal_eq h h hdots (List.Perm.refl _) hq hr hname hname'
  exact hdiffer formal hgoal formal (hsame ▸ hgoal) rfl

/-- The named arguments go to the same parameters. -/
def AgreeOnNames (routes routes' : List Route) : Prop :=
  ∀ r ∈ routes, ∀ r' ∈ routes', r.isNamed = true → r'.arg = r.arg → r.goal = r'.goal

theorem AgreeOnNames.symm (h : AgreeOnNames routes routes') : AgreeOnNames routes' routes :=
  fun r' hr' r hr hnamed harg =>
    (h r hr r' hr' (by rw [Route.isNamed, harg]; exact hnamed) harg.symm).symm

theorem AgreeOnNames.namedGoals_subset (h : AgreeOnNames routes routes')
    (hargs : (routes.map Route.arg).Perm (routes'.map Route.arg)) :
    namedGoals routes ⊆ namedGoals routes' := by
  intro formal hmem
  obtain ⟨r, hr, hnamed, hgoal⟩ := mem_namedGoals.mp hmem
  obtain ⟨r', hr', harg⟩ := exists_route hargs hr
  refine mem_namedGoals.mpr ⟨r', hr', ?_, ?_⟩
  · rw [Route.isNamed, harg]
    exact hnamed
  · rw [← h r hr r' hr' hnamed harg, hgoal]

/-- They leave the same parameters free. -/
theorem AgreeOnNames.freeFor_eq (h : AgreeOnNames routes routes')
    (hargs : (routes.map Route.arg).Perm (routes'.map Route.arg)) :
    freeFor formals routes = freeFor formals routes' := by
  refine List.filter_congr fun formal _ => decide_eq_decide.mpr (not_congr ?_)
  exact ⟨fun hmem => h.namedGoals_subset hargs hmem,
    fun hmem => h.symm.namedGoals_subset hargs.symm hmem⟩

theorem agreeOnNames (h : Matches formals routes) (h' : Matches formals routes')
    (hdots : dots ∉ formals) (hargs : (routes.map Route.arg).Perm (routes'.map Route.arg)) :
    AgreeOnNames routes routes' := by
  intro r hr r' hr' hnamed harg
  obtain ⟨name, hname⟩ := Option.isSome_iff_exists.mp hnamed
  exact goal_eq h h' hdots hargs hr hr' hname (by rw [harg, hname])

/-- The unnamed arguments, in order, and the free parameters say where the unnamed arguments go. -/
theorem InPlace.unnamed_eq {free : List String} (h : InPlace free routes)
    (h' : InPlace free routes')
    (hargs : (routes.map Route.arg).filter (fun a => a.name.isNone) =
      (routes'.map Route.arg).filter fun a => a.name.isNone) :
    (routes.filter fun r => !r.isNamed) = routes'.filter fun r => !r.isNamed := by
  rw [List.filter_map, List.filter_map] at hargs
  have hkind : (fun r : Route => !r.isNamed) = (fun a : Arg Node => a.name.isNone) ∘ Route.arg :=
    funext fun r => Option.not_isSome _
  refine List.ext_getElem? fun i => ?_
  have hi := congrArg (·[i]?) hargs
  simp only [← hkind, List.getElem?_map] at hi
  cases hr : (routes.filter fun r => !r.isNamed)[i]? with
  | none =>
    rw [hr, Option.map_none, eq_comm, Option.map_eq_none_iff] at hi
    exact hi.symm
  | some r =>
    rw [hr, Option.map_some, eq_comm, Option.map_eq_some_iff] at hi
    obtain ⟨r', hr', harg⟩ := hi
    rw [hr', Route.ext harg ((h' i r' hr').trans (h i r hr).symm)]

/-- In another order that can be matched, the arguments have the same routes. -/
theorem subset_of_rearranged (h : Matches formals routes) (h' : Matches formals routes')
    (hdots : dots ∉ formals) (hargs : Rearranged (routes.map Route.arg) (routes'.map Route.arg)) :
    routes ⊆ routes' := by
  intro r hr
  have hagree := agreeOnNames h h' hdots hargs.perm
  cases hnamed : r.isNamed with
  | true =>
    obtain ⟨r', hr', harg⟩ := exists_route hargs.perm hr
    rw [Route.ext harg.symm (hagree r hr r' hr' hnamed harg)]
    exact hr'
  | false =>
    have hplace := h.unnamed
    rw [hagree.freeFor_eq hargs.perm] at hplace
    have hmem : r ∈ routes.filter fun r => !r.isNamed :=
      List.mem_filter.mpr ⟨hr, by simp [hnamed]⟩
    rw [hplace.unnamed_eq h'.unnamed hargs.unnamed] at hmem
    exact (List.mem_filter.mp hmem).1

/-- Routes are put in the same order whatever the order of the arguments. -/
theorem arranged_eq_of_subset (h : Matches formals routes) (h' : Matches formals routes')
    (hdots : dots ∉ formals) (hsubset : routes ⊆ routes') (hsubset' : routes' ⊆ routes) :
    arranged formals routes = arranged formals routes' := by
  refine congrArg (List.map Route.result) (List.flatMap_congr fun formal hformal => ?_)
  have hne : formal ≠ dots := fun heq => hdots (heq ▸ hformal)
  simp only [place_eq_iff hne]
  by_cases hmem : formal ∈ goals routes
  · obtain ⟨r, hr, hgoal⟩ := mem_goals.mp hmem
    rw [filter_goal h.once hr hgoal, filter_goal h'.once (hsubset hr) hgoal]
  · have hnone (routes : List Route) (hmem : formal ∉ goals routes) :
        routes.filter (fun r => r.goal = some formal) = [] :=
      List.filter_eq_nil_iff.mpr fun r hr hgoal =>
        hmem (mem_goals.mpr ⟨r, hr, of_decide_eq_true hgoal⟩)
    rw [hnone routes hmem, hnone routes' fun hmem' => hmem ?_]
    obtain ⟨r, hr, hgoal⟩ := mem_goals.mp hmem'
    exact mem_goals.mpr ⟨r, hsubset' hr, hgoal⟩

theorem arranged_rearranged (h : Matches formals routes) (h' : Matches formals routes')
    (hdots : dots ∉ formals) (hargs : Rearranged (routes.map Route.arg) (routes'.map Route.arg)) :
    arranged formals routes = arranged formals routes' :=
  arranged_eq_of_subset h h' hdots (subset_of_rearranged h h' hdots hargs)
    (subset_of_rearranged h' h hdots hargs.symm)

/-! ## Orders in which no name is ambiguous -/

theorem Precedes.name_ne (h : Precedes routes q r)
    (hnodup : ((routes.map Route.arg).filterMap Arg.name).Nodup) (hname : r.arg.name = some name) :
    q.arg.name ≠ some name := by
  intro hsame
  obtain ⟨before, between, after, rfl⟩ := h
  simp only [List.map_append, List.map_cons, List.filterMap_append, List.filterMap_cons, hsame,
    hname] at hnodup
  refine (List.nodup_cons.mp hnodup.of_append_right).1 ?_
  exact List.mem_append_right _ List.mem_cons_self

/-- A name that is not ambiguous begins no other parameter. -/
theorem IsUnambiguous.eq_of_mem (h : IsUnambiguous formals (routes.map Route.arg)) (hr : r ∈ routes)
    (hname : r.arg.name = some name) (hexact : exactName? formals r.arg = none)
    (hformal : formal ∈ openAtFirst formals (routes.map Route.arg) name)
    (hother : other ∈ openAtFirst formals (routes.map Route.arg) name) : formal = other := by
  have hone := h r.arg (List.mem_map_of_mem hr) name hname hexact
  obtain ⟨only, honly⟩ := List.length_eq_one_iff.mp
    (le_antisymm hone (List.length_pos_of_mem hformal))
  rw [honly] at hformal hother
  exact (List.mem_singleton.mp hformal).trans (List.mem_singleton.mp hother).symm

/-- If no name is ambiguous, arguments in turn go where they go in an order that can be matched. -/
theorem AgreeOnNames.of_unambiguous (h : Matches formals routes) (hdots : dots ∉ formals)
    (hclear : IsUnambiguous formals (routes.map Route.arg))
    (hargs : (routes.map Route.arg).Perm (routes'.map Route.arg))
    (h' : InTurn formals (exactNames formals (routes'.map Route.arg)) routes') :
    AgreeOnNames routes routes' := by
  intro r hr r' hr' hnamed harg
  obtain ⟨name, hname⟩ := Option.isSome_iff_exists.mp hnamed
  have hname' : r'.arg.name = some name := by rw [harg, hname]
  obtain ⟨f, hf⟩ := h.exists_goal hdots hr
  cases hexact : exactName? formals r.arg with
  | some formal => rw [h.named.exact r hr formal hexact, h'.exact r' hr' formal (harg ▸ hexact)]
  | none =>
    have hopen := h.named.mem_openAtFirst hr hname hexact hf
    rw [hf, eq_comm]
    by_contra hdiffer
    -- an argument before `r'` goes to the parameter; it has to be `r`, and so is not before it
    rw [openAtFirst_perm hargs] at hopen
    obtain ⟨q', hqnamed, hqgoal, hbefore⟩ :=
      h'.exists_precedes hr' hname' (harg ▸ hexact) hdiffer hopen
    obtain ⟨m, hm⟩ := Option.isSome_iff_exists.mp hqnamed
    obtain ⟨q, hq, hqarg⟩ := exists_route hargs.symm hbefore.mem
    obtain ⟨k, hk⟩ := h.exists_goal hdots hq
    have hqexact := h'.exactName?_of_free hbefore.mem hqgoal (mem_openTo.mp hopen).2.1
    have hqopen := h'.mem_openAtFirst hbefore.mem hm hqexact hqgoal
    rw [← hqarg] at hm hqexact
    rw [← openAtFirst_perm hargs] at hqopen
    obtain rfl := hclear.eq_of_mem hq hm hqexact hqopen (h.named.mem_openAtFirst hq hm hqexact hk)
    obtain rfl := h.eq_of_goal hq hr hk hf
    have hnodup := (hargs.filterMap Arg.name).nodup_iff.mp (h.nodup_names hdots)
    exact hbefore.name_ne hnodup hname' (by rw [← hqarg, hname])

/-- The unnamed arguments find free parameters. -/
theorem Matches.countP_unnamed_le (h : Matches formals routes) (hdots : dots ∉ formals) :
    ((routes.map Route.arg).countP fun a => a.name.isNone) ≤ (freeFor formals routes).length := by
  have hall : ∀ r ∈ routes.filter (fun r => !r.isNamed), r.goal.isSome = true := by
    intro r hr
    obtain ⟨formal, hgoal⟩ := h.exists_goal hdots (List.mem_filter.mp hr).1
    rw [hgoal]
    rfl
  have hlength := List.filterMap_length_eq_length.mpr hall
  rw [← goals, h.unnamed.goals_eq, List.length_take, ← List.countP_eq_length_filter] at hlength
  rw [List.countP_map]
  refine le_trans (List.countP_congr fun r _ => ?_).le (hlength ▸ Nat.min_le_right _ _)
  rw [Route.isNamed, Option.not_isSome]
  rfl

/-- If no name is ambiguous, the arguments can be matched in every order or in none. -/
theorem exists_matches_rearranged (hformals : formals.Nodup) (h : Matches formals routes)
    (hdots : dots ∉ formals) (hclear : IsUnambiguous formals (routes.map Route.arg))
    (hargs : (routes.map Route.arg).Perm args) :
    ∃ routes', routes'.map Route.arg = args ∧ Matches formals routes' := by
  rcases exists_matches_or hformals args with hmatches | hrepeats | hambiguous | hleft
  · exact hmatches
  · have hnodup := (hargs.filterMap (exactName? formals)).nodup_iff.mp h.nodup_exactNames
    exact absurd hrepeats (nodup_exactNames_iff.mp hnodup)
  · obtain ⟨before, a, after, name, rfl, -, hname, hexact, hseveral⟩ := hambiguous
    have hone := hclear.perm hargs a (List.mem_append_right _ List.mem_cons_self) name hname hexact
    have hfewer := (openTo_sublist_openAtFirst formals (before.map Route.arg ++ a :: after)
      (namedGoals before) name).length_le
    exact absurd (hseveral.trans_le hfewer) (Nat.not_lt.mpr hone)
  · obtain ⟨-, routes', rfl, hturn, hleft⟩ := hleft
    have hagree := AgreeOnNames.of_unambiguous h hdots hclear hargs hturn
    rcases hleft with ⟨r', hr', hnamed, hgoal⟩ | hfew
    · obtain ⟨r, hr, harg⟩ := exists_route hargs.symm hr'
      obtain ⟨formal, hformal⟩ := h.exists_goal hdots hr
      rw [hagree.symm r' hr' r hr hnamed harg, hformal] at hgoal
      cases hgoal
    · have hmany := h.countP_unnamed_le hdots
      rw [hargs.countP_eq, hagree.freeFor_eq hargs] at hmany
      exact absurd hfew (Nat.not_lt.mpr hmany)

/-- A name that begins several of the parameters that exact names leave is refused when it stands
first. -/
theorem exists_refused_order (h : ¬ IsUnambiguous formals args) :
    ∃ args', Rearranged args args' ∧ ∃ e, standardArgs formals args' = .error e := by
  simp only [IsUnambiguous, not_forall, Nat.not_le] at h
  obtain ⟨a, ha, name, hname, hexact, hseveral⟩ := h
  obtain ⟨before, after, rfl⟩ := List.append_of_mem ha
  have hperm : (before ++ a :: after).Perm (a :: (before ++ after)) := List.perm_middle
  refine ⟨a :: (before ++ after), ⟨hperm, ?_⟩, exists_error_of_unmatched (.inr (.inl ?_))⟩
  · simp only [List.filter_append, List.filter_cons, hname, Option.isNone_some, Bool.false_eq_true,
      if_false]
  · refine ⟨[], a, before ++ after, name, rfl, inTurn_nil, hname, hexact, ?_⟩
    rw [namedGoals_nil, List.append_nil, ← openAtFirst, ← openAtFirst_perm hperm]
    exact hseveral

end Matching

open Matching

namespace Call

/-- If no name is ambiguous, every order gives what one order gives. -/
theorem standardise_eq_ok_of_rearranged {c d : Call} {formals : List String}
    {args : List (Arg Node)} (hformals : formals.Nodup) (hdots : dots ∉ formals)
    (hclear : IsUnambiguous formals c.args) (hargs : Rearranged c.args args)
    (h : c.standardise formals = .ok d) : { c with args := args }.standardise formals = .ok d := by
  obtain ⟨routes, hroutes, hmatches, rfl⟩ := (standardise_eq_ok_iff hformals).mp h
  rw [← hroutes] at hclear hargs
  obtain ⟨routes', rfl, hmatches'⟩ :=
    exists_matches_rearranged hformals hmatches hdots hclear hargs.perm
  refine (standardise_eq_ok_iff hformals).mpr ⟨routes', rfl, hmatches', ?_⟩
  rw [arranged_rearranged hmatches hmatches' hdots hargs]

/-- Two orders of the arguments of a call without `...` give the same call if both can be matched.
If no name begins several of the parameters that exact names leave, all orders have the same
outcome. If some name does, it is refused when it stands first, whatever becomes of other orders. -/
theorem standardise_rearranged (c : Call) {formals : List String} (hformals : formals.Nodup)
    (hdots : dots ∉ formals) :
    (∀ args d e, Rearranged c.args args → c.standardise formals = .ok d →
      { c with args := args }.standardise formals = .ok e → d = e) ∧
    (IsUnambiguous formals c.args → ∀ args, Rearranged c.args args →
      (c.standardise formals).toOption = ({ c with args := args }.standardise formals).toOption) ∧
    (¬ IsUnambiguous formals c.args → ∃ args, Rearranged c.args args ∧
      ∃ e, { c with args := args }.standardise formals = .error e) := by
  refine ⟨fun args d e hargs hd he => ?_, fun hclear args hargs => ?_, fun hunclear => ?_⟩
  · obtain ⟨routes, hroutes, hmatches, rfl⟩ := (standardise_eq_ok_iff hformals).mp hd
    obtain ⟨routes', rfl, hmatches', rfl⟩ := (standardise_eq_ok_iff hformals).mp he
    rw [← hroutes] at hargs
    rw [arranged_rearranged hmatches hmatches' hdots hargs]
  · have hforth (d : Call) := standardise_eq_ok_of_rearranged (d := d) hformals hdots hclear hargs
    have hback (d : Call) (h : { c with args := args }.standardise formals = .ok d) :=
      standardise_eq_ok_of_rearranged hformals hdots (hclear.perm hargs.perm) hargs.symm h
    cases hc : c.standardise formals with
    | ok d => rw [hforth d hc]
    | error e =>
      cases hc' : { c with args := args }.standardise formals with
      | error e' => rfl
      | ok d =>
        have : c.standardise formals = .ok d := hback d hc'
        rw [hc] at this
        cases this
  · obtain ⟨args, hargs, e, he⟩ := exists_refused_order hunclear
    exact ⟨args, hargs, e, by rw [standardise, he]; rfl⟩

theorem standardise_rearranged_verbose :
    let value : Arg Node := ⟨some "value", .constant (.integer 1) .nowhere⟩
    let verb : Arg Node := ⟨some "verb", .constant (.logical true) .nowhere⟩
    let unnamed : Arg Node := ⟨none, .symbol "x" .nowhere⟩
    let formals := ["value", "verbose", "data"]
    let c : Call := ⟨.symbol "f" .nowhere, [verb, unnamed, value], .nowhere⟩
    formals.Nodup ∧ dots ∉ formals ∧ Rearranged c.args [unnamed, value, verb] ∧
      IsUnambiguous formals c.args ∧
      ({ c with args := [unnamed, value, verb] }.standardise formals).toOption =
        some { c with
          args := [value, ⟨some "verbose", verb.value⟩, ⟨some "data", unnamed.value⟩] } := by
  intro value verb unnamed formals c
  have hargs : Rearranged c.args [unnamed, value, verb] :=
    ⟨.trans (.swap unnamed verb [value]) (.cons unnamed (.swap value verb [])), rfl⟩
  have hclear : IsUnambiguous formals c.args := by
    intro a ha name hname hexact
    simp only [c, List.mem_cons, List.not_mem_nil, or_false] at ha
    rcases ha with rfl | rfl | rfl
    · obtain rfl := Option.some.inj hname
      decide
    · cases hname
    · exact absurd hexact (by decide)
  refine ⟨by decide, by decide, hargs, hclear, ?_⟩
  rw [← (standardise_rearranged c (by decide) (by decide)).2.1 hclear _ hargs]
  rfl

/-- The order of two named arguments decides whether a call can be matched: `v` is refused where it
stands first, but after `ve` has taken `verbose` it begins only `value`. -/
theorem standardise_order_matters :
    let v : Arg Node := ⟨some "v", .constant (.integer 2) .nowhere⟩
    let ve : Arg Node := ⟨some "ve", .constant (.integer 1) .nowhere⟩
    let formals := ["value", "verbose"]
    let c : Call := ⟨.symbol "f" .nowhere, [ve, v], .nowhere⟩
    (c.args.filterMap Arg.name).Nodup ∧ Rearranged c.args [v, ve] ∧
      c.standardise formals =
        .ok { c with args := [⟨some "value", v.value⟩, ⟨some "verbose", ve.value⟩] } ∧
      { c with args := [v, ve] }.standardise formals =
        .error (.ambiguous "v" ["value", "verbose"]) := by
  intro v ve formals c
  exact ⟨by decide, ⟨.swap v ve [], rfl⟩, rfl, rfl⟩

end Call

end RCode
