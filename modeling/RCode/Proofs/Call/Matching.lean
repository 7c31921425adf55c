import RCode.Proofs.Call.Routes
import RCode.Proofs.Failure

/-!
# Matching follows the rules

The passes over the arguments are compared with the rules, one pass at a time: the named arguments
that match exactly, those that match in part, and the unnamed ones. Arguments with routes are put
in the order that the routes give (`standardArgs_of_matches`), and arguments without routes are
refused (`exists_error_of_unmatched`). Since there are no other arguments, matching loses, repeats
and invents nothing (`Call.standardise_conserves`).
-/

set_option autoImplicit false

namespace RCode.Matching

variable {formals taken free : List String} {matched : Matched} {routes : List Route} {r : Route}
  {a : Arg Node} {args more : List (Arg Node)} {name formal : String} {hasDots : Bool}

/-! ## The values of parameters -/

/-- The parameters with the values that go to them. -/
def entries (routes : List Route) : Matched :=
  routes.filterMap fun r => r.goal.map fun formal => ⟨formal, r.arg.value⟩

theorem map_name_entries (routes : List Route) :
    (entries routes).map Entry.name = goals routes := by
  rw [entries, List.map_filterMap, goals]
  refine List.filterMap_congr fun r _ => ?_
  cases r.goal <;> rfl

theorem mem_entries {e : Entry Node} :
    e ∈ entries routes ↔ ∃ r ∈ routes, r.goal = some e.name ∧ r.arg.value = e.value := by
  simp only [entries, List.mem_filterMap, Option.map_eq_some_iff]
  constructor
  · rintro ⟨r, hr, formal, hgoal, rfl⟩
    exact ⟨r, hr, hgoal, rfl⟩
  · rintro ⟨r, hr, hgoal, hvalue⟩
    exact ⟨r, hr, e.name, hgoal, by rw [hvalue]⟩

theorem entries_cons_some (hgoal : r.goal = some formal) :
    entries (r :: routes) = ⟨formal, r.arg.value⟩ :: entries routes := by
  rw [entries, List.filterMap_cons, hgoal]
  rfl

theorem entries_cons_none (hgoal : r.goal = none) : entries (r :: routes) = entries routes := by
  rw [entries, List.filterMap_cons, hgoal]
  rfl

theorem has_iff : matched.has name = true ↔ name ∈ matched.map Entry.name := by
  simp [Matched.has]

theorem has_concat {e : Entry Node} :
    Matched.has (matched ++ [e]) name = true ↔ matched.has name = true ∨ name = e.name := by
  rw [has_iff, has_iff, List.map_append, List.mem_append, List.map_singleton, List.mem_singleton]

theorem not_has_eq (h : matched.has formal = true ↔ formal ∈ taken) :
    (!matched.has formal) = decide (formal ∉ taken) := by
  rw [Bool.eq_iff_iff, Bool.not_eq_true', ← Bool.not_eq_true, h, decide_eq_true_iff]

/-- What a name may stand for, by the parameters with values and by their names. -/
theorem candidates_eq {leading : List String} (h : ∀ f, matched.has f = true ↔ f ∈ taken)
    (name : String) : candidates leading matched name = openTo leading taken name :=
  List.filter_congr fun f _ => by rw [not_has_eq (h f)]

/-! ## Kinds of arguments -/

namespace Route

/-- The argument has exactly the name of a parameter. -/
def isExact (formals : List String) (r : Route) : Bool :=
  (exactName? formals r.arg).isSome

/-- The argument has a name that is not exactly that of a parameter. -/
def isPartial (formals : List String) (r : Route) : Bool :=
  !r.isExact formals && r.isNamed

/-- No name takes the argument to a parameter. -/
def isLeft (formals : List String) (r : Route) : Bool :=
  !r.isExact formals && (!r.isNamed || r.goal.isNone)

theorem kinds_of_exact (h : exactName? formals r.arg = some formal) :
    r.isNamed = true ∧ r.isExact formals = true ∧ r.isPartial formals = false ∧
      r.isLeft formals = false := by
  simp [isNamed, isExact, isPartial, isLeft, h, (exactName?_eq_some.mp h).1]

theorem kinds_of_partial (hname : r.arg.name = some name) (h : exactName? formals r.arg = none) :
    r.isNamed = true ∧ r.isExact formals = false ∧ r.isPartial formals = true ∧
      r.isLeft formals = r.goal.isNone := by
  simp [isNamed, isExact, isPartial, isLeft, h, hname]

theorem kinds_of_unnamed (formals : List String) (hname : r.arg.name = none) :
    exactName? formals r.arg = none ∧ r.isNamed = false ∧ r.isExact formals = false ∧
      r.isPartial formals = false ∧ r.isLeft formals = true := by
  simp [isNamed, isExact, isPartial, isLeft, exactName?, hname]

end Route

/-! ## Exact names -/

/-- Arguments with exact names go to the parameters of these names. -/
def ExactlyNamed (formals : List String) (routes : List Route) : Prop :=
  ∀ r ∈ routes, ∀ formal, exactName? formals r.arg = some formal → r.goal = some formal

theorem exactly_cons_some (h : exactName? formals a = some formal) :
    exactly formals matched (a :: args) =
      if matched.has formal then .error (.matchedTwice formal)
      else exactly formals (matched ++ [⟨formal, a.value⟩]) args := by
  have : exactName? formals a = a.name.filter fun name => name ≠ dots ∧ name ∈ formals := rfl
  rw [exactly, ← this, h]

theorem exactly_cons_none (h : exactName? formals a = none) :
    exactly formals matched (a :: args) =
      (exactly formals matched args).map fun (m, others) => (m, a :: others) := by
  have : exactName? formals a = a.name.filter fun name => name ≠ dots ∧ name ∈ formals := rfl
  rw [exactly, ← this, h]

/-- Different exact names are matched with their parameters, and the other arguments are left. -/
theorem exactly_eq (matched : Matched)
    (hexact : ExactlyNamed formals routes)
    (hnodup : (matched.map Entry.name ++ exactNames formals (routes.map Route.arg)).Nodup) :
    exactly formals matched (routes.map Route.arg) =
      .ok (matched ++ entries (routes.filter (Route.isExact formals)),
        (routes.filter fun r => !r.isExact formals).map Route.arg) := by
  induction routes generalizing matched with
  | nil => simp [exactly, entries]
  | cons r routes ih =>
    obtain ⟨hfirst, hrest⟩ := List.forall_mem_cons.mp hexact
    rw [List.map_cons, exactNames_cons] at hnodup
    rw [List.map_cons]
    cases hname : exactName? formals r.arg with
    | none =>
      rw [hname] at hnodup
      have hkind : r.isExact formals = false := by simp [Route.isExact, hname]
      rw [exactly_cons_none hname, ih matched hrest hnodup]
      simp only [List.filter_cons, hkind, Bool.not_false, Bool.false_eq_true, if_true, if_false]
      rfl
    | some formal =>
      rw [hname] at hnodup
      obtain ⟨-, hkind, -, -⟩ := Route.kinds_of_exact hname
      have hnew : ¬ matched.has formal = true := fun hhas =>
        List.disjoint_of_nodup_append hnodup (has_iff.mp hhas) List.mem_cons_self
      have hnodup' : ((matched ++ [(⟨formal, r.arg.value⟩ : Entry Node)]).map Entry.name ++
          exactNames formals (routes.map Route.arg)).Nodup := by
        rw [List.map_append, List.append_assoc]
        exact hnodup
      rw [exactly_cons_some hname, if_neg hnew, ih _ hrest hnodup']
      simp only [List.filter_cons, hkind, Bool.not_true, Bool.false_eq_true, if_true, if_false,
        entries_cons_some (hfirst formal hname), List.append_assoc, List.singleton_append]

/-- Names that are matched exactly differ. -/
theorem nodup_of_exactly {x : Matched × List (Arg Node)} (h : exactly formals matched args = .ok x)
    (hmatched : (matched.map Entry.name).Nodup) :
    (matched.map Entry.name ++ exactNames formals args).Nodup := by
  induction args generalizing matched x with
  | nil => simpa [exactNames] using hmatched
  | cons a args ih =>
    rw [exactNames_cons]
    cases hname : exactName? formals a with
    | none =>
      rw [exactly_cons_none hname] at h
      cases hrest : exactly formals matched args with
      | error e =>
        rw [hrest] at h
        cases h
      | ok y => exact ih hrest hmatched
    | some formal =>
      rw [exactly_cons_some hname] at h
      split at h
      · cases h
      · next hnew =>
        have hmatched' :
            ((matched ++ [(⟨formal, a.value⟩ : Entry Node)]).map Entry.name).Nodup := by
          rw [List.map_append]
          refine hmatched.append (List.nodup_singleton _) (List.disjoint_singleton.mpr ?_)
          exact fun hmem => hnew (has_iff.mpr hmem)
        have := ih h hmatched'
        rwa [List.map_append, List.append_assoc] at this

/-! ## Names that match in part -/

theorem partially_cons_unnamed {leading : List String} (h : a.name = none) :
    partially leading matched (a :: args) =
      (partially leading matched args).map fun (m, others) => (m, a :: others) := by
  rw [partially, h]

theorem partially_cons_nil {leading : List String} (h : a.name = some name)
    (hopen : candidates leading matched name = []) :
    partially leading matched (a :: args) =
      (partially leading matched args).map fun (m, others) => (m, a :: others) := by
  simp only [partially, h, hopen]

theorem partially_cons_one {leading : List String} (h : a.name = some name)
    (hopen : candidates leading matched name = [formal]) :
    partially leading matched (a :: args) =
      partially leading (matched ++ [⟨formal, a.value⟩]) args := by
  simp only [partially, h, hopen]

theorem partially_cons_several {leading : List String} (h : a.name = some name)
    (hopen : 1 < (candidates leading matched name).length) :
    partially leading matched (a :: args) =
      .error (.ambiguous name (candidates leading matched name)) := by
  simp only [partially, h]
  split
  · next heq => rw [heq] at hopen; cases hopen
  · next heq => rw [heq] at hopen; exact absurd hopen (Nat.lt_irrefl 1)
  · rfl

/-- Arguments in turn go where their routes say, and matching goes on with those that follow. -/
theorem partially_append (hturn : InTurn formals taken routes)
    (htaken : ∀ f, matched.has f = true ↔ f ∈ taken)
    (hexact : ∀ r ∈ routes, ∀ formal, exactName? formals r.arg = some formal → formal ∈ taken)
    (more : List (Arg Node)) :
    partially (leading formals) matched
        ((routes.filter fun r => !r.isExact formals).map Route.arg ++ more) =
      (partially (leading formals)
        (matched ++ entries (routes.filter (Route.isPartial formals))) more).map
        fun (m, others) => (m, (routes.filter (Route.isLeft formals)).map Route.arg ++ others) := by
  -- the parameters with values are always those that are taken (`htaken`)
  induction routes generalizing taken matched with
  | nil =>
    simp only [entries, List.filter_nil, List.filterMap_nil, List.append_nil, List.map_nil,
      List.nil_append]
    cases partially (leading formals) matched more <;> rfl
  | cons r routes ih =>
    obtain ⟨hgoes, hrest⟩ := inTurn_cons.mp hturn
    obtain ⟨hfirst, hexact⟩ := List.forall_mem_cons.mp hexact
    have hexact' : ∀ q ∈ routes, ∀ formal, exactName? formals q.arg = some formal →
        formal ∈ taken ++ namedGoals [r] :=
      fun q hq formal hname => List.mem_append_left _ (hexact q hq formal hname)
    cases hname : exactName? formals r.arg with
    | some formal =>
      -- the parameter has been taken before the turns begin
      obtain ⟨hnamed, hkind, hpartial, hleft⟩ := Route.kinds_of_exact hname
      have htaken' : ∀ f, matched.has f = true ↔ f ∈ taken ++ namedGoals [r] := by
        intro f
        rw [htaken, namedGoals_cons_named hnamed, hgoes.exact formal hname, List.mem_append]
        refine ⟨.inl, fun hmem => hmem.elim id fun hmem => ?_⟩
        rw [List.mem_singleton.mp hmem]
        exact hfirst formal hname
      simp only [List.filter_cons, hkind, hpartial, hleft, Bool.not_true, Bool.false_eq_true,
        if_false]
      exact ih hrest htaken' hexact'
    | none =>
      cases hargName : r.arg.name with
      | none =>
        obtain ⟨-, hnamed, hkind, hpartial, hleft⟩ := Route.kinds_of_unnamed formals hargName
        rw [namedGoals_cons_unnamed hnamed, namedGoals_nil, List.append_nil] at hrest
        simp only [List.filter_cons, hkind, hpartial, hleft, Bool.not_false, Bool.false_eq_true,
          if_true, if_false, List.map_cons, List.cons_append]
        rw [partially_cons_unnamed hargName, ih hrest htaken hexact]
        cases partially (leading formals)
          (matched ++ entries (routes.filter (Route.isPartial formals))) more <;> rfl
      | some name =>
        obtain ⟨hnamed, hkind, hpartial, hleft⟩ := Route.kinds_of_partial hargName hname
        have hopen := hgoes.inPart name hargName hname
        rw [← candidates_eq htaken] at hopen
        rw [namedGoals_cons_named hnamed] at hrest hexact'
        simp only [List.filter_cons, hkind, hpartial, hleft, Bool.not_false, if_true,
          List.map_cons, List.cons_append]
        cases hgoal : r.goal with
        | none =>
          rw [hgoal] at hopen hrest
          rw [Option.toList_none, List.nil_append, namedGoals_nil, List.append_nil] at hrest
          rw [partially_cons_nil hargName hopen, ih hrest htaken hexact, entries_cons_none hgoal]
          simp only [Option.isNone_none, if_true]
          cases partially (leading formals)
            (matched ++ entries (routes.filter (Route.isPartial formals))) more <;> rfl
        | some formal =>
          rw [hgoal] at hopen hrest hexact'
          have htaken' : ∀ f,
              Matched.has (matched ++ [(⟨formal, r.arg.value⟩ : Entry Node)]) f = true ↔
              f ∈ taken ++ ((some formal).toList ++ namedGoals []) := by
            intro f
            rw [has_concat, htaken, List.mem_append]
            exact or_congr_right List.mem_singleton.symm
          rw [partially_cons_one hargName hopen, ih hrest htaken' hexact', entries_cons_some hgoal,
            List.append_assoc]
          simp only [Option.isNone_some, Bool.false_eq_true, if_false, List.singleton_append]

/-! ## Places -/

theorem byPlace_cons_formal (h : a.name = none) :
    byPlace hasDots (formal :: free) matched (a :: args) =
      byPlace hasDots free (matched ++ [⟨formal, a.value⟩]) args := by
  simp only [byPlace, h]

theorem byPlace_cons_left (h : a.name = none → free = []) :
    byPlace hasDots free matched (a :: args) =
      if hasDots then (byPlace hasDots free matched args).map fun (m, others) => (m, a :: others)
      else .error (.unused (shown a)) := by
  rw [byPlace]
  intro formal others hname hfree
  rw [h hname] at hfree
  cases hfree

/-- The arguments that are left go where their routes say, if `...` is there for the last ones. -/
theorem byPlace_eq (hplace : InPlace free routes)
    (hexact : ExactlyNamed formals routes)
    (habsorbed : ∀ r ∈ routes, r.goal = none → hasDots = true) :
    byPlace hasDots free matched ((routes.filter (Route.isLeft formals)).map Route.arg) =
      .ok (matched ++ entries (routes.filter fun r => !r.isNamed), absorbed routes) := by
  induction routes generalizing free matched with
  | nil => simp [byPlace, entries, absorbed]
  | cons r routes ih =>
    obtain ⟨hfirst, hexact⟩ := List.forall_mem_cons.mp hexact
    obtain ⟨hdots, habsorbed⟩ := List.forall_mem_cons.mp habsorbed
    cases hargName : r.arg.name with
    | none =>
      obtain ⟨-, hnamed, -, -, hleft⟩ := Route.kinds_of_unnamed formals hargName
      obtain ⟨hgoal, hrest⟩ := (inPlace_cons_unnamed hnamed).mp hplace
      simp only [absorbed, List.filter_cons, hleft, hnamed, Bool.not_false, if_true, List.map_cons]
      cases free with
      | nil =>
        rw [List.tail_nil] at hrest
        rw [byPlace_cons_left fun _ => rfl, if_pos (hdots hgoal), ih hrest hexact habsorbed,
          entries_cons_none hgoal, hgoal]
        rfl
      | cons formal free =>
        rw [List.tail_cons] at hrest
        rw [byPlace_cons_formal hargName, ih hrest hexact habsorbed, entries_cons_some hgoal, hgoal,
          List.append_assoc]
        rfl
    | some name =>
      -- a named argument takes no place, so the same parameters stay free
      have hnamed : r.isNamed = true := by simp [Route.isNamed, hargName]
      have hrest := (inPlace_cons_named hnamed).mp hplace
      have ih :
          byPlace hasDots free matched ((routes.filter (Route.isLeft formals)).map Route.arg) =
          .ok (matched ++ entries (routes.filter fun r => !r.isNamed),
            (routes.filter fun r => r.goal.isNone).map Route.arg) :=
        ih hrest hexact habsorbed
      simp only [absorbed, List.filter_cons, hnamed, Bool.not_true, Bool.false_eq_true, if_false]
      cases hname : exactName? formals r.arg with
      | some formal =>
        obtain ⟨-, -, -, hleft⟩ := Route.kinds_of_exact hname
        simp only [hleft, hfirst formal hname, Option.isNone_some, Bool.false_eq_true, if_false, ih]
      | none =>
        obtain ⟨-, -, -, hleft⟩ := Route.kinds_of_partial hargName hname
        cases hgoal : r.goal with
        | some formal =>
          simp only [hleft, hgoal, Option.isNone_some, Bool.false_eq_true, if_false, ih]
        | none =>
          have hunnamed : r.arg.name = none → free = [] := fun h => by
            rw [hargName] at h
            cases h
          simp only [hleft, hgoal, Option.isNone_none, if_true, List.map_cons]
          rw [byPlace_cons_left hunnamed, if_pos (hdots hgoal), ih]
          rfl

/-- Without `...` no named argument may be left, and no more unnamed ones than there are places. -/
theorem exists_error_of_byPlace
    (h : (∃ a ∈ args, a.name.isSome = true) ∨ free.length < args.length) :
    ∃ e, byPlace false free matched args = .error e := by
  induction args generalizing free matched with
  | nil =>
    rcases h with ⟨a, ha, -⟩ | hlength
    · cases ha
    · cases hlength
  | cons a args ih =>
    cases hname : a.name with
    | some name =>
      have hunnamed : a.name = none → free = [] := fun h => by
        rw [hname] at h
        cases h
      refine ⟨.unused (shown a), ?_⟩
      rw [byPlace_cons_left hunnamed, if_neg Bool.false_ne_true]
    | none =>
      cases free with
      | nil =>
        refine ⟨.unused (shown a), ?_⟩
        rw [byPlace_cons_left fun _ => rfl, if_neg Bool.false_ne_true]
      | cons formal free =>
        rw [byPlace_cons_formal hname]
        refine ih ?_
        rcases h with ⟨b, hb, hnamed⟩ | hlength
        · rcases List.mem_cons.mp hb with rfl | hb
          · rw [hname] at hnamed
            cases hnamed
          · exact .inl ⟨b, hb, hnamed⟩
        · exact .inr (Nat.lt_of_succ_lt_succ hlength)

/-! ## The order of the parameters -/

theorem find?_eq_some_iff {es : List (Entry Node)} (h : (es.map Entry.name).Nodup) {v : Node} :
    Entry.find? es name = some v ↔ ⟨name, v⟩ ∈ es := by
  induction es with
  | nil => simp [Entry.find?]
  | cons e es ih =>
    obtain ⟨hnew, hnodup⟩ := List.nodup_cons.mp h
    rw [Entry.find?, List.mem_cons]
    split
    · next hname =>
      subst hname
      have hnot : ⟨e.name, v⟩ ∉ es := fun hmem => hnew (List.mem_map.mpr ⟨_, hmem, rfl⟩)
      simp only [hnot, or_false, Option.some.injEq]
      exact ⟨fun h => by rw [← h], fun h => by rw [← h]⟩
    · next hname =>
      rw [ih hnodup]
      exact ⟨.inr, fun h => h.resolve_left fun heq => hname (by rw [← heq])⟩

/-- One argument goes to a parameter that some argument goes to. -/
theorem filter_goal (honce : (goals routes).Nodup) (hr : r ∈ routes)
    (hgoal : r.goal = some formal) :
    routes.filter (fun r => r.goal = some formal) = [r] := by
  obtain ⟨before, after, rfl⟩ := List.append_of_mem hr
  rw [goals, List.filterMap_append, List.filterMap_cons, hgoal] at honce
  have hbefore : ∀ q ∈ before, ¬ decide (q.goal = some formal) = true := by
    intro q hq hsame
    exact List.disjoint_of_nodup_append honce (mem_goals.mpr ⟨q, hq, of_decide_eq_true hsame⟩)
      List.mem_cons_self
  have hafter : ∀ q ∈ after, ¬ decide (q.goal = some formal) = true := by
    intro q hq hsame
    exact (List.nodup_cons.mp honce.of_append_right).1
      (mem_goals.mpr ⟨q, hq, of_decide_eq_true hsame⟩)
  rw [List.filter_append, List.filter_eq_nil_iff.mpr hbefore, List.filter_cons,
    if_pos (decide_eq_true hgoal), List.filter_eq_nil_iff.mpr hafter, List.nil_append]

/-- The values of the parameters in order are the arguments in the order of their routes. -/
theorem ordered_eq (hmatched : matched.Perm (entries routes)) (honce : (goals routes).Nodup)
    (hdots : dots ∉ goals routes) :
    ordered formals matched (absorbed routes) = arranged formals routes := by
  have hnodup : (matched.map Entry.name).Nodup := by
    rw [(hmatched.map _).nodup_iff, map_name_entries]
    exact honce
  rw [arranged, inOrder, List.map_flatMap]
  refine List.flatMap_congr fun formal _ => ?_
  split
  · next heq =>
    -- at the place of `...` stand the arguments that go to no parameter
    subst heq
    have hplace : ∀ r ∈ routes, decide (r.place = dots) = r.goal.isNone := by
      intro r hr
      cases hgoal : r.goal with
      | none => simp [Route.place, hgoal]
      | some formal =>
        have hne : formal ≠ dots := fun heq => hdots (heq ▸ mem_goals.mpr ⟨r, hr, hgoal⟩)
        simpa [Route.place, hgoal] using hne
    rw [absorbed, List.filter_congr hplace]
    refine List.map_congr_left fun r hr => ?_
    rw [Route.result, Option.isNone_iff_eq_none.mp (List.mem_filter.mp hr).2]
  · next hne =>
    simp only [place_eq_iff hne]
    cases hfind : Entry.find? matched formal with
    | some v =>
      obtain ⟨r, hr, hgoal, rfl⟩ :=
        mem_entries.mp (hmatched.mem_iff.mp ((find?_eq_some_iff hnodup).mp hfind))
      rw [filter_goal honce hr hgoal, List.map_singleton, Route.result, hgoal]
      rfl
    | none =>
      have hnone : routes.filter (fun r => r.goal = some formal) = [] := by
        refine List.filter_eq_nil_iff.mpr fun r hr hsame => ?_
        have hmem : ⟨formal, r.arg.value⟩ ∈ matched :=
          hmatched.mem_iff.mpr (mem_entries.mpr ⟨r, hr, of_decide_eq_true hsame, rfl⟩)
        rw [(find?_eq_some_iff hnodup).mpr hmem] at hfind
        cases hfind
      rw [hnone]
      rfl

/-! ## All passes -/

/-- The values of the parameters that arguments name. -/
def namedEntries (formals : List String) (routes : List Route) : Matched :=
  entries (routes.filter (Route.isExact formals)) ++
    entries (routes.filter (Route.isPartial formals))

theorem entries_append (routes more : List Route) :
    entries (routes ++ more) = entries routes ++ entries more :=
  List.filterMap_append

/-- What arguments name is named exactly or in part. -/
theorem perm_filter_isNamed (formals : List String) (routes : List Route) :
    (routes.filter (Route.isExact formals) ++ routes.filter (Route.isPartial formals)).Perm
      (routes.filter Route.isNamed) := by
  have hexact : routes.filter (Route.isExact formals) =
      (routes.filter Route.isNamed).filter (Route.isExact formals) := by
    rw [List.filter_filter]
    refine List.filter_congr fun r _ => ?_
    cases hname : exactName? formals r.arg with
    | none => simp [Route.isExact, hname]
    | some formal =>
      obtain ⟨hnamed, hkind, -, -⟩ := Route.kinds_of_exact hname
      rw [hnamed, Bool.and_true]
  have hpartial : routes.filter (Route.isPartial formals) =
      (routes.filter Route.isNamed).filter fun r => !r.isExact formals := by
    rw [List.filter_filter]
    rfl
  rw [hexact, hpartial]
  exact List.filter_append_perm _ _

theorem namedEntries_perm (formals : List String) (routes : List Route) :
    (namedEntries formals routes).Perm (entries (routes.filter Route.isNamed)) := by
  rw [namedEntries, ← entries_append]
  exact (perm_filter_isNamed formals routes).filterMap _

theorem has_namedEntries :
    (namedEntries formals routes).has name = true ↔ name ∈ namedGoals routes := by
  rw [has_iff, ((namedEntries_perm formals routes).map _).mem_iff, map_name_entries, namedGoals]

theorem filter_has_eq_freeFor :
    ((leading formals).filter fun formal => !(namedEntries formals routes).has formal) =
      freeFor formals routes :=
  List.filter_congr fun _ _ => not_has_eq has_namedEntries

theorem InTurn.exact (h : InTurn formals taken routes) : ExactlyNamed formals routes := by
  intro r hr
  obtain ⟨before, after, rfl⟩ := List.append_of_mem hr
  exact (h before r after rfl).exact

/-- The arguments with exact names go to the parameters of these names. -/
theorem goals_isExact (h : ExactlyNamed formals routes) :
    goals (routes.filter (Route.isExact formals)) = exactNames formals (routes.map Route.arg) := by
  rw [goals, exactNames, List.filterMap_map, List.filterMap_filter]
  refine List.filterMap_congr fun r hr => ?_
  rw [Route.isExact, Function.comp_apply]
  cases hname : exactName? formals r.arg with
  | none => rfl
  | some formal => exact h r hr formal hname

/-- Arguments in turn are matched by name as their routes say; then the unnamed ones are placed. -/
theorem standardArgs_of_inTurn (hnodup : (exactNames formals (routes.map Route.arg)).Nodup)
    (hturn : InTurn formals (exactNames formals (routes.map Route.arg)) routes) :
    standardArgs formals (routes.map Route.arg) =
      (byPlace (dots ∈ formals) (freeFor formals routes) (namedEntries formals routes)
        ((routes.filter (Route.isLeft formals)).map Route.arg)).map
          fun (m, extra) => ordered formals m extra := by
  have hexactly := exactly_eq [] hturn.exact hnodup
  have htaken (f : String) : (entries (routes.filter (Route.isExact formals))).has f = true ↔
      f ∈ exactNames formals (routes.map Route.arg) := by
    rw [has_iff, map_name_entries, goals_isExact hturn.exact]
  have hpartially := partially_append hturn htaken
    (fun r hr formal hname => mem_exactNames.mpr ⟨r.arg, List.mem_map_of_mem hr, hname⟩) []
  rw [List.nil_append] at hexactly
  rw [List.append_nil] at hpartially
  rw [standardArgs, hexactly, ok_bind]
  dsimp only
  rw [hpartially]
  simp only [partially, Except.map, List.append_nil]
  rw [ok_bind, ← namedEntries, filter_has_eq_freeFor]
  cases byPlace (dots ∈ formals) (freeFor formals routes) (namedEntries formals routes)
    ((routes.filter (Route.isLeft formals)).map Route.arg) <;> rfl

theorem Matches.nodup_exactNames (h : Matches formals routes) :
    (exactNames formals (routes.map Route.arg)).Nodup := by
  rw [← goals_isExact h.named.exact]
  exact h.once.sublist (List.filter_sublist.filterMap _)

/-- Arguments with routes are put in the order that the routes give. -/
theorem standardArgs_of_matches (h : Matches formals routes) :
    standardArgs formals (routes.map Route.arg) = .ok (arranged formals routes) := by
  have hdots : ∀ r ∈ routes, r.goal = none → decide (dots ∈ formals) = true :=
    fun r hr hgoal => decide_eq_true (h.absorbed r hr hgoal)
  rw [standardArgs_of_inTurn h.nodup_exactNames h.named, byPlace_eq h.unnamed h.named.exact hdots]
  refine congrArg Except.ok (ordered_eq ?_ h.once fun hmem => (h.parameters dots hmem).2 rfl)
  refine ((namedEntries_perm formals routes).append_right _).trans ?_
  rw [← entries_append]
  exact (List.filter_append_perm _ _).filterMap _

/-! ## Arguments without routes -/

theorem has_append_partial
    (hexact : ExactlyNamed formals routes)
    (htaken : ∀ f, matched.has f = true ↔ f ∈ taken)
    (hsubset : exactNames formals (routes.map Route.arg) ⊆ taken) :
    Matched.has (matched ++ entries (routes.filter (Route.isPartial formals))) name = true ↔
      name ∈ taken ++ namedGoals routes := by
  have hnamed : name ∈ namedGoals routes ↔ name ∈ exactNames formals (routes.map Route.arg) ∨
      name ∈ goals (routes.filter (Route.isPartial formals)) := by
    rw [← goals_isExact hexact, ← List.mem_append, goals, goals, ← List.filterMap_append]
    exact ((perm_filter_isNamed formals routes).filterMap _).mem_iff.symm
  rw [has_iff, List.map_append, List.mem_append, ← has_iff, htaken, map_name_entries,
    List.mem_append, hnamed]
  constructor
  · exact Or.imp_right .inr
  · rintro (hmem | hmem | hmem)
    · exact .inl hmem
    · exact .inl (hsubset hmem)
    · exact .inr hmem

/-- Two arguments with the exact name of one parameter are refused. -/
theorem exists_error_of_repeats (h : RepeatsName formals args) :
    ∃ e, standardArgs formals args = .error e := by
  cases hfirst : exactly formals [] args with
  | error e => exact ⟨e, by rw [standardArgs, hfirst]; rfl⟩
  | ok x => exact absurd h (nodup_exactNames_iff.mp (nodup_of_exactly hfirst List.nodup_nil))

/-- An argument whose name begins several free parameters when its turn comes is refused. -/
theorem exists_error_of_ambiguous (hnodup : (exactNames formals args).Nodup)
    (h : IsAmbiguous formals (exactNames formals args) args) :
    ∃ e, standardArgs formals args = .error e := by
  obtain ⟨before, a, after, name, hargs, hturn, hname, hnone, hopen⟩ := h
  -- the arguments behind it only have to be told apart by exact names
  let others := after.map fun b => (⟨b, exactName? formals b⟩ : Route)
  let routes := before ++ ⟨a, none⟩ :: others
  have hroutes : routes.map Route.arg = args := by
    rw [hargs, List.map_append, List.map_cons, List.map_map]
    congr 2
    exact List.map_id _
  have hexact : ExactlyNamed formals routes := by
    intro r hr formal hformal
    rcases List.mem_append.mp hr with hr | hr
    · exact hturn.exact r hr formal hformal
    · rcases List.mem_cons.mp hr with rfl | hr
      · rw [hnone] at hformal
        cases hformal
      · obtain ⟨b, -, rfl⟩ := List.mem_map.mp hr
        exact hformal
  have hsubset : exactNames formals (before.map Route.arg) ⊆ exactNames formals args := by
    rw [hargs]
    exact List.filterMap_subset _ (List.subset_append_left _ _)
  have htaken (f : String) : (entries (routes.filter (Route.isExact formals))).has f = true ↔
      f ∈ exactNames formals args := by
    rw [has_iff, map_name_entries, goals_isExact hexact, hroutes]
  have hbefore : ∀ r ∈ before, ∀ formal, exactName? formals r.arg = some formal →
      formal ∈ exactNames formals args := fun r hr formal hformal =>
    hsubset (mem_exactNames.mpr ⟨r.arg, List.mem_map_of_mem hr, hformal⟩)
  have hsplit : (routes.filter fun r => !r.isExact formals).map Route.arg =
      (before.filter fun r => !r.isExact formals).map Route.arg ++
        a :: (others.filter fun r => !r.isExact formals).map Route.arg := by
    have hkind : (⟨a, none⟩ : Route).isExact formals = false := by simp [Route.isExact, hnone]
    simp only [routes, List.filter_append, List.filter_cons, hkind, Bool.not_false, if_true,
      List.map_append, List.map_cons]
  rw [← candidates_eq fun f => has_append_partial hturn.exact htaken hsubset] at hopen
  rw [← hroutes] at hnodup
  have hexactly := exactly_eq [] hexact hnodup
  rw [hroutes, List.nil_append, hsplit] at hexactly
  rw [standardArgs, hexactly, ok_bind]
  dsimp only
  rw [partially_append hturn htaken hbefore, partially_cons_several hname hopen]
  exact ⟨_, rfl⟩

/-- Without `...` an argument that is left over is refused. -/
theorem exists_error_of_left_over (hnodup : (exactNames formals args).Nodup)
    (h : HasLeftOver formals args) : ∃ e, standardArgs formals args = .error e := by
  obtain ⟨hdots, routes, rfl, hturn, hleft⟩ := h
  rw [standardArgs_of_inTurn hnodup hturn, decide_eq_false hdots]
  have herror : ∃ e, byPlace false (freeFor formals routes) (namedEntries formals routes)
      ((routes.filter (Route.isLeft formals)).map Route.arg) = .error e := by
    refine exists_error_of_byPlace ?_
    rcases hleft with ⟨r, hr, hnamed, hgoal⟩ | hlength
    · have hkind : r.isLeft formals = true := by
        cases hname : exactName? formals r.arg with
        | none => simp [Route.isLeft, Route.isExact, hname, hgoal]
        | some formal =>
          rw [hturn.exact r hr formal hname] at hgoal
          cases hgoal
      exact .inl ⟨r.arg, List.mem_map_of_mem (List.mem_filter.mpr ⟨hr, hkind⟩), hnamed⟩
    · refine .inr (Nat.lt_of_lt_of_le hlength ?_)
      rw [List.countP_map, List.length_map, ← List.countP_eq_length_filter]
      refine List.countP_mono_left fun r _ hunnamed => ?_
      obtain ⟨-, -, -, -, hkind⟩ :=
        Route.kinds_of_unnamed formals (Option.isNone_iff_eq_none.mp hunnamed)
      exact hkind
  obtain ⟨e, he⟩ := herror
  exact ⟨e, by rw [he]; rfl⟩

/-- Arguments are refused if a name is repeated or ambiguous or an argument is left over. -/
theorem exists_error_of_unmatched
    (h : RepeatsName formals args ∨ IsAmbiguous formals (exactNames formals args) args ∨
      HasLeftOver formals args) : ∃ e, standardArgs formals args = .error e := by
  by_cases hrepeats : RepeatsName formals args
  · exact exists_error_of_repeats hrepeats
  · have hnodup := nodup_exactNames_iff.mpr hrepeats
    rcases h with h | hambiguous | hleft
    · exact absurd h hrepeats
    · exact exists_error_of_ambiguous hnodup hambiguous
    · exact exists_error_of_left_over hnodup hleft

/-- Matching succeeds with what the routes make of the arguments. -/
theorem standardArgs_eq_ok_iff (hformals : formals.Nodup) {result : List (Arg Node)} :
    standardArgs formals args = .ok result ↔
      ∃ routes, routes.map Route.arg = args ∧ Matches formals routes ∧
        result = arranged formals routes := by
  constructor
  · intro h
    rcases exists_matches_or hformals args with ⟨routes, rfl, hmatches⟩ | hunmatched
    · rw [standardArgs_of_matches hmatches] at h
      exact ⟨routes, rfl, hmatches, (Except.ok.inj h).symm⟩
    · obtain ⟨e, he⟩ := exists_error_of_unmatched hunmatched
      rw [he] at h
      cases h
  · rintro ⟨routes, rfl, hmatches, rfl⟩
    exact standardArgs_of_matches hmatches

/-! ## Conservation -/

/-- The routes in the order of the parameters are the routes. -/
theorem inOrder_perm (hformals : formals.Nodup) (h : ∀ r ∈ routes, r.place ∈ formals) :
    (inOrder formals routes).Perm routes := by
  induction formals generalizing routes with
  | nil =>
    cases routes with
    | nil => exact .nil
    | cons r routes => exact absurd (h r List.mem_cons_self) List.not_mem_nil
  | cons formal formals ih =>
    obtain ⟨hnew, hnodup⟩ := List.nodup_cons.mp hformals
    -- the later parameters get nothing of what goes to the first one
    have hothers : inOrder formals routes =
        inOrder formals (routes.filter fun r => !decide (r.place = formal)) := by
      refine List.flatMap_congr fun other hother => ?_
      rw [List.filter_filter]
      refine List.filter_congr fun r _ => ?_
      by_cases hplace : r.place = other
      · have hne : other ≠ formal := fun heq => hnew (heq ▸ hother)
        simp [hplace, hne]
      · simp [hplace]
    have hplaces : ∀ r ∈ routes.filter fun r => !decide (r.place = formal), r.place ∈ formals := by
      intro r hr
      obtain ⟨hr, hne⟩ := List.mem_filter.mp hr
      exact (List.mem_cons.mp (h r hr)).resolve_left (by simpa using hne)
    have hrest := ih hnodup hplaces
    rw [inOrder, List.flatMap_cons, ← inOrder, hothers]
    exact (hrest.append_left _).trans (List.filter_append_perm _ _)

theorem Matches.place_mem (h : Matches formals routes) : ∀ r ∈ routes, r.place ∈ formals := by
  intro r hr
  cases hgoal : r.goal with
  | none =>
    rw [Route.place, hgoal]
    exact h.absorbed r hr hgoal
  | some formal =>
    rw [Route.place, hgoal]
    exact (h.parameters formal (mem_goals.mpr ⟨r, hr, hgoal⟩)).1

end Matching

open Matching

/-- A call that can be standardised keeps all but its arguments, which are put in the order that
their routes give. -/
theorem Call.standardise_eq_ok_iff {c d : Call} {formals : List String} (hformals : formals.Nodup) :
    c.standardise formals = .ok d ↔
      ∃ routes, routes.map Route.arg = c.args ∧ Matches formals routes ∧
        { c with args := arranged formals routes } = d := by
  constructor
  · intro h
    cases hargs : standardArgs formals c.args with
    | error e =>
      rw [standardise, hargs] at h
      cases h
    | ok args =>
      rw [standardise, hargs] at h
      obtain ⟨routes, hroutes, hmatches, rfl⟩ := (standardArgs_eq_ok_iff hformals).mp hargs
      exact ⟨routes, hroutes, hmatches, Except.ok.inj h⟩
  · rintro ⟨routes, hroutes, hmatches, rfl⟩
    rw [standardise, ← hroutes, standardArgs_of_matches hmatches]
    rfl

/-- Matching loses, repeats and invents nothing. It keeps the head and the place of the call; its
arguments go where the rules of matching send them and stand in the order of the parameters. It
fails if and only if a name is repeated, a name is ambiguous in its turn, or an argument is left
over without `...`. -/
theorem Call.standardise_conserves (c : Call) {formals : List String} (hformals : formals.Nodup) :
    (∀ d, c.standardise formals = .ok d →
      d.head = c.head ∧ d.position = c.position ∧
      (d.args.map Arg.value).Perm (c.args.map Arg.value) ∧
      ∃ routes, routes.map Route.arg = c.args ∧ Matches formals routes ∧
        d.args = arranged formals routes) ∧
    ((∃ e, c.standardise formals = .error e) ↔
      RepeatsName formals c.args ∨ IsAmbiguous formals (exactNames formals c.args) c.args ∨
        HasLeftOver formals c.args) := by
  constructor
  · intro d hd
    obtain ⟨routes, hroutes, hmatches, rfl⟩ := (standardise_eq_ok_iff hformals).mp hd
    refine ⟨rfl, rfl, ?_, routes, hroutes, hmatches, rfl⟩
    have hvalues : Arg.value ∘ Route.result = Arg.value ∘ Route.arg := funext result_value
    rw [arranged, List.map_map, hvalues, ← hroutes, List.map_map]
    exact (inOrder_perm hformals hmatches.place_mem).map _
  · constructor
    · rintro ⟨e, he⟩
      rcases exists_matches_or hformals c.args with ⟨routes, hroutes, hmatches⟩ | hunmatched
      · rw [(standardise_eq_ok_iff hformals).mpr ⟨routes, hroutes, hmatches, rfl⟩] at he
        cases he
      · exact hunmatched
    · intro h
      obtain ⟨e, he⟩ := exists_error_of_unmatched h
      exact ⟨e, by rw [standardise, he]; rfl⟩

theorem Call.standardise_conserves_dots :
    let c : Call := ⟨.symbol "f" .nowhere, [⟨some "tr", .symbol "a" .nowhere⟩,
      ⟨none, .symbol "b" .nowhere⟩, ⟨some "se", .symbol "s" .nowhere⟩,
      ⟨none, .symbol "d" .nowhere⟩], .nowhere⟩
    let d : Call := { c with args := [⟨some "x", .symbol "b" .nowhere⟩,
      ⟨some "trim", .symbol "a" .nowhere⟩, ⟨some "se", .symbol "s" .nowhere⟩,
      ⟨none, .symbol "d" .nowhere⟩] }
    let formals := ["x", "trim", dots, "sep"]
    formals.Nodup ∧ c.standardise formals = .ok d ∧
      (d.args.map Arg.value).Perm (c.args.map Arg.value) ∧
      ¬ (RepeatsName formals c.args ∨ IsAmbiguous formals (exactNames formals c.args) c.args ∨
        HasLeftOver formals c.args) := by
  intro c d formals
  have hok : c.standardise formals = .ok d := rfl
  obtain ⟨hkept, hfails⟩ := standardise_conserves c (by decide : formals.Nodup)
  refine ⟨by decide, hok, (hkept d hok).2.2.1, fun hrefused => ?_⟩
  obtain ⟨e, he⟩ := hfails.mpr hrefused
  rw [hok] at he
  cases he

end RCode
