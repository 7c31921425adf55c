import Mathlib.Data.List.Nodup
import Mathlib.Data.List.Perm.Basic
import Mathlib.Data.List.TakeWhile
import RCode.Call.Matching

/-!
# The rules of matching

Where each argument of a call goes, without saying how that is found. A `Route` sends an argument to
a parameter, or to none. `Matches` says which routes the rules allow: a named argument goes to the
parameter of that name, or in its turn to the only free one that its name begins; the unnamed ones
go in order to the parameters that the named ones leave free. `RepeatsName`, `IsAmbiguous` and
`HasLeftOver` say why there may be no such routes, and `exists_matches_or` that there are no other
reasons.
-/

set_option autoImplicit false

namespace RCode.Matching

/-! ## Routes -/

/-- The parameter other than `...` that has exactly the name of the argument. -/
def exactName? (formals : List String) (a : Arg Node) : Option String :=
  a.name.filter fun name => name ≠ dots ∧ name ∈ formals

/-- The parameters that arguments name exactly. -/
def exactNames (formals : List String) (args : List (Arg Node)) : List String :=
  args.filterMap (exactName? formals)

/-- The parameters not yet taken that a name begins. -/
def openTo (leading taken : List String) (name : String) : List String :=
  leading.filter fun formal => formal ∉ taken && name.toList.isPrefixOf formal.toList

/-- An argument and the parameter it goes to. -/
@[ext] structure Route where
  arg : Arg Node
  goal : Option String

/-- The argument has a name. -/
def Route.isNamed (r : Route) : Bool :=
  r.arg.name.isSome

/-- The parameters that arguments go to. -/
def goals (routes : List Route) : List String :=
  routes.filterMap Route.goal

/-- The parameters that named arguments go to. -/
def namedGoals (routes : List Route) : List String :=
  goals (routes.filter Route.isNamed)

/-- The arguments that go to no parameter. -/
def absorbed (routes : List Route) : List (Arg Node) :=
  (routes.filter fun r => r.goal.isNone).map Route.arg

/-- The parameter at whose place the argument comes to stand. -/
def Route.place (r : Route) : String :=
  r.goal.getD dots

/-- The argument under the name of its parameter; one that goes to no parameter stays as it is. -/
def Route.result (r : Route) : Arg Node :=
  match r.goal with
  | some formal => ⟨some formal, r.arg.value⟩
  | none => r.arg

/-- The routes in the order of the parameters; at the place of `...` those to no parameter, in
the order of the arguments. -/
def inOrder (formals : List String) (routes : List Route) : List Route :=
  formals.flatMap fun formal => routes.filter fun r => r.place = formal

/-- What matching makes of the arguments. -/
def arranged (formals : List String) (routes : List Route) : List (Arg Node) :=
  (inOrder formals routes).map Route.result

/-! ## The rules -/

/-- Where a named argument goes when the parameters `taken` have values: to the parameter of exactly
that name, or to the only free one that the name begins, or to none if it begins none. -/
structure Route.Goes (formals taken : List String) (r : Route) : Prop where
  exact : ∀ formal, exactName? formals r.arg = some formal → r.goal = some formal
  inPart : ∀ name, r.arg.name = some name → exactName? formals r.arg = none →
    openTo (leading formals) taken name = r.goal.toList

/-- Every named argument goes where it can go when its turn comes. -/
def InTurn (formals taken : List String) (routes : List Route) : Prop :=
  ∀ before r after, routes = before ++ r :: after → r.Goes formals (taken ++ namedGoals before)

/-- The unnamed arguments go in order to the free parameters, and to none when none is left. -/
def InPlace (free : List String) (routes : List Route) : Prop :=
  ∀ (i : Nat) (r : Route), (routes.filter fun r => !r.isNamed)[i]? = some r → r.goal = free[i]?

/-- The parameters before `...` that the named arguments leave free. -/
def freeFor (formals : List String) (routes : List Route) : List String :=
  (leading formals).filter (· ∉ namedGoals routes)

/-- The routes follow the rules of matching. -/
structure Matches (formals : List String) (routes : List Route) : Prop where
  /-- Arguments go to parameters other than `...`. -/
  parameters : ∀ formal ∈ goals routes, formal ∈ formals ∧ formal ≠ dots
  /-- No two arguments go to one parameter. -/
  once : (goals routes).Nodup
  named : InTurn formals (exactNames formals (routes.map Route.arg)) routes
  unnamed : InPlace (freeFor formals routes) routes
  /-- Only `...` takes what goes to no other parameter. -/
  absorbed : ∀ r ∈ routes, r.goal = none → dots ∈ formals

/-- Two arguments have exactly the name of one parameter. -/
def RepeatsName (formals : List String) (args : List (Arg Node)) : Prop :=
  ∃ formal ∈ formals, formal ≠ dots ∧ 1 < args.countP fun a => a.name = some formal

/-- When the turn of some argument comes, its name begins several free parameters. -/
def IsAmbiguous (formals taken : List String) (args : List (Arg Node)) : Prop :=
  ∃ before a after name, args = before.map Route.arg ++ a :: after ∧
    InTurn formals taken before ∧ a.name = some name ∧ exactName? formals a = none ∧
    1 < (openTo (leading formals) (taken ++ namedGoals before) name).length

/-- There is no `...` for a named argument that goes to no parameter, or for more unnamed arguments
than there are free parameters. -/
def HasLeftOver (formals : List String) (args : List (Arg Node)) : Prop :=
  dots ∉ formals ∧ ∃ routes, routes.map Route.arg = args ∧
    InTurn formals (exactNames formals args) routes ∧
    ((∃ r ∈ routes, r.isNamed = true ∧ r.goal = none) ∨
      (freeFor formals routes).length < args.countP fun a => a.name.isNone)

/-! ## Small facts -/

variable {formals taken free : List String} {routes rest : List Route} {r : Route}
  {a : Arg Node} {args : List (Arg Node)} {name formal : String}

theorem exactName?_eq_some :
    exactName? formals a = some formal ↔
      a.name = some formal ∧ formal ≠ dots ∧ formal ∈ formals := by
  simp [exactName?, Option.filter_eq_some_iff]

theorem mem_exactNames :
    formal ∈ exactNames formals args ↔ ∃ a ∈ args, exactName? formals a = some formal :=
  List.mem_filterMap

theorem exactNames_cons :
    exactNames formals (a :: args) =
      (exactName? formals a).toList ++ exactNames formals args := by
  rw [exactNames, List.filterMap_cons]
  cases exactName? formals a <;> rfl

theorem mem_leading (h : formal ∈ leading formals) : formal ∈ formals ∧ formal ≠ dots :=
  ⟨(List.takeWhile_prefix _).subset h, by simpa using List.mem_takeWhile_imp h⟩

theorem mem_openTo {leading : List String} :
    formal ∈ openTo leading taken name ↔
      formal ∈ leading ∧ formal ∉ taken ∧ name.toList <+: formal.toList := by
  simp [openTo]

/-- Only the set of the parameters taken counts. -/
theorem openTo_congr {leading taken' : List String} (h : ∀ f, f ∈ taken ↔ f ∈ taken')
    (name : String) : openTo leading taken name = openTo leading taken' name := by
  simp only [openTo, h]

/-- The more parameters are taken, the fewer are free. -/
theorem openTo_sublist {leading taken' : List String} (h : taken ⊆ taken') (name : String) :
    (openTo leading taken' name).Sublist (openTo leading taken name) := by
  refine List.monotone_filter_right _ fun f hf => ?_
  simp only [Bool.and_eq_true, decide_eq_true_eq] at hf ⊢
  exact ⟨fun hmem => hf.1 (h hmem), hf.2⟩

theorem mem_goals : formal ∈ goals routes ↔ ∃ r ∈ routes, r.goal = some formal :=
  List.mem_filterMap

theorem mem_namedGoals :
    formal ∈ namedGoals routes ↔ ∃ r ∈ routes, r.isNamed = true ∧ r.goal = some formal := by
  simp only [namedGoals, mem_goals, List.mem_filter, and_assoc]

@[simp] theorem namedGoals_nil : namedGoals [] = [] := rfl

theorem namedGoals_cons_named (h : r.isNamed = true) :
    namedGoals (r :: rest) = r.goal.toList ++ namedGoals rest := by
  rw [namedGoals, List.filter_cons_of_pos h, goals, List.filterMap_cons]
  cases r.goal <;> rfl

theorem namedGoals_cons_unnamed (h : r.isNamed = false) :
    namedGoals (r :: rest) = namedGoals rest := by
  rw [namedGoals, List.filter_cons_of_neg (by simp [h])]
  rfl

theorem namedGoals_cons : namedGoals (r :: rest) = namedGoals [r] ++ namedGoals rest := by
  rw [namedGoals, namedGoals, namedGoals, goals, ← List.singleton_append, List.filter_append,
    List.filterMap_append]
  rfl

theorem namedGoals_subset : namedGoals routes ⊆ goals routes := by
  intro f hf
  obtain ⟨r, hr, -, hgoal⟩ := mem_namedGoals.mp hf
  exact mem_goals.mpr ⟨r, hr, hgoal⟩

theorem place_eq_iff (h : formal ≠ dots) : r.place = formal ↔ r.goal = some formal := by
  cases hgoal : r.goal with
  | none => simpa [Route.place, hgoal] using h.symm
  | some other => simp [Route.place, hgoal]

theorem result_value (r : Route) : r.result.value = r.arg.value := by
  unfold Route.result
  cases r.goal <;> rfl

theorem mem_freeFor :
    formal ∈ freeFor formals routes ↔ formal ∈ leading formals ∧ formal ∉ namedGoals routes := by
  simp [freeFor]

theorem freeFor_nodup (h : formals.Nodup) : (freeFor formals routes).Nodup :=
  (h.sublist (List.takeWhile_sublist _)).filter _

/-! ## The turns of the named arguments -/

namespace Route.Goes

/-- The rule says nothing of unnamed arguments. -/
theorem of_unnamed (h : r.isNamed = false) : r.Goes formals taken := by
  have hname : r.arg.name = none := by simpa [isNamed] using h
  constructor
  · intro formal hexact
    rw [(exactName?_eq_some.mp hexact).1] at hname
    cases hname
  · intro name hname'
    rw [hname'] at hname
    cases hname

/-- A parameter that a named argument goes to. -/
theorem goal_cases (h : r.Goes formals taken) (hnamed : r.isNamed = true)
    (hgoal : r.goal = some formal) :
    exactName? formals r.arg = some formal ∨
      ∃ name, r.arg.name = some name ∧ exactName? formals r.arg = none ∧
        openTo (leading formals) taken name = [formal] := by
  obtain ⟨name, hname⟩ := Option.isSome_iff_exists.mp hnamed
  cases hexact : exactName? formals r.arg with
  | some other =>
    rw [h.exact other hexact] at hgoal
    exact .inl hgoal
  | none =>
    have := h.inPart name hname hexact
    rw [hgoal] at this
    exact .inr ⟨name, hname, rfl, this⟩

/-- When its turn comes, an argument goes somewhere unless its name begins several parameters. -/
theorem exists_or_ambiguous (formals taken : List String) (a : Arg Node) :
    (∃ r : Route, r.arg = a ∧ r.Goes formals taken) ∨
      ∃ name, a.name = some name ∧ exactName? formals a = none ∧
        1 < (openTo (leading formals) taken name).length := by
  cases hexact : exactName? formals a with
  | some formal =>
    refine .inl ⟨⟨a, some formal⟩, rfl, fun other hother => ?_, fun name _ hnone => ?_⟩
    · exact hexact.symm.trans hother
    · rw [hexact] at hnone
      cases hnone
  | none =>
    cases hname : a.name with
    | none => exact .inl ⟨⟨a, none⟩, rfl, of_unnamed (by simp [isNamed, hname])⟩
    | some name =>
      have hexact' (goal : Option String) (formal : String)
          (h : exactName? formals a = some formal) : goal = some formal := by
        rw [hexact] at h
        cases h
      have hpart (goal : Option String)
          (h : openTo (leading formals) taken name = goal.toList) :
          (⟨a, goal⟩ : Route).Goes formals taken :=
        ⟨hexact' goal, fun other hother _ => by rw [← Option.some.inj (hname.symm.trans hother), h]⟩
      cases hopen : openTo (leading formals) taken name with
      | nil => exact .inl ⟨⟨a, none⟩, rfl, hpart none hopen⟩
      | cons formal others =>
        cases others with
        | nil => exact .inl ⟨⟨a, some formal⟩, rfl, hpart (some formal) hopen⟩
        | cons other others =>
          refine .inr ⟨name, rfl, rfl, ?_⟩
          rw [hopen]
          exact Nat.succ_lt_succ (Nat.succ_pos _)

end Route.Goes

theorem inTurn_nil : InTurn formals taken [] := by
  intro before r after h
  exact absurd h.symm (List.append_ne_nil_of_right_ne_nil _ (List.cons_ne_nil _ _))

theorem inTurn_cons :
    InTurn formals taken (r :: rest) ↔
      r.Goes formals taken ∧ InTurn formals (taken ++ namedGoals [r]) rest := by
  constructor
  · intro h
    refine ⟨?_, fun before q after hrest => ?_⟩
    · have := h [] r rest rfl
      rwa [namedGoals_nil, List.append_nil] at this
    · rw [List.append_assoc, ← namedGoals_cons]
      exact h (r :: before) q after (congrArg (r :: ·) hrest)
  · rintro ⟨hfirst, hrest⟩ before q after h
    cases before with
    | nil =>
      obtain ⟨rfl, -⟩ := List.cons.inj h
      rwa [namedGoals_nil, List.append_nil]
    | cons q' before =>
      obtain ⟨rfl, hmore⟩ := List.cons.inj h
      rw [namedGoals_cons, ← List.append_assoc]
      exact hrest before q after hmore

/-- Every named argument has its turn, or some name is ambiguous. -/
theorem inTurn_or_ambiguous (formals taken : List String) (args : List (Arg Node)) :
    (∃ routes, routes.map Route.arg = args ∧ InTurn formals taken routes) ∨
      IsAmbiguous formals taken args := by
  -- the turn of the first argument says what is taken when the others have theirs
  induction args generalizing taken with
  | nil => exact .inl ⟨[], rfl, inTurn_nil⟩
  | cons a args ih =>
    rcases Route.Goes.exists_or_ambiguous formals taken a with
      ⟨r, rfl, hgoes⟩ | ⟨name, hname, hexact, hopen⟩
    · rcases ih (taken ++ namedGoals [r]) with
        ⟨routes, rfl, hturn⟩ | ⟨before, b, after, name, rfl, hturn, hname, hexact, hopen⟩
      · exact .inl ⟨r :: routes, rfl, inTurn_cons.mpr ⟨hgoes, hturn⟩⟩
      · refine .inr ⟨r :: before, b, after, name, rfl, inTurn_cons.mpr ⟨hgoes, hturn⟩, hname,
          hexact, ?_⟩
        rwa [namedGoals_cons, ← List.append_assoc]
    · refine .inr ⟨[], a, args, name, rfl, inTurn_nil, hname, hexact, ?_⟩
      rwa [namedGoals_nil, List.append_nil]

/-- In turn, named arguments go to different parameters: to one that an argument names exactly, or
to one that was free. -/
theorem InTurn.nodup_namedGoals (h : InTurn formals taken routes)
    (hexact : (exactNames formals (routes.map Route.arg)).Nodup)
    (htaken : exactNames formals (routes.map Route.arg) ⊆ taken) :
    (namedGoals routes).Nodup ∧
      ∀ f ∈ namedGoals routes, f ∈ exactNames formals (routes.map Route.arg) ∨ f ∉ taken := by
  induction routes generalizing taken with
  | nil => exact ⟨List.nodup_nil, fun f hf => absurd hf List.not_mem_nil⟩
  | cons r rest ih =>
    obtain ⟨hgoes, hrest⟩ := inTurn_cons.mp h
    rw [List.map_cons, exactNames_cons] at hexact htaken ⊢
    obtain ⟨hnodup, hfree⟩ := ih hrest hexact.of_append_right fun f hf =>
      List.mem_append_left _ (htaken (List.mem_append_right _ hf))
    cases hnamed : r.isNamed with
    | false =>
      rw [namedGoals_cons_unnamed hnamed]
      refine ⟨hnodup, fun f hf => ?_⟩
      rcases hfree f hf with hexactly | hnot
      · exact .inl (List.mem_append_right _ hexactly)
      · exact .inr fun hmem => hnot (List.mem_append_left _ hmem)
    | true =>
      have hone : namedGoals [r] = r.goal.toList := by
        rw [namedGoals_cons_named hnamed]
        exact List.append_nil _
      rw [hone] at hfree
      rw [namedGoals_cons_named hnamed]
      -- where `r` goes no later argument goes
      have hlater (f : String) (hgoal : r.goal = some f) (hmem : f ∈ namedGoals rest) :
          f ∈ exactNames formals (rest.map Route.arg) := by
        rcases hfree f hmem with hexactly | hnot
        · exact hexactly
        · refine absurd (List.mem_append_right taken ?_) hnot
          rw [hgoal]
          exact List.mem_singleton_self f
      have hother (f : String) (hf : f ∈ namedGoals rest) :
          f ∈ (exactName? formals r.arg).toList ++ exactNames formals (rest.map Route.arg) ∨
            f ∉ taken := by
        rcases hfree f hf with hexactly | hnot
        · exact .inl (List.mem_append_right _ hexactly)
        · exact .inr fun hmem => hnot (List.mem_append_left _ hmem)
      cases hgoal : r.goal with
      | none => exact ⟨hnodup, hother⟩
      | some formal =>
        rcases hgoes.goal_cases hnamed hgoal with hexactly | ⟨name, -, hnone, hopen⟩
        · rw [hexactly] at hexact hother ⊢
          refine ⟨hnodup.cons fun hmem => ?_, fun f hf => ?_⟩
          · exact (List.nodup_cons.mp hexact).1 (hlater formal hgoal hmem)
          · rcases List.mem_cons.mp hf with rfl | hf
            · exact .inl List.mem_cons_self
            · exact hother f hf
        · have hnot : formal ∉ taken :=
            (mem_openTo.mp (hopen ▸ List.mem_singleton_self formal)).2.1
          refine ⟨hnodup.cons fun hmem => ?_, fun f hf => ?_⟩
          · exact hnot (htaken (List.mem_append_right _ (hlater formal hgoal hmem)))
          · rcases List.mem_cons.mp hf with rfl | hf
            · exact .inr hnot
            · exact hother f hf

/-! ## The places of the unnamed arguments -/

theorem inPlace_nil : InPlace free [] := by
  intro i r h
  cases h

theorem inPlace_cons_named (h : r.isNamed = true) :
    InPlace free (r :: rest) ↔ InPlace free rest := by
  rw [InPlace, List.filter_cons_of_neg (by simp [h])]
  rfl

theorem inPlace_cons_unnamed (h : r.isNamed = false) :
    InPlace free (r :: rest) ↔ r.goal = free.head? ∧ InPlace free.tail rest := by
  rw [InPlace, List.filter_cons_of_pos (by simp [h])]
  constructor
  · intro hplace
    refine ⟨?_, fun i q hq => ?_⟩
    · rw [hplace 0 r rfl, List.head?_eq_getElem?]
    · rw [hplace (i + 1) q hq, List.getElem?_tail]
  · rintro ⟨hfirst, hrest⟩ i q hq
    cases i with
    | zero =>
      obtain rfl : r = q := Option.some.inj hq
      rw [hfirst, List.head?_eq_getElem?]
    | succ i => rw [hrest i q hq, List.getElem?_tail]

theorem InPlace.exists_place (h : InPlace free routes) (hr : r ∈ routes)
    (hnamed : r.isNamed = false) :
    ∃ i : Nat, (routes.filter fun r => !r.isNamed)[i]? = some r ∧ r.goal = free[i]? := by
  have hmem : r ∈ routes.filter fun r => !r.isNamed :=
    List.mem_filter.mpr ⟨hr, by rw [hnamed]; rfl⟩
  obtain ⟨i, hi⟩ := List.getElem?_of_mem hmem
  exact ⟨i, hi, h i r hi⟩

/-- The parameters that unnamed arguments go to are the first free ones. -/
theorem InPlace.goals_eq (h : InPlace free routes) :
    goals (routes.filter fun r => !r.isNamed) =
      free.take (routes.countP fun r => !r.isNamed) := by
  induction routes generalizing free with
  | nil => simp [goals]
  | cons r rest ih =>
    cases hnamed : r.isNamed with
    | true =>
      rw [List.filter_cons_of_neg (by simp [hnamed]), List.countP_cons_of_neg (by simp [hnamed])]
      exact ih ((inPlace_cons_named hnamed).mp h)
    | false =>
      obtain ⟨hgoal, hrest⟩ := (inPlace_cons_unnamed hnamed).mp h
      rw [List.filter_cons_of_pos (by simp [hnamed]), List.countP_cons_of_pos (by simp [hnamed]),
        goals, List.filterMap_cons, hgoal]
      cases free with
      | nil =>
        have := ih hrest
        rw [List.tail_nil, List.take_nil] at this
        rw [List.take_nil]
        exact this
      | cons formal free => exact congrArg (formal :: ·) (ih hrest)

/-- The routes of the named arguments, with the unnamed ones sent to the free parameters. -/
def fill : List String → List Route → List Route
  | _, [] => []
  | free, r :: rest =>
    if r.isNamed then r :: fill free rest else ⟨r.arg, free.head?⟩ :: fill free.tail rest

theorem fill_cons_named (h : r.isNamed = true) :
    fill free (r :: rest) = r :: fill free rest := by
  rw [fill, if_pos h]

theorem fill_cons_unnamed (h : r.isNamed = false) :
    fill free (r :: rest) = ⟨r.arg, free.head?⟩ :: fill free.tail rest := by
  rw [fill, if_neg (by simp [h])]

theorem map_arg_fill (free : List String) (routes : List Route) :
    (fill free routes).map Route.arg = routes.map Route.arg := by
  induction routes generalizing free with
  | nil => rfl
  | cons r rest ih =>
    cases hnamed : r.isNamed with
    | true => rw [fill_cons_named hnamed, List.map_cons, ih, List.map_cons]
    | false => rw [fill_cons_unnamed hnamed, List.map_cons, ih, List.map_cons]

theorem namedGoals_fill (free : List String) (routes : List Route) :
    namedGoals (fill free routes) = namedGoals routes := by
  induction routes generalizing free with
  | nil => rfl
  | cons r rest ih =>
    cases hnamed : r.isNamed with
    | true =>
      rw [fill_cons_named hnamed, namedGoals_cons_named hnamed, ih, namedGoals_cons_named hnamed]
    | false =>
      have hnamed' : (⟨r.arg, free.head?⟩ : Route).isNamed = false := hnamed
      rw [fill_cons_unnamed hnamed, namedGoals_cons_unnamed hnamed', ih,
        namedGoals_cons_unnamed hnamed]

theorem InTurn.fill (h : InTurn formals taken routes) (free : List String) :
    InTurn formals taken (fill free routes) := by
  induction routes generalizing taken free with
  | nil => exact h
  | cons r rest ih =>
    obtain ⟨hgoes, hrest⟩ := inTurn_cons.mp h
    cases hnamed : r.isNamed with
    | true =>
      rw [fill_cons_named hnamed]
      exact inTurn_cons.mpr ⟨hgoes, ih hrest free⟩
    | false =>
      have hnamed' : (⟨r.arg, free.head?⟩ : Route).isNamed = false := hnamed
      rw [fill_cons_unnamed hnamed]
      refine inTurn_cons.mpr ⟨.of_unnamed hnamed', ?_⟩
      rw [namedGoals_cons_unnamed hnamed']
      rw [namedGoals_cons_unnamed hnamed] at hrest
      exact ih hrest free.tail

theorem inPlace_fill (free : List String) (routes : List Route) :
    InPlace free (fill free routes) := by
  induction routes generalizing free with
  | nil => exact inPlace_nil
  | cons r rest ih =>
    cases hnamed : r.isNamed with
    | true =>
      rw [fill_cons_named hnamed]
      exact (inPlace_cons_named hnamed).mpr (ih free)
    | false =>
      have hnamed' : (⟨r.arg, free.head?⟩ : Route).isNamed = false := hnamed
      rw [fill_cons_unnamed hnamed]
      exact (inPlace_cons_unnamed hnamed').mpr ⟨rfl, ih free.tail⟩

/-! ## When there are routes -/

/-- Routes in turn and in place follow all the rules if `...` is there for what is left. -/
theorem matches_of_inTurn (hformals : formals.Nodup)
    (hexact : (exactNames formals (routes.map Route.arg)).Nodup)
    (hturn : InTurn formals (exactNames formals (routes.map Route.arg)) routes)
    (hplace : InPlace (freeFor formals routes) routes)
    (habsorbed : ∀ r ∈ routes, r.goal = none → dots ∈ formals) : Matches formals routes where
  parameters formal hmem := by
    obtain ⟨r, hr, hgoal⟩ := mem_goals.mp hmem
    cases hnamed : r.isNamed with
    | true =>
      obtain ⟨before, after, rfl⟩ := List.append_of_mem hr
      rcases (hturn before r after rfl).goal_cases hnamed hgoal with hexactly | ⟨name, -, -, hopen⟩
      · exact (exactName?_eq_some.mp hexactly).2.symm
      · exact mem_leading (mem_openTo.mp (hopen ▸ List.mem_singleton_self formal)).1
    | false =>
      obtain ⟨i, -, hi⟩ := hplace.exists_place hr hnamed
      exact mem_leading (mem_freeFor.mp (List.mem_of_getElem? (hi.symm.trans hgoal))).1
  once := by
    -- the unnamed arguments go to the first parameters that the named ones leave free
    have hperm : (goals routes).Perm (namedGoals routes ++
        (freeFor formals routes).take (routes.countP fun r => !r.isNamed)) := by
      rw [← hplace.goals_eq, namedGoals, goals, goals, goals, ← List.filterMap_append]
      exact ((List.filter_append_perm _ _).filterMap _).symm
    refine hperm.nodup_iff.mpr (List.nodup_append'.mpr
      ⟨(hturn.nodup_namedGoals hexact fun f hf => hf).1, ?_, ?_⟩)
    · exact (freeFor_nodup hformals).sublist (List.take_sublist _ _)
    · intro f hf hfree
      exact (mem_freeFor.mp (List.mem_of_mem_take hfree)).2 hf
  named := hturn
  unnamed := hplace
  absorbed := habsorbed

theorem count_exactNames (hdots : formal ≠ dots) (hformal : formal ∈ formals) :
    (exactNames formals args).count formal = args.countP fun a => a.name = some formal := by
  rw [List.count, exactNames, List.countP_filterMap]
  refine List.countP_congr fun a _ => ?_
  have : exactName? formals a = some formal ↔ _ := exactName?_eq_some
  cases hname : exactName? formals a with
  | none => simpa [hname, hdots, hformal] using this
  | some other => simpa [hname, hdots, hformal] using this

/-- A name is repeated if and only if two arguments name one parameter exactly. -/
theorem nodup_exactNames_iff : (exactNames formals args).Nodup ↔ ¬ RepeatsName formals args := by
  constructor
  · rintro hnodup ⟨formal, hformal, hdots, hcount⟩
    rw [← count_exactNames hdots hformal] at hcount
    exact Nat.not_lt.mpr (List.nodup_iff_count_le_one.mp hnodup formal) hcount
  · intro h
    refine List.nodup_iff_count_le_one.mpr fun formal => Nat.le_of_not_lt fun hcount => h ?_
    obtain ⟨a, -, hexact⟩ := mem_exactNames.mp (List.count_pos_iff.mp (Nat.zero_lt_of_lt hcount))
    obtain ⟨-, hdots, hformal⟩ := exactName?_eq_some.mp hexact
    exact ⟨formal, hformal, hdots, by rwa [← count_exactNames hdots hformal]⟩

/-- The arguments can be matched, or a name is repeated, a name is ambiguous, or an argument is left
over. -/
theorem exists_matches_or (hformals : formals.Nodup) (args : List (Arg Node)) :
    (∃ routes, routes.map Route.arg = args ∧ Matches formals routes) ∨
      RepeatsName formals args ∨ IsAmbiguous formals (exactNames formals args) args ∨
      HasLeftOver formals args := by
  by_cases hrepeats : RepeatsName formals args
  · exact .inr (.inl hrepeats)
  rcases inTurn_or_ambiguous formals (exactNames formals args) args with
    ⟨routes, hargs, hturn⟩ | hambiguous
  · by_cases hleft : HasLeftOver formals args
    · exact .inr (.inr (.inr hleft))
    · -- the unnamed arguments can be sent to the parameters that are free
      have hfree :
          freeFor formals (fill (freeFor formals routes) routes) = freeFor formals routes := by
        rw [freeFor, namedGoals_fill, freeFor]
      have hargs' : (fill (freeFor formals routes) routes).map Route.arg = args :=
        (map_arg_fill _ _).trans hargs
      refine .inl ⟨fill (freeFor formals routes) routes, hargs', ?_⟩
      refine matches_of_inTurn hformals ?_ ?_ ?_ ?_
      · rw [hargs']
        exact nodup_exactNames_iff.mpr hrepeats
      · rw [hargs']
        exact hturn.fill _
      · rw [hfree]
        exact inPlace_fill _ _
      · -- an argument that goes to none is left over unless `...` is there
        intro r hr hgoal
        by_contra hdots
        refine hleft ⟨hdots, fill (freeFor formals routes) routes, hargs', hturn.fill _, ?_⟩
        cases hnamed : r.isNamed with
        | true => exact .inl ⟨r, hr, hnamed, hgoal⟩
        | false =>
          right
          obtain ⟨i, hi, hplace⟩ := (inPlace_fill _ _).exists_place hr hnamed
          have hnone := hplace.symm.trans hgoal
          have hlength := (List.getElem?_eq_some_iff.mp hi).1
          have hcount : args.countP (fun a => a.name.isNone) =
              ((fill (freeFor formals routes) routes).filter fun r => !r.isNamed).length := by
            rw [← hargs', List.countP_map, ← List.countP_eq_length_filter]
            exact List.countP_congr fun q _ => by simp [Route.isNamed]
          rw [hfree, hcount]
          exact Nat.lt_of_le_of_lt (List.getElem?_eq_none_iff.mp hnone) hlength
  · exact .inr (.inr (.inl hambiguous))

end RCode.Matching
