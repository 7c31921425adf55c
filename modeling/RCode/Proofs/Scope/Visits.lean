import RCode.Proofs.Node.Erasure
import RCode.Scope

/-!
# What trees do with names

`Visits` states the rules by which the parts of a program read and bind names, one constructor for
each rule: what is visited, in which order, and what is left alone. The events of a part are what the
rules give, and the rules give nothing else (`visits_iff`).
-/

set_option autoImplicit false

namespace RCode.Scope

/-- A part of a program that does something with names. -/
inductive Part where
  | tree (n : Node)
  | trees (ns : List Node)
  /-- The head of a call. -/
  | head (n : Node)
  /-- The target of an assignment. -/
  | target (operator : String) (n : Node)
  /-- The thing that changes when something is assigned to a part of it. -/
  | changed (n : Node)

/-- A call of a construct that does more, or less, than to read its arguments one by one. -/
inductive Special : Node → List (Arg Node) → Prop where
  | assignment {operator : String} {p : Position} (target value : Arg Node) :
      operator ∈ Operator.assignments → Special (.symbol operator p) [target, value]
  | definition {p q : Position} {name : Option String} (items : List (Param Node))
      (rest : List (Arg Node)) : Special (.symbol "function" p) (⟨name, .params items q⟩ :: rest)
  | loop {p q : Position} {name : Option String} (item : String) (sequence body : Arg Node) :
      Special (.symbol "for" p) [⟨name, .symbol item q⟩, sequence, body]
  | quotation {name : String} {p : Position} (args : List (Arg Node)) :
      name ∈ quotations → Special (.symbol name p) args
  | selection {name : String} {p : Position} (target field : Arg Node) :
      name ∈ Operator.members → Special (.symbol name p) [target, field]

/-- The part does with names what the events say. -/
inductive Visits (withFunctions : Bool) : Part → List ScopeEvent → Prop where
  | constant (a : Atom) (p : Position) : Visits withFunctions (.tree (.constant a p)) []
  | missing : Visits withFunctions (.tree .missing) []
  | symbol (name : String) (p : Position) :
      Visits withFunctions (.tree (.symbol name p)) [.read name]
  | params {items : List (Param Node)} {es : List ScopeEvent} (p : Position) :
      Visits withFunctions (.trees (items.map Param.default)) es →
        Visits withFunctions (.tree (.params items p)) es
  /-- The value comes before the target. -/
  | assignment {operator : String} {target value : Arg Node} {es fs : List ScopeEvent}
      (p q : Position) :
      operator ∈ Operator.assignments → Visits withFunctions (.tree value.value) es →
        Visits withFunctions (.target operator target.value) fs →
          Visits withFunctions (.tree (.call (.symbol operator p) [target, value] q)) (es ++ fs)
  /-- A function binds its parameters, then comes its body, and the defaults come last. -/
  | definition {name : Option String} {items : List (Param Node)} {rest : List (Arg Node)}
      {es fs : List ScopeEvent} (p q r : Position) :
      Visits withFunctions (.trees (rest.head?.map Arg.value).toList) es →
        Visits withFunctions (.trees (items.map Param.default)) fs →
          Visits withFunctions
            (.tree (.call (.symbol "function" p) (⟨name, .params items q⟩ :: rest) r))
            [.define (items.map (fun i => .bind i.name) ++ es ++ fs)]
  /-- The variable is bound between the sequence and the body. -/
  | loop {name : Option String} {item : String} {sequence body : Arg Node}
      {es fs : List ScopeEvent} (p q r : Position) :
      Visits withFunctions (.tree sequence.value) es →
        Visits withFunctions (.tree body.value) fs →
          Visits withFunctions
            (.tree (.call (.symbol "for" p) [⟨name, .symbol item q⟩, sequence, body] r))
            (es ++ .bind item :: fs)
  | quotation {name : String} (args : List (Arg Node)) (p q : Position) :
      name ∈ quotations → Visits withFunctions (.tree (.call (.symbol name p) args q)) []
  /-- The name of the selected part is not read. -/
  | selection {name : String} {target field : Arg Node} {es fs : List ScopeEvent} (p q : Position) :
      name ∈ Operator.members → Visits withFunctions (.head (.symbol name p)) es →
        Visits withFunctions (.tree target.value) fs →
          Visits withFunctions (.tree (.call (.symbol name p) [target, field] q)) (es ++ fs)
  | application {head : Node} {args : List (Arg Node)} {es fs : List ScopeEvent} (p : Position) :
      ¬ Special head args → Visits withFunctions (.head head) es →
        Visits withFunctions (.trees (args.map Arg.value)) fs →
          Visits withFunctions (.tree (.call head args p)) (es ++ fs)
  | nil : Visits withFunctions (.trees []) []
  | cons {n : Node} {ns : List Node} {es fs : List ScopeEvent} :
      Visits withFunctions (.tree n) es → Visits withFunctions (.trees ns) fs →
        Visits withFunctions (.trees (n :: ns)) (es ++ fs)
  | function {name : String} (p : Position) :
      withFunctions = true → name ∉ constructs →
        Visits withFunctions (.head (.symbol name p)) [.read name]
  /-- The names of constructs are not read, and no names of functions unless they are asked for. -/
  | construct {name : String} (p : Position) :
      withFunctions = false ∨ name ∈ constructs →
        Visits withFunctions (.head (.symbol name p)) []
  | head {n : Node} {es : List ScopeEvent} :
      n.name? = none → Visits withFunctions (.tree n) es → Visits withFunctions (.head n) es
  | bound {operator name : String} {n : Node} :
      n.targetName? = some name → name ≠ "" → operator ≠ "<<-" →
        Visits withFunctions (.target operator n) [.bind name]
  | outward {name : String} {n : Node} :
      n.targetName? = some name → name ≠ "" → Visits withFunctions (.target "<<-" n) []
  | nameless {operator : String} {n : Node} :
      n.targetName? = some "" → Visits withFunctions (.target operator n) [.nameless]
  | replacement {operator : String} {n : Node} {es : List ScopeEvent} :
      n.targetName? = none → Visits withFunctions (.changed n) es →
        Visits withFunctions (.target operator n) es
  | changedName (name : String) (p : Position) :
      Visits withFunctions (.changed (.symbol name p)) [.read name]
  | changedMember {name : String} {base : Arg Node} {es fs : List ScopeEvent}
      (rest : List (Arg Node)) (p q : Position) :
      name ∈ Operator.members → Visits withFunctions (.head (.symbol name p)) es →
        Visits withFunctions (.changed base.value) fs →
          Visits withFunctions (.changed (.call (.symbol name p) (base :: rest) q)) (es ++ fs)
  | changedCall {head : Node} {base : Arg Node} {rest : List (Arg Node)}
      {es fs gs : List ScopeEvent} (p : Position) :
      (∀ name ∈ head.name?, name ∉ Operator.members) → Visits withFunctions (.head head) es →
        Visits withFunctions (.changed base.value) fs →
          Visits withFunctions (.trees (rest.map Arg.value)) gs →
            Visits withFunctions (.changed (.call head (base :: rest) p)) (es ++ fs ++ gs)
  | changedOther {n : Node} {es : List ScopeEvent} :
      n.name? = none → (∀ head base rest p, n ≠ .call head (base :: rest) p) →
        Visits withFunctions (.tree n) es → Visits withFunctions (.changed n) es

/-! ## Events of the parts -/

/-- The events of a part. -/
def Part.events (withFunctions : Bool) : Part → List ScopeEvent
  | .tree n => Scope.events withFunctions n
  | .trees ns => ns.flatMap (Scope.events withFunctions)
  | .head n =>
    match n with
    | .symbol name _ => readFunction withFunctions name
    | n => Scope.events withFunctions n
  | .target operator n =>
    match n.targetName? with
    | some name => bindTarget (operator = "<<-") name
    | none => eventsTarget withFunctions n
  | .changed n => eventsTarget withFunctions n

section

variable {withFunctions : Bool}

theorem eventsArgs_eq (args : List (Arg Node)) :
    eventsArgs withFunctions args = (args.map Arg.value).flatMap (events withFunctions) := by
  induction args with
  | nil => rfl
  | cons a rest ih => rw [eventsArgs, ih, List.map_cons, List.flatMap_cons]

theorem eventsParams_eq (items : List (Param Node)) :
    eventsParams withFunctions items = (items.map Param.default).flatMap (events withFunctions) := by
  induction items with
  | nil => rfl
  | cons p rest ih => rw [eventsParams, ih, List.map_cons, List.flatMap_cons]

theorem events_assignment {operator : String} (p q : Position) (target value : Arg Node)
    (h : operator ∈ Operator.assignments) :
    events withFunctions (.call (.symbol operator p) [target, value] q) =
      (Part.tree value.value).events withFunctions ++
        (Part.target operator target.value).events withFunctions := by
  have hrole : Role.of (.symbol operator p) [target, value] =
      .assignment (decide (operator = "<<-")) := by
    simp [Role.of, Node.name?, h]
  unfold events
  rw [hrole]
  rfl

theorem events_definition {p q r : Position} {name : Option String} {items : List (Param Node)}
    {rest : List (Arg Node)} :
    events withFunctions (.call (.symbol "function" p) (⟨name, .params items q⟩ :: rest) r) =
      [.define (items.map (fun i => .bind i.name) ++
        (Part.trees (rest.head?.map Arg.value).toList).events withFunctions ++
        (Part.trees (items.map Param.default)).events withFunctions)] := by
  have hrole : Role.of (.symbol "function" p) (⟨name, .params items q⟩ :: rest) = .definition := by
    simp [Role.of, Node.name?, Operator.assignments, Node.isParams]
  unfold events
  rw [hrole]
  dsimp only
  rw [eventsParams_eq]
  cases rest with
  | nil => rfl
  | cons a rest =>
    simp only [Part.events, List.head?_cons, Option.map_some, Option.toList_some,
      List.flatMap_singleton]

theorem events_loop {p q r : Position} {name : Option String} {item : String}
    {sequence body : Arg Node} :
    events withFunctions (.call (.symbol "for" p) [⟨name, .symbol item q⟩, sequence, body] r) =
      (Part.tree sequence.value).events withFunctions ++
        .bind item :: (Part.tree body.value).events withFunctions := by
  have hrole : Role.of (.symbol "for" p) [⟨name, .symbol item q⟩, sequence, body] = .loop := by
    simp [Role.of, Node.name?, Operator.assignments]
  unfold events
  rw [hrole]
  rfl

theorem events_quotation {name : String} {args : List (Arg Node)} {p q : Position}
    (h : name ∈ quotations) : events withFunctions (.call (.symbol name p) args q) = [] := by
  have hrole : Role.of (.symbol name p) args = .quotation := by
    simp only [quotations, List.mem_cons, List.not_mem_nil, or_false] at h
    rcases h with rfl | rfl | rfl | rfl <;>
      simp [Role.of, Node.name?, Operator.assignments, quotations]
  unfold events
  rw [hrole]

theorem events_selection {name : String} {target field : Arg Node} {p q : Position}
    (h : name ∈ Operator.members) :
    events withFunctions (.call (.symbol name p) [target, field] q) =
      (Part.head (.symbol name p)).events withFunctions ++
        (Part.tree target.value).events withFunctions := by
  have hrole : Role.of (.symbol name p) [target, field] = .selection := by
    simp only [Operator.members, List.mem_cons, List.not_mem_nil, or_false] at h
    rcases h with rfl | rfl <;>
      simp [Role.of, Node.name?, Operator.assignments, Operator.members, quotations]
  unfold events
  rw [hrole]
  rfl

/-- A call that is not special is an application. -/
theorem role_of_not_special {head : Node} {args : List (Arg Node)} (h : ¬ Special head args) :
    Role.of head args = .application := by
  cases head with
  | symbol name p =>
    -- none of the tests for a role succeeds
    have hassignment : ¬ (name ∈ Operator.assignments ∧ args.length = 2) := by
      rintro ⟨hname, hlength⟩
      match args, hlength, h with
      | [target, value], _, h => exact h (.assignment target value hname)
    have hdefinition :
        ¬ (name = "function" ∧ args.head?.any (fun a => a.value.isParams) = true) := by
      rintro ⟨rfl, hparams⟩
      match args, hparams, h with
      | ⟨_, .params items q⟩ :: rest, _, h => exact h (.definition items rest)
    have hloop : ¬ (name = "for" ∧ args.length = 3 ∧
        args.head?.any (fun a => a.value.name?.isSome) = true) := by
      rintro ⟨rfl, hlength, hsymbol⟩
      match args, hlength, hsymbol, h with
      | [⟨_, .symbol item q⟩, sequence, body], _, _, h => exact h (.loop item sequence body)
    have hquotation : name ∉ quotations := fun hname => h (.quotation args hname)
    have hselection : ¬ (name ∈ Operator.members ∧ args.length = 2) := by
      rintro ⟨hname, hlength⟩
      match args, hlength, h with
      | [target, field], _, h => exact h (.selection target field hname)
    have hname : (Node.symbol name p).name? = some name := rfl
    rw [Role.of, hname]
    dsimp only
    rw [if_neg hassignment, if_neg hdefinition, if_neg hloop, if_neg hquotation, if_neg hselection]
  | _ => rfl

theorem events_application {head : Node} {args : List (Arg Node)} {p : Position}
    (h : ¬ Special head args) :
    events withFunctions (.call head args p) =
      (Part.head head).events withFunctions ++
        (Part.trees (args.map Arg.value)).events withFunctions := by
  unfold events
  rw [role_of_not_special h]
  dsimp only
  rw [eventsArgs_eq]
  rfl

theorem eventsTarget_member {name : String} {base : Arg Node} {rest : List (Arg Node)}
    {p q : Position} (h : name ∈ Operator.members) :
    eventsTarget withFunctions (.call (.symbol name p) (base :: rest) q) =
      (Part.head (.symbol name p)).events withFunctions ++
        (Part.changed base.value).events withFunctions := by
  unfold eventsTarget
  simp only [List.isEmpty_cons, Bool.false_and, Bool.false_eq_true, if_false, Node.name?,
    Option.any_some, h, decide_true, if_true, List.append_nil]
  rfl

theorem eventsTarget_call {head : Node} {base : Arg Node} {rest : List (Arg Node)} {p : Position}
    (h : ∀ name ∈ head.name?, name ∉ Operator.members) :
    eventsTarget withFunctions (.call head (base :: rest) p) =
      (Part.head head).events withFunctions ++ (Part.changed base.value).events withFunctions ++
        (Part.trees (rest.map Arg.value)).events withFunctions := by
  have hany : head.name?.any (· ∈ Operator.members) = false := by
    rw [Option.any_eq_false]
    exact fun name hname => decide_eq_false (h name hname)
  unfold eventsTarget
  simp only [List.isEmpty_cons, Bool.false_and, Bool.false_eq_true, if_false, hany]
  rw [eventsArgs_eq, ← List.append_assoc]
  rfl

/-- A target that is neither a name nor a call with arguments is only visited. -/
theorem eventsTarget_other {n : Node} (hname : n.name? = none)
    (hcall : ∀ head base rest p, n ≠ .call head (base :: rest) p) :
    eventsTarget withFunctions n = events withFunctions n := by
  cases n with
  | symbol name p => cases hname
  | constant a p => rfl
  | missing => rfl
  | params items p => rfl
  | call head args p =>
    cases args with
    | cons base rest => exact absurd rfl (hcall head base rest p)
    | nil =>
      by_cases hquote : ∃ name q, head = .symbol name q ∧ name ∈ quotations
      · obtain ⟨name, q, rfl, hquote⟩ := hquote
        rw [events_quotation hquote]
        unfold eventsTarget
        simp only [List.isEmpty_nil, Bool.true_and, Node.name?, Option.any_some, hquote,
          decide_true, if_true]
      · have hspecial : ¬ Special head [] := by
          intro hspecial
          cases hspecial with
          | quotation _ hmem => exact hquote ⟨_, _, rfl, hmem⟩
        rw [events_application hspecial]
        have hany : head.name?.any (· ∈ quotations) = false := by
          cases head with
          | symbol name q => exact decide_eq_false fun hmem => hquote ⟨name, q, rfl, hmem⟩
          | _ => rfl
        unfold eventsTarget
        simp only [List.isEmpty_nil, Bool.true_and, hany, Bool.false_eq_true, if_false]
        rfl

theorem head_events {n : Node} (h : n.name? = none) :
    (Part.head n).events withFunctions = events withFunctions n := by
  cases n with
  | symbol name p => cases h
  | _ => rfl

theorem target_events_of_name {operator name : String} {n : Node} (h : n.targetName? = some name) :
    (Part.target operator n).events withFunctions = bindTarget (operator = "<<-") name := by
  rw [Part.events, h]

theorem target_events_of_none {operator : String} {n : Node} (h : n.targetName? = none) :
    (Part.target operator n).events withFunctions = (Part.changed n).events withFunctions := by
  rw [Part.events, h]
  rfl

/-! ## The rules give the events -/

/-- What the rules give are the events. -/
theorem Visits.events_eq {part : Part} {es : List ScopeEvent} (h : Visits withFunctions part es) :
    part.events withFunctions = es := by
  induction h with
  | constant a p => rfl
  | missing => rfl
  | symbol name p => rfl
  | params p _ ih => exact (eventsParams_eq _).trans ih
  | assignment p q hoperator _ _ ihvalue ihtarget =>
    rw [Part.events, events_assignment p q _ _ hoperator, ihvalue, ihtarget]
  | definition p q r _ _ ihbody ihdefaults =>
    rw [Part.events, events_definition, ihbody, ihdefaults]
  | loop p q r _ _ ihsequence ihbody => rw [Part.events, events_loop, ihsequence, ihbody]
  | quotation args p q hname => exact events_quotation hname
  | selection p q hname _ _ ihhead ihtarget =>
    rw [Part.events, events_selection hname, ihhead, ihtarget]
  | application p hspecial _ _ ihhead ihargs =>
    rw [Part.events, events_application hspecial, ihhead, ihargs]
  | nil => rfl
  | cons _ _ ihfirst ihrest =>
    rw [← ihfirst, ← ihrest]
    rfl
  | function p hfunctions hname =>
    rw [Part.events, readFunction, hfunctions, Bool.true_and, if_pos (decide_eq_true hname)]
  | construct p h =>
    rw [Part.events, readFunction]
    refine if_neg fun hread => ?_
    rw [Bool.and_eq_true, decide_eq_true_eq] at hread
    rcases h with hnone | hmem
    · exact Bool.false_ne_true (hnone.symm.trans hread.1)
    · exact hread.2 hmem
  | head hname _ ih => exact (head_events hname).trans ih
  | bound hname hne hoperator =>
    rw [target_events_of_name hname, bindTarget, if_neg hne,
      if_neg fun houtward => hoperator (of_decide_eq_true houtward)]
  | outward hname hne =>
    rw [target_events_of_name hname, bindTarget, if_neg hne, if_pos (decide_eq_true rfl)]
  | nameless hname => rw [target_events_of_name hname, bindTarget, if_pos rfl]
  | replacement hname _ ih => exact (target_events_of_none hname).trans ih
  | changedName name p => rfl
  | changedMember rest p q hname _ _ ihhead ihbase =>
    rw [Part.events, eventsTarget_member hname, ihhead, ihbase]
  | changedCall p hname _ _ _ ihhead ihbase ihrest =>
    rw [Part.events, eventsTarget_call hname, ihhead, ihbase, ihrest]
  | changedOther hname hcall _ ih => exact (eventsTarget_other hname hcall).trans ih

theorem visits_trees {ns : List Node}
    (h : ∀ n ∈ ns, Visits withFunctions (.tree n) (events withFunctions n)) :
    Visits withFunctions (.trees ns) ((Part.trees ns).events withFunctions) := by
  induction ns with
  | nil => exact .nil
  | cons n ns ih =>
    obtain ⟨hn, hns⟩ := List.forall_mem_cons.mp h
    exact .cons hn (ih hns)

theorem visits_head {n : Node} (h : Visits withFunctions (.tree n) (events withFunctions n)) :
    Visits withFunctions (.head n) ((Part.head n).events withFunctions) := by
  cases hname : n.name? with
  | none =>
    rw [head_events hname]
    exact .head hname h
  | some name =>
    cases n with
    | symbol name' p =>
      rw [Part.events, readFunction]
      split
      · next hread =>
        rw [Bool.and_eq_true, decide_eq_true_eq] at hread
        exact .function p hread.1 hread.2
      · next hread =>
        refine .construct p ?_
        by_cases hmem : name' ∈ constructs
        · exact .inr hmem
        · rw [decide_eq_true hmem, Bool.and_true] at hread
          exact .inl (Bool.eq_false_iff.mpr hread)
    | _ => cases hname

theorem visits_target {operator : String} {n : Node}
    (h : Visits withFunctions (.changed n) (eventsTarget withFunctions n)) :
    Visits withFunctions (.target operator n) ((Part.target operator n).events withFunctions) := by
  cases hname : n.targetName? with
  | none =>
    rw [target_events_of_none hname]
    exact .replacement hname h
  | some name =>
    rw [target_events_of_name hname, bindTarget]
    split
    · next hempty =>
      subst hempty
      exact .nameless hname
    · next hne =>
      split
      · next houtward =>
        obtain rfl := of_decide_eq_true houtward
        exact .outward hname hne
      · next hinward => exact .bound hname hne (of_decide_eq_false (Bool.not_eq_true _ ▸ hinward))

/-- The rules give the events of every tree, and of what changes in it. -/
theorem visits_tree (n : Node) :
    Visits withFunctions (.tree n) (events withFunctions n) ∧
      Visits withFunctions (.changed n) (eventsTarget withFunctions n) := by
  induction n using Node.ind with
  | constant a p => exact ⟨.constant a p, .changedOther rfl nofun (.constant a p)⟩
  | symbol name p => exact ⟨.symbol name p, .changedName name p⟩
  | missing => exact ⟨.missing, .changedOther rfl nofun .missing⟩
  | params items p hitems =>
    have htree : Visits withFunctions (.tree (.params items p))
        (eventsParams withFunctions items) := by
      rw [eventsParams_eq]
      exact .params p (visits_trees (List.forall_mem_map.mpr fun i hi => (hitems i hi).1))
    exact ⟨htree, .changedOther rfl nofun htree⟩
  | call head args p hhead hargs =>
    have htree : Visits withFunctions (.tree (.call head args p))
        (events withFunctions (.call head args p)) := by
      by_cases hspecial : Special head args
      · cases hspecial with
        | assignment target value hoperator =>
          obtain ⟨htarget, hrest⟩ := List.forall_mem_cons.mp hargs
          have hvalue := List.forall_mem_singleton.mp hrest
          rw [events_assignment _ _ _ _ hoperator]
          exact .assignment _ _ hoperator hvalue.1 (visits_target htarget.2)
        | definition items rest =>
          obtain ⟨hparams, hrest⟩ := List.forall_mem_cons.mp hargs
          rw [events_definition]
          refine .definition _ _ _ (visits_trees ?_) ?_
          · intro n hn
            obtain ⟨a, ha, rfl⟩ := Option.map_eq_some_iff.mp (Option.mem_toList.mp hn)
            exact (hrest a (List.mem_of_mem_head? ha)).1
          · -- the defaults are what is visited in the list of parameters
            cases hparams.1 with
            | params _ hdefaults =>
              rw [hdefaults.events_eq]
              exact hdefaults
        | loop item sequence body =>
          obtain ⟨-, hrest⟩ := List.forall_mem_cons.mp hargs
          obtain ⟨hsequence, hrest⟩ := List.forall_mem_cons.mp hrest
          have hbody := List.forall_mem_singleton.mp hrest
          rw [events_loop]
          exact .loop _ _ _ hsequence.1 hbody.1
        | quotation _ hname =>
          rw [events_quotation hname]
          exact .quotation _ _ _ hname
        | selection target field hname =>
          obtain ⟨htarget, -⟩ := List.forall_mem_cons.mp hargs
          rw [events_selection hname]
          exact .selection _ _ hname (visits_head hhead.1) htarget.1
      · rw [events_application hspecial]
        exact .application p hspecial (visits_head hhead.1)
          (visits_trees (List.forall_mem_map.mpr fun a ha => (hargs a ha).1))
    refine ⟨htree, ?_⟩
    -- a call without arguments has no part that could change
    cases args with
    | nil =>
      have hcall : ∀ head' base rest q,
          Node.call head [] p ≠ .call head' (base :: rest) q := nofun
      rw [eventsTarget_other rfl hcall]
      exact .changedOther rfl hcall htree
    | cons base rest =>
      obtain ⟨hbase, hrest⟩ := List.forall_mem_cons.mp hargs
      by_cases hmember : ∃ name q, head = .symbol name q ∧ name ∈ Operator.members
      · obtain ⟨name, q, rfl, hname⟩ := hmember
        rw [eventsTarget_member hname]
        exact .changedMember rest q p hname (visits_head hhead.1) hbase.2
      · have hother : ∀ name ∈ head.name?, name ∉ Operator.members := by
          intro name hname hmem
          cases head with
          | symbol name' q =>
            obtain rfl := Option.some.inj hname
            exact hmember ⟨_, q, rfl, hmem⟩
          | _ => cases hname
        rw [eventsTarget_call hother]
        exact .changedCall p hother (visits_head hhead.1) hbase.2
          (visits_trees (List.forall_mem_map.mpr fun a ha => (hrest a ha).1))

/-- The rules give the events of a part and nothing else. -/
theorem visits_iff {part : Part} {es : List ScopeEvent} :
    Visits withFunctions part es ↔ part.events withFunctions = es := by
  constructor
  · exact Visits.events_eq
  · rintro rfl
    cases part with
    | tree n => exact (visits_tree n).1
    | trees ns => exact visits_trees fun n _ => (visits_tree n).1
    | head n => exact visits_head (visits_tree n).1
    | target operator n => exact visits_target (visits_tree n).2
    | changed n => exact (visits_tree n).2

end

end RCode.Scope
