import RCode.Proofs.Scope.Nameless
import RCode.Proofs.Token.Joining
import RCode.Source

/-!
# The names of constructs as global names

The search for global names leaves out the names of constructs where they are heads of calls, and
only there. For these names a search with functions is therefore the search without functions, and
what it finds is a variable of the program: a symbol that is not the head of a call
(`Node.construct_mem_globals_iff`). There are programs with such variables
(`Source.program_constructGlobal`).

A search for one name does not need the reads of other names (`focus`), and the reads by which the
two searches differ are none of the name of a construct (`Visits.exists_focus_eq`).
-/

set_option autoImplicit false

namespace RCode

namespace Scope

/-! ## Events that matter to a name -/

/-- The events without the reads of other names. -/
def focus (name : String) : List ScopeEvent → List ScopeEvent
  | [] => []
  | .read other :: rest => if other = name then .read other :: focus name rest else focus name rest
  | .define body :: rest => .define (focus name body) :: focus name rest
  | .bind other :: rest => .bind other :: focus name rest
  | .nameless :: rest => .nameless :: focus name rest

variable {name : String}

theorem focus_append (es fs : List ScopeEvent) :
    focus name (es ++ fs) = focus name es ++ focus name fs := by
  induction es with
  | nil => rw [List.nil_append, focus, List.nil_append]
  | cons e es ih =>
    cases e with
    | read other =>
      rw [List.cons_append, focus, focus, ih]
      split
      · rfl
      · rfl
    | _ => simp only [List.cons_append, focus, ih]

theorem focus_read_of_ne {other : String} (h : other ≠ name) :
    focus name [.read other] = focus name [] := by
  simp only [focus, if_neg h]

theorem bind_mem_focus {other : String} {es : List ScopeEvent} :
    .bind other ∈ focus name es ↔ .bind other ∈ es := by
  fun_induction focus name es <;> simp_all

theorem define_mem_focus {body : List ScopeEvent} {es : List ScopeEvent} :
    .define body ∈ focus name es ↔ ∃ whole, .define whole ∈ es ∧ focus name whole = body := by
  fun_induction focus name es <;> simp_all [eq_comm]

theorem readsFirst_focus {es : List ScopeEvent} :
    ReadsFirst name (focus name es) ↔ ReadsFirst name es := by
  fun_induction focus name es <;> simp_all [readsFirst_cons]

theorem unresolved_focus {es : List ScopeEvent} {around : List (List ScopeEvent)} :
    Unresolved name (focus name es) (around.map (focus name)) ↔ Unresolved name es around := by
  rw [Unresolved, Unresolved, readsFirst_focus, List.forall_mem_map]
  simp only [bind_mem_focus]

/-- The scopes inside of the events that matter are the scopes inside, as far as they matter. -/
theorem inside_focus {es₀ es' : List ScopeEvent} {around₀ around' : List (List ScopeEvent)} :
    Inside (focus name es₀) (around₀.map (focus name)) es' around' ↔
      ∃ es around, Inside es₀ around₀ es around ∧ focus name es = es' ∧
        around.map (focus name) = around' := by
  constructor
  · intro hinside
    induction hinside with
    | here => exact ⟨es₀, around₀, .here, rfl, rfl⟩
    | function _ hbody ih =>
      obtain ⟨es, around, hinside, rfl, rfl⟩ := ih
      obtain ⟨whole, hwhole, rfl⟩ := define_mem_focus.mp hbody
      exact ⟨whole, es :: around, .function hinside hwhole, rfl, List.map_cons⟩
  · rintro ⟨es, around, hinside, rfl, rfl⟩
    induction hinside with
    | here => exact .here
    | @function es body around _ hbody ih =>
      rw [List.map_cons]
      exact .function ih (define_mem_focus.mpr ⟨body, hbody, rfl⟩)

/-- The reads of other names do not matter to a name. -/
theorem unresolvedInside_focus {es : List ScopeEvent} {around : List (List ScopeEvent)} :
    UnresolvedInside name (focus name es) (around.map (focus name)) ↔
      UnresolvedInside name es around := by
  rw [UnresolvedInside, UnresolvedInside]
  simp only [inside_focus]
  constructor
  · rintro ⟨-, -, ⟨es', around', hinside, rfl, rfl⟩, hunresolved⟩
    exact ⟨es', around', hinside, unresolved_focus.mp hunresolved⟩
  · rintro ⟨es', around', hinside, hunresolved⟩
    exact ⟨_, _, ⟨es', around', hinside, rfl, rfl⟩, unresolved_focus.mpr hunresolved⟩

/-! ## Searches with and without functions -/

/-- What matters to the name of a construct is the same if no functions are read. -/
theorem Visits.exists_focus_eq {withFunctions : Bool} {part : Part} {es : List ScopeEvent}
    (hvisits : Visits withFunctions part es) (hname : name ∈ constructs) :
    ∃ fs, Visits false part fs ∧ focus name es = focus name fs := by
  induction hvisits with
  | constant a p => exact ⟨_, .constant a p, rfl⟩
  | missing => exact ⟨_, .missing, rfl⟩
  | symbol other p => exact ⟨_, .symbol other p, rfl⟩
  | params p _ ih =>
    obtain ⟨fs, hfs, heq⟩ := ih
    exact ⟨_, .params p hfs, heq⟩
  | assignment p q hoperator _ _ ihvalue ihtarget =>
    obtain ⟨fs, hfs, hvalue⟩ := ihvalue
    obtain ⟨gs, hgs, htarget⟩ := ihtarget
    refine ⟨_, .assignment p q hoperator hfs hgs, ?_⟩
    rw [focus_append, focus_append, hvalue, htarget]
  | definition p q r _ _ ihbody ihdefaults =>
    obtain ⟨fs, hfs, hbody⟩ := ihbody
    obtain ⟨gs, hgs, hdefaults⟩ := ihdefaults
    refine ⟨_, .definition p q r hfs hgs, ?_⟩
    simp only [focus, focus_append, hbody, hdefaults]
  | loop p q r _ _ ihsequence ihbody =>
    obtain ⟨fs, hfs, hsequence⟩ := ihsequence
    obtain ⟨gs, hgs, hbody⟩ := ihbody
    refine ⟨_, .loop p q r hfs hgs, ?_⟩
    simp only [focus, focus_append, hsequence, hbody]
  | quotation args p q hquote => exact ⟨_, .quotation args p q hquote, rfl⟩
  | selection p q hmember _ _ ihhead ihtarget =>
    obtain ⟨fs, hfs, hhead⟩ := ihhead
    obtain ⟨gs, hgs, htarget⟩ := ihtarget
    refine ⟨_, .selection p q hmember hfs hgs, ?_⟩
    rw [focus_append, focus_append, hhead, htarget]
  | application p hspecial _ _ ihhead ihargs =>
    obtain ⟨fs, hfs, hhead⟩ := ihhead
    obtain ⟨gs, hgs, hargs⟩ := ihargs
    refine ⟨_, .application p hspecial hfs hgs, ?_⟩
    rw [focus_append, focus_append, hhead, hargs]
  | nil => exact ⟨_, .nil, rfl⟩
  | cons _ _ ihfirst ihrest =>
    obtain ⟨fs, hfs, hfirst⟩ := ihfirst
    obtain ⟨gs, hgs, hrest⟩ := ihrest
    refine ⟨_, .cons hfs hgs, ?_⟩
    rw [focus_append, focus_append, hfirst, hrest]
  | function p _ hother =>
    -- the only read that is lost is of a function that is no construct
    refine ⟨_, .construct p (.inl rfl), focus_read_of_ne ?_⟩
    rintro rfl
    exact hother hname
  | construct p _ => exact ⟨_, .construct p (.inl rfl), rfl⟩
  | head hhead _ ih =>
    obtain ⟨fs, hfs, heq⟩ := ih
    exact ⟨_, .head hhead hfs, heq⟩
  | bound hbound hne hoperator => exact ⟨_, .bound hbound hne hoperator, rfl⟩
  | outward hbound hne => exact ⟨_, .outward hbound hne, rfl⟩
  | nameless hempty => exact ⟨_, .nameless hempty, rfl⟩
  | replacement htarget _ ih =>
    obtain ⟨fs, hfs, heq⟩ := ih
    exact ⟨_, .replacement htarget hfs, heq⟩
  | changedName other p => exact ⟨_, .changedName other p, rfl⟩
  | changedMember rest p q hmember _ _ ihhead ihbase =>
    obtain ⟨fs, hfs, hhead⟩ := ihhead
    obtain ⟨gs, hgs, hbase⟩ := ihbase
    refine ⟨_, .changedMember rest p q hmember hfs hgs, ?_⟩
    rw [focus_append, focus_append, hhead, hbase]
  | changedCall p hother _ _ _ ihhead ihbase ihrest =>
    obtain ⟨fs, hfs, hhead⟩ := ihhead
    obtain ⟨gs, hgs, hbase⟩ := ihbase
    obtain ⟨ks, hks, hrest⟩ := ihrest
    refine ⟨_, .changedCall p hother hfs hgs hks, ?_⟩
    simp only [focus_append, hhead, hbase, hrest]
  | changedOther htarget hcall _ ih =>
    obtain ⟨fs, hfs, heq⟩ := ih
    exact ⟨_, .changedOther htarget hcall hfs, heq⟩

/-! ## Where a name is a variable -/

/-- An unresolved read is a read. -/
theorem UnresolvedInside.mem_allEvents {es : List ScopeEvent} {around : List (List ScopeEvent)}
    (h : UnresolvedInside name es around) : .read name ∈ allEvents es := by
  obtain ⟨es', around', hinside, ⟨before, after, hes', -⟩, -⟩ := h
  have hread : .read name ∈ allEvents es' := by
    refine mem_allEvents_of_mem ?_ nofun
    rw [hes']
    exact List.mem_append_right before List.mem_cons_self
  -- outwards from the scope of the read
  clear hes'
  induction hinside with
  | here => exact hread
  | function _ hbody ih => exact ih (allEvents_subset hbody hread)

end Scope

/-- The name is that of a symbol in the tree that is not the head of a call. -/
inductive Node.HasVariable (name : String) : Node → Prop where
  | symbol (p : Position) : HasVariable name (.symbol name p)
  | head {head : Node} (args : List (Arg Node)) (p : Position) :
      head.name? = none → HasVariable name head → HasVariable name (.call head args p)
  | arg {a : Arg Node} {args : List (Arg Node)} (head : Node) (p : Position) :
      a ∈ args → HasVariable name a.value → HasVariable name (.call head args p)
  | default {i : Param Node} {items : List (Param Node)} (p : Position) :
      i ∈ items → HasVariable name i.default → HasVariable name (.params items p)

/-- If no functions are read, then reads come from variables. -/
theorem Scope.origin_read (name : String) :
    Scope.Origin false (.read name) (Node.HasVariable name) where
  read other p heq := by
    cases heq
    exact .symbol p
  function _ _ := rfl
  bind := nofun
  nameless := nofun
  head _ args p hname h := .head args p hname h
  arg head _ p _ ha h := .arg head p ha h
  default _ p _ hi h := .default p hi h

namespace Node

/-- The global names of a program are those of the reads in it that see no binding. -/
theorem mem_globals_of_ok {nodes : List Node} {withFunctions : Bool} {names : List String}
    (h : globals nodes withFunctions = .ok names) (name : String) :
    name ∈ names ↔
      Scope.UnresolvedInside name ((Scope.Part.trees nodes).events withFunctions) [] := by
  rw [globals_eq_close] at h
  cases hclose : Scope.close [] [] [nodes.flatMap (Scope.events withFunctions)] with
  | error problem =>
    rw [hclose] at h
    cases h
  | ok found =>
    rw [hclose] at h
    cases h
    rw [mem_sortedNames, Scope.mem_close hclose .nil]
    simp only [List.not_mem_nil, false_or, List.mem_singleton, exists_eq_left]
    exact Iff.rfl

/-- The name of a construct is global exactly if some read of it sees no binding in a search that
leaves out all functions that calls name, and then it is a variable of one of the trees. -/
theorem construct_mem_globals_iff {nodes : List Node} {withFunctions : Bool} {names : List String}
    (h : globals nodes withFunctions = .ok names) {name : String}
    (hname : name ∈ Scope.constructs) :
    (name ∈ names ↔ ∃ program events around,
      Scope.Visits false (.trees nodes) program ∧
        Scope.Inside program [] events around ∧ Scope.Unresolved name events around) ∧
      (name ∈ names → ∃ n ∈ nodes, n.HasVariable name) := by
  have hvisits : Scope.Visits withFunctions (.trees nodes)
      ((Scope.Part.trees nodes).events withFunctions) := Scope.visits_iff.mpr rfl
  obtain ⟨program, hprogram, hfocus⟩ := hvisits.exists_focus_eq hname
  have hiff : name ∈ names ↔ Scope.UnresolvedInside name program [] := by
    rw [mem_globals_of_ok h, ← Scope.unresolvedInside_focus, hfocus, Scope.unresolvedInside_focus]
  refine ⟨?_, fun hmem => hprogram.holds (Scope.origin_read name) (hiff.mp hmem).mem_allEvents⟩
  rw [hiff]
  constructor
  · rintro ⟨events, around, hinside, hunresolved⟩
    exact ⟨program, events, around, hprogram, hinside, hunresolved⟩
  · rintro ⟨program', events, around, hprogram', hinside, hunresolved⟩
    obtain rfl : program' = program :=
      (Scope.visits_iff.mp hprogram').symm.trans (Scope.visits_iff.mp hprogram)
    exact ⟨events, around, hinside, hunresolved⟩

/-- In a call of `f` with `if` as an argument `if` is global, with and without functions. -/
theorem construct_mem_globals_iff_argument :
    let nodes := [Node.call (.symbol "f" .nowhere) [⟨none, .symbol "if" .nowhere⟩] .nowhere]
    globals nodes true = .ok ["f", "if"] ∧ "if" ∈ Scope.constructs ∧
      ∃ n ∈ nodes, n.HasVariable "if" := by
  intro nodes
  have hglobals : globals nodes true = .ok ["f", "if"] := by cbv
  have hname : "if" ∈ Scope.constructs := by decide
  exact ⟨hglobals, hname, (construct_mem_globals_iff hglobals hname).2 (by decide)⟩

end Node

/-- The text ``f(`if`)`` can be parsed, and a construct is among its global names. -/
theorem Source.program_constructGlobal :
    ∃ ns, (Source.mk "f(`if`)" "<input>").program = .ok ns ∧
      ∀ withFunctions, ∃ names, Node.globals ns withFunctions = .ok names ∧
        ∃ name ∈ names, name ∈ Scope.constructs := by
  have hfalse : Node.globals [.call (.symbol "f" ⟨1, 1⟩) [⟨none, .symbol "if" ⟨1, 3⟩⟩] ⟨1, 1⟩] false =
      .ok ["if"] := by cbv
  have htrue : Node.globals [.call (.symbol "f" ⟨1, 1⟩) [⟨none, .symbol "if" ⟨1, 3⟩⟩] ⟨1, 1⟩] true =
      .ok ["f", "if"] := by cbv
  have hparse : programOf ⟨[⟨.symbol "f", ⟨1, 1⟩⟩, ⟨.leftParen, ⟨1, 2⟩⟩, ⟨.symbol "if", ⟨1, 3⟩⟩,
      ⟨.rightParen, ⟨1, 7⟩⟩], ⟨1, 8⟩⟩ =
        .ok [.call (.symbol "f" ⟨1, 1⟩) [⟨none, .symbol "if" ⟨1, 3⟩⟩] ⟨1, 1⟩] := by cbv
  have hname : readLexeme '`' ['i', 'f', '`', ')'] = .ok (.symbol "if", [')']) := by cbv
  have hend : TokenText.scan ⟨1, 7⟩ false [')'] = .ok ⟨[⟨.rightParen, ⟨1, 7⟩⟩], ⟨1, 8⟩⟩ := by cbv
  have hquoted : TokenText.Scans ⟨1, 3⟩ false ['`', 'i', 'f', '`', ')']
      [⟨.symbol "if", ⟨1, 3⟩⟩, ⟨.rightParen, ⟨1, 7⟩⟩] ⟨1, 8⟩ :=
    .lexeme (by decide) (by decide) (by decide) hname (TokenText.scans_of_scan hend)
  have hopen : readLexeme '(' ['`', 'i', 'f', '`', ')'] =
      .ok (.leftParen, ['`', 'i', 'f', '`', ')']) := rfl
  have hcall : TokenText.Scans ⟨1, 2⟩ false ['(', '`', 'i', 'f', '`', ')']
      [⟨.leftParen, ⟨1, 2⟩⟩, ⟨.symbol "if", ⟨1, 3⟩⟩, ⟨.rightParen, ⟨1, 7⟩⟩] ⟨1, 8⟩ :=
    .lexeme (by decide) (by decide) (by decide) hopen hquoted
  have hfunction : readLexeme 'f' ['(', '`', 'i', 'f', '`', ')'] =
      .ok (.symbol "f", ['(', '`', 'i', 'f', '`', ')']) := by cbv
  have hscans : TokenText.Scans .start false "f(`if`)".toList
      [⟨.symbol "f", ⟨1, 1⟩⟩, ⟨.leftParen, ⟨1, 2⟩⟩, ⟨.symbol "if", ⟨1, 3⟩⟩, ⟨.rightParen, ⟨1, 7⟩⟩]
      ⟨1, 8⟩ :=
    .lexeme (by decide) (by decide) (by decide) hfunction hcall
  refine ⟨[.call (.symbol "f" ⟨1, 1⟩) [⟨none, .symbol "if" ⟨1, 3⟩⟩] ⟨1, 1⟩], ?_, ?_⟩
  · rw [program, tokens, TokenText.ofText, hscans.scan_eq]
    exact hparse
  · intro withFunctions
    cases withFunctions with
    | false => exact ⟨["if"], hfalse, "if", by decide, by decide⟩
    | true => exact ⟨["f", "if"], htrue, "if", by decide, by decide⟩

end RCode
