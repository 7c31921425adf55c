import Mathlib
import RCode.Proofs.Failure
import RCode.Proofs.Scope.Visits

/-!
# Global names and scopes

A program reads its scopes one after the other, and each function after the scope that defines it.
The names that are found are those of the unresolved reads: the reads of a name that the scope has
not bound before, and that no scope around it binds at any place (`Node.mem_globals_iff`).

What carries the proof is that a function is read when the scopes around it are complete: while it
is read they stay as they are (`Finder.Performed`), and they hold exactly the names that they bind
(`Complete`).
-/

set_option autoImplicit false

namespace RCode

namespace Scope

/-! ## The rule -/

/-- In the scope with the events `events₀` inside the scopes `around₀`, or in it itself, there is a
scope with these events, inside these scopes from the inside out. -/
inductive Inside (events₀ : List ScopeEvent) (around₀ : List (List ScopeEvent)) :
    List ScopeEvent → List (List ScopeEvent) → Prop where
  | here : Inside events₀ around₀ events₀ around₀
  | function {events body : List ScopeEvent} {around : List (List ScopeEvent)} :
      Inside events₀ around₀ events around → .define body ∈ events →
        Inside events₀ around₀ body (events :: around)

/-- Some read of the name comes before the scope binds it. -/
def ReadsFirst (name : String) (events : List ScopeEvent) : Prop :=
  ∃ before after, events = before ++ .read name :: after ∧ .bind name ∉ before

/-- Some read of the name in the scope sees no binding: no earlier one of the scope and none at all
of the scopes around it. -/
def Unresolved (name : String) (events : List ScopeEvent)
    (around : List (List ScopeEvent)) : Prop :=
  ReadsFirst name events ∧ ∀ scope ∈ around, .bind name ∉ scope

/-- A scope inside is the scope itself or inside of one of its functions. -/
theorem inside_iff {events₀ events : List ScopeEvent} {around₀ around : List (List ScopeEvent)} :
    Inside events₀ around₀ events around ↔
      (events = events₀ ∧ around = around₀) ∨
        ∃ body, .define body ∈ events₀ ∧ Inside body (events₀ :: around₀) events around := by
  constructor
  · intro h
    induction h with
    | here => exact .inl ⟨rfl, rfl⟩
    | function _ hbody ih =>
      right
      rcases ih with ⟨rfl, rfl⟩ | ⟨body, hmem, hinside⟩
      · exact ⟨_, hbody, .here⟩
      · exact ⟨body, hmem, .function hinside hbody⟩
  · rintro (⟨rfl, rfl⟩ | ⟨body, hmem, hinside⟩)
    · exact .here
    · -- the way inside is made longer at its outer end
      induction hinside with
      | here => exact .function .here hmem
      | function _ hbody ih => exact .function ih hbody

theorem readsFirst_nil (name : String) : ¬ ReadsFirst name [] := by
  rintro ⟨before, after, h, -⟩
  exact List.append_ne_nil_of_right_ne_nil _ (List.cons_ne_nil _ _) h.symm

theorem readsFirst_cons {name : String} {e : ScopeEvent} {rest : List ScopeEvent} :
    ReadsFirst name (e :: rest) ↔
      e = .read name ∨ (e ≠ .bind name ∧ ReadsFirst name rest) := by
  constructor
  · rintro ⟨before, after, h, hbind⟩
    cases before with
    | nil =>
      left
      exact (List.cons.inj h).1
    | cons e' before =>
      obtain ⟨rfl, hrest⟩ := List.cons.inj h
      obtain ⟨hne, hbind⟩ := not_or.mp (mt List.mem_cons.mpr hbind)
      exact .inr ⟨Ne.symm hne, before, after, hrest, hbind⟩
  · rintro (rfl | ⟨hne, before, after, rfl, hbind⟩)
    · exact ⟨[], rest, rfl, List.not_mem_nil⟩
    · refine ⟨e :: before, after, rfl, fun hmem => ?_⟩
      rcases List.mem_cons.mp hmem with heq | hmem
      · exact hne heq.symm
      · exact hbind hmem

theorem readsFirst_singleton {name : String} {e : ScopeEvent} :
    ReadsFirst name [e] ↔ e = .read name := by
  simp only [readsFirst_cons, readsFirst_nil, and_false, or_false]

/-! ## Reading one scope -/

namespace Finder

/-- What reading events does to what is known of a scope. The scopes around it stay as they are. -/
structure Performed (s s' : Finder) (events : List ScopeEvent) : Prop where
  outer : s'.outer = s.outer
  names : ∀ name, name ∈ s'.names ↔ name ∈ s.names ∨ .bind name ∈ events
  deferred : ∀ body, body ∈ s'.deferred ↔ body ∈ s.deferred ∨ .define body ∈ events
  globals : ∀ name, name ∈ s'.globals ↔
    name ∈ s.globals ∨ (¬ s.isBound name = true ∧ ReadsFirst name events)

theorem isBound_iff {s : Finder} {name : String} :
    s.isBound name = true ↔ name ∈ s.names ∨ ∃ names ∈ s.outer, name ∈ names := by
  rw [isBound, Bool.or_eq_true, decide_eq_true_eq, List.any_eq_true]
  simp only [decide_eq_true_eq]

theorem Performed.nil (s : Finder) : Performed s s [] where
  outer := rfl
  names := by simp
  deferred := by simp
  globals := by simp [readsFirst_nil]

theorem Performed.isBound {s s' : Finder} {events : List ScopeEvent} (h : Performed s s' events)
    (name : String) : s'.isBound name = true ↔ s.isBound name = true ∨ .bind name ∈ events := by
  rw [isBound_iff, isBound_iff, h.outer, h.names]
  exact or_right_comm

/-- One event of a scope. -/
theorem perform_performed {s s' : Finder} {e : ScopeEvent} (h : s.perform e = .ok s') :
    Performed s s' [e] := by
  cases e with
  | read name =>
    simp only [perform, Except.ok.injEq] at h
    by_cases hbound : s.isBound name = true
    · rw [if_pos hbound] at h
      subst h
      refine ⟨rfl, by simp, by simp, fun other => ?_⟩
      rw [readsFirst_singleton]
      constructor
      · exact .inl
      · rintro (hmem | ⟨hunbound, heq⟩)
        · exact hmem
        · cases heq
          exact absurd hbound hunbound
    · rw [if_neg hbound] at h
      subst h
      refine ⟨rfl, by simp, by simp, fun other => ?_⟩
      rw [readsFirst_singleton, List.mem_cons]
      constructor
      · rintro (rfl | hmem)
        · exact .inr ⟨hbound, rfl⟩
        · exact .inl hmem
      · rintro (hmem | ⟨-, heq⟩)
        · exact .inr hmem
        · cases heq
          exact .inl rfl
  | bind name =>
    cases h
    refine ⟨rfl, fun other => ?_, by simp, by simp [readsFirst_singleton]⟩
    rw [List.mem_cons, List.mem_singleton, ScopeEvent.bind.injEq, or_comm]
  | nameless => cases h
  | define body =>
    cases h
    refine ⟨rfl, by simp, fun other => ?_, by simp [readsFirst_singleton]⟩
    rw [List.mem_append, List.mem_singleton, List.mem_singleton, ScopeEvent.define.injEq]

/-- An event and those after it. -/
theorem Performed.cons {s s₁ s' : Finder} {e : ScopeEvent} {rest : List ScopeEvent}
    (hfirst : Performed s s₁ [e]) (hrest : Performed s₁ s' rest) :
    Performed s s' (e :: rest) where
  outer := hrest.outer.trans hfirst.outer
  names name := by
    rw [hrest.names, hfirst.names, List.mem_singleton, List.mem_cons, or_assoc]
  deferred body := by
    rw [hrest.deferred, hfirst.deferred, List.mem_singleton, List.mem_cons, or_assoc]
  globals name := by
    -- a read in the rest counts if neither the scope before nor the first event binds the name
    rw [hrest.globals, hfirst.globals, hfirst.isBound, readsFirst_singleton, readsFirst_cons,
      List.mem_singleton]
    rw [ne_comm]
    cases s.isBound name with
    | true => simp
    | false => simp [or_assoc]

/-- The events of a scope. -/
theorem run_performed {s s' : Finder} {events : List ScopeEvent} (h : s.run events = .ok s') :
    Performed s s' events := by
  induction events generalizing s with
  | nil =>
    cases h
    exact .nil _
  | cons e rest ih =>
    obtain ⟨s₁, hfirst, hrest⟩ := bind_eq_ok h
    exact (perform_performed hfirst).cons (ih hrest)

end Finder

/-! ## Reading the functions -/

/-- The scopes around a function are complete: their names are all that they bind. -/
def Complete (outer : List (List String)) (around : List (List ScopeEvent)) : Prop :=
  List.Forall₂ (fun names events => ∀ name, name ∈ names ↔ .bind name ∈ events) outer around

theorem Complete.exists_mem_iff {outer : List (List String)} {around : List (List ScopeEvent)}
    (h : Complete outer around) (name : String) :
    (∃ names ∈ outer, name ∈ names) ↔ ∃ events ∈ around, .bind name ∈ events := by
  induction h with
  | nil => simp
  | cons hfirst _ ih => simp [hfirst name, ih]

/-- A scope inside complete scopes, when it is complete itself. -/
theorem Complete.run {outer : List (List String)} {around : List (List ScopeEvent)}
    (h : Complete outer around) {globals : List String} {events : List ScopeEvent} {s : Finder}
    (hrun : (Finder.opened outer globals).run events = .ok s) :
    Complete (s.names :: outer) (events :: around) ∧
      (∀ body, body ∈ s.deferred ↔ .define body ∈ events) ∧
      ∀ name, name ∈ s.globals ↔ name ∈ globals ∨ Unresolved name events around := by
  have hperformed := Finder.run_performed hrun
  refine ⟨.cons (fun name => ?_) h, fun body => ?_, fun name => ?_⟩
  · rw [hperformed.names]
    simp [Finder.opened]
  · rw [hperformed.deferred]
    simp [Finder.opened]
  · -- a scope that has just been opened knows the names of the scopes around it only
    have hunbound : ¬ (Finder.opened outer globals).isBound name = true ↔
        ∀ scope ∈ around, .bind name ∉ scope := by
      rw [Finder.isBound_iff]
      simp [Finder.opened, h.exists_mem_iff name]
    rw [hperformed.globals, hunbound, and_comm]
    exact Iff.rfl

/-- Some read of the name in the scope or inside of it is unresolved. -/
def UnresolvedInside (name : String) (events : List ScopeEvent) (around : List (List ScopeEvent)) :
    Prop :=
  ∃ events' around', Inside events around events' around' ∧ Unresolved name events' around'

theorem unresolvedInside_iff {name : String} {events : List ScopeEvent}
    {around : List (List ScopeEvent)} :
    UnresolvedInside name events around ↔
      Unresolved name events around ∨
        ∃ body, .define body ∈ events ∧ UnresolvedInside name body (events :: around) := by
  constructor
  · rintro ⟨events', around', hinside, hunresolved⟩
    rcases inside_iff.mp hinside with ⟨rfl, rfl⟩ | ⟨body, hbody, hinside⟩
    · exact .inl hunresolved
    · exact .inr ⟨body, hbody, events', around', hinside, hunresolved⟩
  · rintro (hunresolved | ⟨body, hbody, events', around', hinside, hunresolved⟩)
    · exact ⟨events, around, .here, hunresolved⟩
    · exact ⟨events', around', inside_iff.mpr (.inr ⟨body, hbody, hinside⟩), hunresolved⟩

/-- Reading functions finds the names that are unresolved in them and inside of them. -/
theorem mem_close {outer : List (List String)} {globals names : List String}
    {bodies around : List (List ScopeEvent)} (h : close outer globals bodies = .ok names)
    (hcomplete : Complete outer around) (name : String) :
    name ∈ names ↔ name ∈ globals ∨ ∃ body ∈ bodies, UnresolvedInside name body around := by
  -- `around` goes with `outer`: it changes on the way into a function and not on the way to the next
  fun_induction close outer globals bodies generalizing names around with
  | case1 outer globals =>
    cases h
    simp
  | case2 outer globals body rest problem hrun => cases h
  | case3 outer globals body rest s hrun hlt ihinside ihrest =>
    obtain ⟨found, hinside, hrest⟩ := bind_eq_ok h
    obtain ⟨hcomplete', hdeferred, hglobals⟩ := hcomplete.run hrun
    have hbody : name ∈ found ↔ name ∈ globals ∨ UnresolvedInside name body around := by
      rw [ihinside hinside hcomplete', hglobals, unresolvedInside_iff, or_assoc]
      simp only [hdeferred]
    rw [ihrest found hrest hcomplete, hbody, List.exists_mem_cons_iff, or_assoc]

end Scope

namespace Node

/-- The global names of a program are those of its unresolved reads. -/
theorem mem_globals_iff {nodes : List Node} {withFunctions : Bool} {names : List String}
    (h : globals nodes withFunctions = .ok names) (name : String) :
    name ∈ names ↔ ∃ program events around,
      Scope.Visits withFunctions (.trees nodes) program ∧
        Scope.Inside program [] events around ∧ Scope.Unresolved name events around := by
  obtain ⟨s, hrun, h⟩ := bind_eq_ok h
  obtain ⟨found, hclose, h⟩ := bind_eq_ok h
  cases h
  -- the program is a scope with no scopes around it
  have hnone : Scope.Complete [] [] := .nil
  obtain ⟨hcomplete, hdeferred, hglobals⟩ := hnone.run hrun
  have hfound : name ∈ found ↔
      Scope.UnresolvedInside name (nodes.flatMap (Scope.events withFunctions)) [] := by
    rw [Scope.mem_close hclose hcomplete, hglobals, Scope.unresolvedInside_iff]
    simp only [hdeferred, List.not_mem_nil, false_or]
  rw [mem_sortedNames, hfound]
  constructor
  · rintro ⟨events, around, hinside, hunresolved⟩
    exact ⟨_, events, around, Scope.visits_iff.mpr rfl, hinside, hunresolved⟩
  · rintro ⟨program, events, around, hvisits, hinside, hunresolved⟩
    obtain rfl := Scope.visits_iff.mp hvisits
    exact ⟨events, around, hinside, hunresolved⟩

/-- In `f <- function(x) g(x, y)` and `g <- h` the function `g` is bound below, and `y` nowhere. -/
theorem mem_globals_iff_function :
    let call (head : String) (args : List Node) : Node :=
      .call (.symbol head .nowhere) (args.map fun a => ⟨none, a⟩) .nowhere
    let symbol (name : String) : Node := .symbol name .nowhere
    let nodes := [call "<-" [symbol "f", call "function" [.params [⟨"x", .missing⟩] .nowhere,
      call "g" [symbol "x", symbol "y"]]], call "<-" [symbol "g", symbol "h"]]
    globals nodes true = .ok ["h", "y"] ∧
      ∃ program events around, Scope.Visits true (.trees nodes) program ∧
        Scope.Inside program [] events around ∧ Scope.Unresolved "y" events around := by
  intro call symbol nodes
  have hglobals : globals nodes true = .ok ["h", "y"] := by cbv
  exact ⟨hglobals, (mem_globals_iff hglobals "y").mp (by decide)⟩

end Node

end RCode
