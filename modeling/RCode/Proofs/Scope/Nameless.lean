import RCode.Proofs.Node.Traversal
import RCode.Proofs.Scope.Globals
import RCode.Proofs.Scope.Origins

/-!
# Assignments to the empty text

The search for global names makes a symbol of the target of every assignment that it comes to, and
the empty text makes none. This is the only way for the search to fail, and it fails whenever it
comes to such an assignment, in whatever scope (`Node.globals_eq_error_iff`). In a well-formed
program without empty texts there is none (`Node.exists_globals`).
-/

set_option autoImplicit false

namespace RCode

namespace Scope

/-- The scope, or one inside of it, assigns to the empty text. -/
inductive Nameless : List ScopeEvent → Prop where
  | here {es : List ScopeEvent} : .nameless ∈ es → Nameless es
  | function {es body : List ScopeEvent} : .define body ∈ es → Nameless body → Nameless es

theorem nameless_iff {es : List ScopeEvent} :
    Nameless es ↔ .nameless ∈ es ∨ ∃ body, .define body ∈ es ∧ Nameless body := by
  constructor
  · rintro (hmem | ⟨hbody, hnameless⟩)
    · exact .inl hmem
    · exact .inr ⟨_, hbody, hnameless⟩
  · rintro (hmem | ⟨body, hbody, hnameless⟩)
    · exact .here hmem
    · exact .function hbody hnameless

/-! ## The search fails -/

/-- A scope cannot be read if it assigns to the empty text itself. -/
theorem Finder.run_eq_error_iff {s : Finder} {es : List ScopeEvent} {e : NodeError} :
    s.run es = .error e ↔ e = .emptySymbol ∧ .nameless ∈ es := by
  induction es generalizing s with
  | nil => simp [run]
  | cons event rest ih =>
    cases event with
    | nameless => simp [run, perform, error_bind, eq_comm]
    | read name => simp [run, perform, ok_bind, ih]
    | bind name => simp [run, perform, ok_bind, ih]
    | define body => simp [run, perform, ok_bind, ih]

/-- Functions cannot be read if one of them assigns to the empty text, in whatever scope. -/
theorem close_eq_error_iff {outer : List (List String)} {globals : List String}
    {bodies : List (List ScopeEvent)} {e : NodeError} :
    close outer globals bodies = .error e ↔
      e = .emptySymbol ∧ ∃ body ∈ bodies, Nameless body := by
  fun_induction close outer globals bodies generalizing e with
  | case1 outer globals => simp
  | case2 outer globals body rest problem hrun =>
    obtain ⟨rfl, hmem⟩ := Finder.run_eq_error_iff.mp hrun
    have hbodies : ∃ b ∈ body :: rest, Nameless b := ⟨body, List.mem_cons_self, .here hmem⟩
    rw [Except.error.injEq, eq_comm, and_iff_left hbodies]
  | case3 outer globals body rest s hrun hlt ihinside ihrest =>
    -- the function itself has been read, so that only those inside of it are left
    have hdeferred : Nameless body ↔ ∃ b ∈ s.deferred, Nameless b := by
      have hmem : .nameless ∉ body := by
        intro hmem
        rw [Finder.run_eq_error_iff.mpr ⟨rfl, hmem⟩] at hrun
        cases hrun
      rw [nameless_iff, or_iff_right hmem]
      simp only [(Finder.run_performed hrun).deferred, Finder.opened, List.not_mem_nil, false_or,
        and_comm]
    rw [List.exists_mem_cons_iff, hdeferred]
    cases hinside : close (s.names :: outer) s.globals s.deferred with
    | error problem =>
      obtain ⟨rfl, hbody⟩ := ihinside.mp hinside
      rw [error_bind, Except.error.injEq, eq_comm, and_iff_left (.inl hbody)]
    | ok found =>
      have hbody : ¬ ∃ b ∈ s.deferred, Nameless b := by
        intro hbody
        rw [ihinside.mpr ⟨rfl, hbody⟩] at hinside
        cases hinside
      rw [ok_bind, ihrest found, or_iff_right hbody]

end Scope

namespace Node

variable {nodes : List Node} {withFunctions : Bool}

/-- A program is read like the only function of a scope without names. -/
theorem globals_eq_close : globals nodes withFunctions =
    (Scope.close [] [] [nodes.flatMap (Scope.events withFunctions)]).map sortedNames := by
  unfold globals
  rw [Scope.close]
  split
  · next problem hrun =>
    simp only [hrun]
    rfl
  · next s hrun =>
    simp only [hrun, ok_bind]
    cases Scope.close [s.names] s.globals s.deferred with
    | error problem => rfl
    | ok found =>
      rw [ok_bind, ok_bind, Scope.close]
      rfl

/-- The search for global names fails exactly if it comes to an assignment to the empty text. -/
theorem globals_eq_error_iff {e : NodeError} :
    globals nodes withFunctions = .error e ↔
      e = .emptySymbol ∧
        ∃ program, Scope.Visits withFunctions (.trees nodes) program ∧ Scope.Nameless program := by
  have hmap : globals nodes withFunctions = .error e ↔
      Scope.close [] [] [nodes.flatMap (Scope.events withFunctions)] = .error e := by
    rw [globals_eq_close]
    cases Scope.close [] [] [nodes.flatMap (Scope.events withFunctions)] with
    | error problem => exact Iff.rfl
    | ok names => exact ⟨nofun, nofun⟩
  rw [hmap, Scope.close_eq_error_iff]
  simp only [Scope.visits_iff, Scope.Part.events, List.mem_singleton, exists_eq_left,
    exists_eq_left']

end Node

namespace Scope

/-! ## Where the empty text comes from -/

theorem Nameless.mem_allEvents {es : List ScopeEvent} (h : Nameless es) :
    .nameless ∈ allEvents es := by
  induction h with
  | here hmem => exact mem_allEvents_of_mem hmem nofun
  | function hbody _ ih => exact allEvents_subset hbody ih

/-- A symbol or a text in the tree is empty. -/
def HoldsEmptyName (n : Node) : Prop :=
  ∃ k ∈ n.preorder, k.targetName? = some ""

theorem HoldsEmptyName.head {head : Node} (h : HoldsEmptyName head) (args : List (Arg Node))
    (p : Position) : HoldsEmptyName (.call head args p) :=
  Node.exists_preorder_call.mpr (.inr (.inl h))

theorem HoldsEmptyName.arg {a : Arg Node} (h : HoldsEmptyName a.value) {args : List (Arg Node)}
    (ha : a ∈ args) (head : Node) (p : Position) : HoldsEmptyName (.call head args p) :=
  Node.exists_preorder_call.mpr (.inr (.inr ⟨a, ha, h⟩))

theorem HoldsEmptyName.default {i : Param Node} (h : HoldsEmptyName i.default)
    {items : List (Param Node)} (hi : i ∈ items) (p : Position) :
    HoldsEmptyName (.params items p) :=
  Node.exists_preorder_params.mpr (.inr ⟨i, hi, h⟩)

theorem holdsEmptyName_of_targetName? {n : Node} (h : n.targetName? = some "") :
    HoldsEmptyName n := by
  cases n with
  | symbol name p => exact ⟨_, List.mem_singleton.mpr rfl, h⟩
  | constant a p => exact ⟨_, List.mem_singleton.mpr rfl, h⟩
  | _ => cases h

/-- A symbol or a text in the part is empty. -/
def Part.HoldsEmptyName : Part → Prop
  | .tree n => Scope.HoldsEmptyName n
  | .trees ns => ∃ n ∈ ns, Scope.HoldsEmptyName n
  | .head n => Scope.HoldsEmptyName n
  | .target _ n => Scope.HoldsEmptyName n
  | .changed n => Scope.HoldsEmptyName n

/-- An assignment to the empty text comes from a target with an empty name. -/
theorem origin_nameless (withFunctions : Bool) :
    Origin withFunctions .nameless HoldsEmptyName where
  read := nofun
  function := nofun
  bind := nofun
  nameless _ _ hname := holdsEmptyName_of_targetName? hname
  head _ args p _ h := h.head args p
  arg head _ p _ ha h := h.arg ha head p
  default _ p _ hi h := h.default hi p

/-- Only a part with an empty name assigns to the empty text. -/
theorem Visits.holdsEmptyName {withFunctions : Bool} {part : Part} {es : List ScopeEvent}
    (hvisits : Visits withFunctions part es) (h : Nameless es) : part.HoldsEmptyName := by
  have hholds := hvisits.holds (origin_nameless withFunctions) h.mem_allEvents
  cases part with
  | head n => exact hholds.2
  | _ => exact hholds

/-- In a well-formed tree an empty name is an empty text. -/
theorem HoldsEmptyName.exists_text {n : Node} (h : HoldsEmptyName n) :
    n.WellFormed → ∃ k ∈ n.preorder, ∃ p, k = .constant (.text "") p := by
  induction n using Node.ind with
  | constant a p =>
    obtain ⟨k, hk, hname⟩ := h
    obtain rfl := List.mem_singleton.mp hk
    cases a with
    | text s =>
      cases hname
      exact fun _ => ⟨_, hk, p, rfl⟩
    | _ => cases hname
  | symbol name p =>
    obtain ⟨k, hk, hname⟩ := h
    obtain rfl := List.mem_singleton.mp hk
    exact fun hne => absurd (Option.some.inj hname) hne
  | missing =>
    obtain ⟨k, hk, hname⟩ := h
    obtain rfl := List.mem_singleton.mp hk
    cases hname
  | params items p ih =>
    rintro ⟨-, hitems⟩
    rcases Node.exists_preorder_params.mp h with h | ⟨i, hi, h⟩
    · cases h
    · exact Node.exists_preorder_params.mpr
        (.inr ⟨i, hi, ih i hi h (Node.wellFormed_param hitems hi).2⟩)
  | call head args p ihHead ihArgs =>
    rintro ⟨-, -, hhead, hargs⟩
    rcases Node.exists_preorder_call.mp h with h | h | ⟨a, ha, h⟩
    · cases h
    · exact Node.exists_preorder_call.mpr (.inr (.inl (ihHead h hhead)))
    · exact Node.exists_preorder_call.mpr
        (.inr (.inr ⟨a, ha, ihArgs a ha h (Node.wellFormed_arg hargs ha).2.2⟩))

end Scope

/-- A well-formed program in which the search fails holds an empty text. -/
theorem Node.exists_emptyText_of_globals {nodes : List Node} {withFunctions : Bool} {e : NodeError}
    (hnodes : ∀ n ∈ nodes, n.WellFormed) (h : globals nodes withFunctions = .error e) :
    ∃ n ∈ nodes, ∃ k ∈ n.preorder, ∃ p, k = .constant (.text "") p := by
  obtain ⟨-, program, hvisits, hnameless⟩ := globals_eq_error_iff.mp h
  obtain ⟨n, hn, hempty⟩ := hvisits.holdsEmptyName hnameless
  exact ⟨n, hn, hempty.exists_text (hnodes n hn)⟩

end RCode
