import RCode.Proofs.Expansion.PartialEvaluation

/-!
# The markers of a tree

Two walks look for the markers of a tree: the search `Node.hasMarkers`, which stops at the first
one, and the expansion, which replaces them. They find the same ones (`replacements_eq_nil_iff`,
`expandAt_of_not_hasMarkers`).

A successful expansion is taken apart by `expandAt_induct`: the result is built like the tree, but
for the markers that give way to what their values stand for.
-/

set_option autoImplicit false

namespace RCode.Expansion

variable {m : Markers} {c : Context}

/-! ## Markers by their names -/

/-- A head is that of a marker by its name alone. -/
theorem isEscape_or_isSplice (m : Markers) (head : Node) :
    (m.isEscape head || m.isSplice head) = head.name?.any (· ∈ m.names) := by
  unfold Markers.isEscape Markers.isSplice Markers.names
  cases head.name? with
  | none => cases m.splice <;> rfl
  | some name =>
    cases m.splice with
    | none => simp [beq_eq_decide]
    | some splice => simp [beq_eq_decide]

theorem isCallTo_names (m : Markers) (head : Node) (args : List (Arg Node)) (p : Position) :
    (Node.call head args p).isCallTo m.names = (m.isEscape head || m.isSplice head) := by
  rw [isEscape_or_isSplice]
  cases head with
  | symbol name q => rfl
  | _ => rfl

/-- A call has markers if it is one or if one of its parts has markers. -/
theorem hasMarkers_call (m : Markers) (head : Node) (args : List (Arg Node)) (p : Position) :
    (Node.call head args p).hasMarkers m =
      (m.isEscape head || m.isSplice head || head.hasMarkers m ||
        Node.anyArgs (Node.isCallTo m.names) args) := by
  unfold Node.hasMarkers
  rw [Node.any, isCallTo_names]

/-- A splice among arguments is a marker. -/
theorem hasMarkers_of_splice? {n : Node} {call : String × List (Arg Node) × Position}
    (h : splice? m n = some call) : n.hasMarkers m = true := by
  obtain ⟨splice, args, p⟩ := call
  obtain ⟨-, head, hs, rfl⟩ := splice?_eq_some h
  rw [hasMarkers_call, hs, Bool.or_true]
  rfl

/-! ## The markers that are replaced -/

theorem replacementsArgs_eq_nil_iff {args : List (Arg Node)}
    (ih : ∀ a ∈ args, ∀ h, replacements m h .argument a.value = [] ↔
      a.value.hasMarkers m = false) :
    ∀ hs, replacementsArgs m hs args = [] ↔
      Node.anyArgs (Node.isCallTo m.names) args = false := by
  induction args with
  | nil => exact fun _ => ⟨fun _ => rfl, fun _ => rfl⟩
  | cons a rest tail =>
    obtain ⟨iha, ihrest⟩ := List.forall_mem_cons.mp ih
    intro hs
    have hmarks : Node.anyArgs (Node.isCallTo m.names) (a :: rest) = false ↔
        a.value.hasMarkers m = false ∧ replacementsArgs m (fun i => hs (i + 1)) rest = [] := by
      rw [tail ihrest, Node.anyArgs, Bool.or_eq_false_iff]
      rfl
    rw [hmarks, replacementsArgs, List.append_eq_nil_iff]
    refine and_congr_left fun _ => ?_
    cases hsplice : splice? m a.value with
    | some call =>
      rw [hasMarkers_of_splice? hsplice]
      constructor <;> rintro ⟨⟩
    | none => exact iha (hs 0)

theorem replacementsParams_eq_nil_iff {items : List (Param Node)}
    (ih : ∀ q ∈ items, ∀ h, replacements m h .free q.default = [] ↔
      q.default.hasMarkers m = false) :
    ∀ hs, replacementsParams m hs items = [] ↔
      Node.anyParams (Node.isCallTo m.names) items = false := by
  induction items with
  | nil => exact fun _ => ⟨fun _ => rfl, fun _ => rfl⟩
  | cons q rest tail =>
    obtain ⟨ihq, ihrest⟩ := List.forall_mem_cons.mp ih
    intro hs
    rw [replacementsParams, List.append_eq_nil_iff, ihq, tail ihrest, Node.anyParams,
      Bool.or_eq_false_iff]
    rfl

/-- A tree has outermost markers if the search finds a marker in it. -/
theorem replacements_eq_nil_iff (n : Node) :
    ∀ h site, replacements m h site n = [] ↔ n.hasMarkers m = false := by
  induction n using Node.ind with
  | constant a p => exact fun _ _ => ⟨fun _ => rfl, fun _ => rfl⟩
  | symbol name p => exact fun _ _ => ⟨fun _ => rfl, fun _ => rfl⟩
  | missing => exact fun _ _ => ⟨fun _ => rfl, fun _ => rfl⟩
  | params items p ih =>
    intro h site
    exact replacementsParams_eq_nil_iff (fun q hq h => ih q hq h .free) h.arguments
  | call head args p ihHead ihArgs =>
    intro h site
    rw [hasMarkers_call, replacements]
    cases he : m.isEscape head with
    | true => constructor <;> rintro ⟨⟩
    | false =>
      cases hs : m.isSplice head with
      | true => constructor <;> rintro ⟨⟩
      | false =>
        simp only [Bool.false_or, Bool.or_eq_false_iff, Bool.false_eq_true, if_false,
          List.append_eq_nil_iff]
        rw [ihHead, replacementsArgs_eq_nil_iff fun a ha h => ihArgs a ha h .argument]

/-! ## Trees without markers -/

theorem expandArgs_eq_self {args : List (Arg Node)}
    (hargs : ∀ a ∈ args, a.value.hasMarkers m = false)
    (ih : ∀ a ∈ args, ∀ h, expandAt m h c .argument a.value = .ok a.value) :
    ∀ hs, expandArgs m hs c args = .ok args := by
  induction args with
  | nil => exact fun _ => rfl
  | cons a rest tail =>
    obtain ⟨ha, hrest⟩ := List.forall_mem_cons.mp hargs
    obtain ⟨iha, ihrest⟩ := List.forall_mem_cons.mp ih
    intro hs
    have hone : splice? m a.value = none := by
      cases hsplice : splice? m a.value with
      | none => rfl
      | some call => rw [hasMarkers_of_splice? hsplice] at ha; cases ha
    rw [expandArgs_cons, expandArg_one hone, iha, tail hrest ihrest]
    rfl

theorem expandParams_eq_self {items : List (Param Node)}
    (ih : ∀ q ∈ items, ∀ h, expandAt m h c .free q.default = .ok q.default) :
    ∀ hs, expandParams m hs c items = .ok items := by
  induction items with
  | nil => exact fun _ => rfl
  | cons q rest tail =>
    obtain ⟨ihq, ihrest⟩ := List.forall_mem_cons.mp ih
    intro hs
    rw [expandParams, ihq, tail ihrest]
    rfl

/-- A tree without markers is its own expansion, whatever the context binds. -/
theorem expandAt_of_not_hasMarkers (n : Node) (hn : n.hasMarkers m = false) :
    ∀ h site, expandAt m h c site n = .ok n := by
  induction n using Node.ind with
  | constant a p => exact fun _ _ => rfl
  | symbol name p => exact fun _ _ => rfl
  | missing => exact fun _ _ => rfl
  | params items p ih =>
    intro h site
    have hitems := Node.anyParams_eq_false_iff.mp hn
    rw [expandAt, expandParams_eq_self fun q hq h => ih q hq (hitems q hq) h .free]
    rfl
  | call head args p ihHead ihArgs =>
    intro h site
    rw [hasMarkers_call] at hn
    simp only [Bool.or_eq_false_iff] at hn
    obtain ⟨⟨⟨he, hs⟩, hhead⟩, hargs⟩ := hn
    have hargs := Node.anyArgs_eq_false_iff.mp hargs
    rw [expandAt_call he hs, ihHead hhead,
      expandArgs_eq_self hargs fun a ha h => ihArgs a ha (hargs a ha) h .argument]
    rfl

/-! ## Successful expansions -/

/-- What stands for the arguments of an expanded call, one after the other: the arguments of a splice,
or one argument of the same name whose value stands for the old one. -/
inductive GivesArgs (m : Markers) (c : Context) (P : Host → Site → Node → Node → Prop) :
    (Nat → Host) → List (Arg Node) → List (Arg Node) → Prop where
  | nil {hs : Nat → Host} : GivesArgs m c P hs [] []
  | splice {hs : Nat → Host} {head : Node} {args new rest rest' : List (Arg Node)} {p : Position} :
      m.isSplice head = true → splicedArgs (hs 0) c (m.splice.getD "") args p = .ok new →
        GivesArgs m c P (fun i => hs (i + 1)) rest rest' →
          GivesArgs m c P hs (⟨none, .call head args p⟩ :: rest) (new ++ rest')
  | one {hs : Nat → Host} {name : Option String} {value value' : Node}
      {rest rest' : List (Arg Node)} : splice? m value = none → P (hs 0) .argument value value' →
        GivesArgs m c P (fun i => hs (i + 1)) rest rest' →
          GivesArgs m c P hs (⟨name, value⟩ :: rest) (⟨name, value'⟩ :: rest')

/-- What stands for the parameters of an expanded list: parameters of the same names whose defaults
stand for the old ones. -/
inductive GivesParams (P : Host → Site → Node → Node → Prop) :
    (Nat → Host) → List (Param Node) → List (Param Node) → Prop where
  | nil {hs : Nat → Host} : GivesParams P hs [] []
  | cons {hs : Nat → Host} {name : String} {default default' : Node}
      {rest rest' : List (Param Node)} : P (hs 0) .free default default' →
        GivesParams P (fun i => hs (i + 1)) rest rest' →
          GivesParams P hs (⟨name, default⟩ :: rest) (⟨name, default'⟩ :: rest')

/-- The arguments of a call that is expanded, when the values of arguments are. -/
theorem gives_of_expandArgs {P : Host → Site → Node → Node → Prop} {args : List (Arg Node)}
    (ih : ∀ a ∈ args, ∀ h new, expandAt m h c .argument a.value = .ok new →
      P h .argument a.value new) :
    ∀ {hs new}, expandArgs m hs c args = .ok new → GivesArgs m c P hs args new := by
  induction args with
  | nil =>
    rintro hs new ⟨⟩
    exact .nil
  | cons a rest tail =>
    obtain ⟨iha, ihrest⟩ := List.forall_mem_cons.mp ih
    obtain ⟨name, value⟩ := a
    intro hs new hnew
    rw [expandArgs_cons] at hnew
    obtain ⟨first, hfirst, hnew⟩ := bind_eq_ok hnew
    obtain ⟨rest', hrest', hnew⟩ := bind_eq_ok hnew
    cases hnew
    have hrest' := tail ihrest hrest'
    cases hsplice : splice? m value with
    | some call =>
      obtain ⟨splice, args, p⟩ := call
      obtain ⟨rfl, head, hs, rfl⟩ := splice?_eq_some hsplice
      rw [expandArg_splice hs] at hfirst
      cases name with
      | some name => cases hfirst
      | none => exact .splice hs hfirst hrest'
    | none =>
      rw [expandArg_one hsplice] at hfirst
      obtain ⟨value', hvalue', rfl⟩ := map_eq_ok_iff.mp hfirst
      exact .one hsplice (iha (hs 0) value' hvalue') hrest'

theorem gives_of_expandParams {P : Host → Site → Node → Node → Prop} {items : List (Param Node)}
    (ih : ∀ q ∈ items, ∀ h new, expandAt m h c .free q.default = .ok new →
      P h .free q.default new) :
    ∀ {hs new}, expandParams m hs c items = .ok new → GivesParams P hs items new := by
  induction items with
  | nil =>
    rintro hs new ⟨⟩
    exact .nil
  | cons q rest tail =>
    obtain ⟨ihq, ihrest⟩ := List.forall_mem_cons.mp ih
    intro hs new hnew
    rw [expandParams] at hnew
    obtain ⟨default', hdefault', hnew⟩ := bind_eq_ok hnew
    obtain ⟨rest', hrest', hnew⟩ := bind_eq_ok hnew
    cases hnew
    exact .cons (ihq (hs 0) default' hdefault') (tail ihrest hrest')

/-- What holds of the parts of a tree and what stands for them, and of markers and what is inserted
for them, holds of a tree and its expansion. -/
@[elab_as_elim]
theorem expandAt_induct {P : Host → Site → Node → Node → Prop}
    (constant : ∀ h site a p, P h site (.constant a p) (.constant a p))
    (symbol : ∀ h site name p, P h site (.symbol name p) (.symbol name p))
    (missing : ∀ h site, P h site .missing .missing)
    (params : ∀ h site items items' p, GivesParams P h.arguments items items' →
      P h site (.params items p) (.params items' p))
    (escape : ∀ h site head args p new, m.isEscape head = true → unquote m h c args p = .ok new →
      site.Accepts new → P h site (.call head args p) new)
    (call : ∀ h site head head' args args' p, m.isEscape head = false → m.isSplice head = false →
      P (h.under 0) .head head head' → GivesArgs m c P h.arguments args args' →
        P h site (.call head args p) (.call head' args' p))
    {n new : Node} {h : Host} {site : Site} (hnew : expandAt m h c site n = .ok new) :
    P h site n new := by
  induction n using Node.ind generalizing h site new with
  | constant a p =>
    cases hnew
    exact constant h site a p
  | symbol name p =>
    cases hnew
    exact symbol h site name p
  | missing =>
    cases hnew
    exact missing h site
  | params items p ih =>
    rw [expandAt] at hnew
    obtain ⟨items', hitems, hnew⟩ := bind_eq_ok hnew
    cases hnew
    exact params h site items items' p
      (gives_of_expandParams (fun q hq h new hnew => ih q hq hnew) hitems)
  | call head args p ihHead ihArgs =>
    cases he : m.isEscape head with
    | true =>
      rw [expandAt_escape he] at hnew
      obtain ⟨n, hn, hcheck⟩ := bind_eq_ok hnew
      obtain ⟨rfl, haccepts⟩ := Site.check_eq_ok_iff.mp hcheck
      exact escape h site head args p n he hn haccepts
    | false =>
      cases hs : m.isSplice head with
      | true => rw [expandAt_misplaced he hs] at hnew; cases hnew
      | false =>
        rw [expandAt_call he hs] at hnew
        obtain ⟨head', hhead', hnew⟩ := bind_eq_ok hnew
        obtain ⟨args', hargs', hnew⟩ := bind_eq_ok hnew
        cases hnew
        exact call h site head head' args args' p he hs (ihHead hhead')
          (gives_of_expandArgs (fun a ha h new hnew => ihArgs a ha hnew) hargs')

/-- Every marker of a tree that is expanded is replaced. -/
theorem failure?_eq_none_of_expandAt {h : Host} {site : Site} {n new : Node}
    (hnew : expandAt m h c site n = .ok new) :
    ∀ x ∈ replacements m h site n, x.2.failure? m c x.1 = none := by
  have hfirst := failure?_expandAt (m := m) (c := c) n h site
  rw [hnew] at hfirst
  exact List.findSome?_eq_none_iff.mp hfirst.symm

end RCode.Expansion
