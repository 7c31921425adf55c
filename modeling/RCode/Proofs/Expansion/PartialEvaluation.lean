import RCode.Proofs.Evaluation.Settled
import RCode.Proofs.Expansion.Order

/-!
# Escapes as partial evaluation

An escape is the place where a part of a tree is evaluated early. In a tree that neither quotes nor
assigns, whose escapes stand for atoms, this makes no difference: the expansion has the value, or the
error, that the tree has when each escape gives way to its operand (`Node.evaluate_expand`).
-/

set_option autoImplicit false

namespace RCode

namespace Node

/-! ## Tests of calls -/

theorem anyArgs_eq_false_iff {test : Node → Bool} {args : List (Arg Node)} :
    anyArgs test args = false ↔ ∀ a ∈ args, a.value.any test = false := by
  induction args with
  | nil => simp [anyArgs]
  | cons a rest ih => simp [anyArgs, ih]

/-- No call of some names is left in a call if its head has none of them and its parts hold none. -/
theorem any_isCallTo_call {names : List String} {head : Node} {args : List (Arg Node)}
    {p : Position} (h : (Node.call head args p).any (isCallTo names) = false) :
    (∀ name ∈ names, head.name? ≠ some name) ∧ head.any (isCallTo names) = false ∧
      ∀ a ∈ args, a.value.any (isCallTo names) = false := by
  rw [any, Bool.or_eq_false_iff, Bool.or_eq_false_iff, anyArgs_eq_false_iff] at h
  obtain ⟨⟨hcall, hhead⟩, hargs⟩ := h
  refine ⟨fun name hname heq => ?_, hhead, hargs⟩
  cases head with
  | symbol s q =>
    cases heq
    simp [isCallTo, hname] at hcall
  | _ => cases heq

/-! ## Operands in the places of their escapes -/

mutual

/-- The tree with the operand of each escape in the place of the escape. -/
def unescape (m : Markers) : Node → Node
  | .call head args p =>
    match m.isEscape head, unescapeArgs m args with
    | true, [⟨none, operand⟩] => operand
    | _, args => .call (unescape m head) args p
  | .params items p => .params (unescapeParams m items) p
  | n => n

/-- The arguments with the operands of their escapes in the places of the escapes. -/
def unescapeArgs (m : Markers) : List (Arg Node) → List (Arg Node)
  | [] => []
  | a :: rest => ⟨a.name, unescape m a.value⟩ :: unescapeArgs m rest

/-- The parameters with the operands of the escapes in their defaults in the places of these. -/
def unescapeParams (m : Markers) : List (Param Node) → List (Param Node)
  | [] => []
  | q :: rest => ⟨q.name, unescape m q.default⟩ :: unescapeParams m rest

end

theorem isEscape_eq_false {m : Markers} {head : Node} (h : head.name? ≠ some m.escape) :
    m.isEscape head = false :=
  beq_eq_false_iff_ne.mpr h

theorem isCallTo_escape (m : Markers) (head : Node) (args : List (Arg Node)) (p : Position) :
    (Node.call head args p).isCallTo [m.escape] = m.isEscape head := by
  cases head with
  | symbol name q => simp [isCallTo, Markers.isEscape, Node.name?, beq_eq_decide]
  | _ => rfl

theorem isSplice_eq_false {m : Markers} {head : Node}
    (h : ∀ name ∈ m.splice.toList, head.name? ≠ some name) : m.isSplice head = false := by
  unfold Markers.isSplice
  cases hs : m.splice with
  | none => rfl
  | some splice =>
    have : head.name? ≠ some splice := h splice (by simp [hs])
    simp [this]

theorem unescapeArgs_eq_self {m : Markers} {args : List (Arg Node)}
    (h : ∀ a ∈ args, a.value.unescape m = a.value) : unescapeArgs m args = args := by
  induction args with
  | nil => rfl
  | cons a rest ih =>
    obtain ⟨ha, hrest⟩ := List.forall_mem_cons.mp h
    rw [unescapeArgs, ha, ih hrest]

theorem unescapeParams_eq_self {m : Markers} {items : List (Param Node)}
    (h : ∀ q ∈ items, q.default.unescape m = q.default) : unescapeParams m items = items := by
  induction items with
  | nil => rfl
  | cons q rest ih =>
    obtain ⟨hq, hrest⟩ := List.forall_mem_cons.mp h
    rw [unescapeParams, hq, ih hrest]

theorem anyParams_eq_false_iff {test : Node → Bool} {items : List (Param Node)} :
    anyParams test items = false ↔ ∀ q ∈ items, q.default.any test = false := by
  induction items with
  | nil => simp [anyParams]
  | cons q rest ih => simp [anyParams, ih]

theorem unescape_call {m : Markers} {head : Node} (h : m.isEscape head = false)
    (args : List (Arg Node)) (p : Position) :
    (Node.call head args p).unescape m = .call (head.unescape m) (unescapeArgs m args) p := by
  rw [unescape, h]

/-- Nothing is replaced in a tree without markers. -/
theorem unescape_eq_self {m : Markers} (n : Node) (h : n.hasMarkers m = false) :
    n.unescape m = n := by
  unfold hasMarkers at h
  induction n using Node.ind with
  | constant a p => rfl
  | symbol name p => rfl
  | missing => rfl
  | params items p ih =>
    rw [any, anyParams_eq_false_iff] at h
    rw [unescape, unescapeParams_eq_self fun q hq => ih q hq (h q hq)]
  | call head args p ihHead ihArgs =>
    obtain ⟨hname, hhead, hargs⟩ := any_isCallTo_call h
    have he : m.isEscape head = false := isEscape_eq_false (hname _ List.mem_cons_self)
    rw [unescape_call he, ihHead hhead,
      unescapeArgs_eq_self fun a ha => ihArgs a ha (hargs a ha)]

/-- Only an escape may give way to a name. -/
theorem name?_unescape {m : Markers} {n : Node} (h : n.isCallTo [m.escape] = false) :
    (n.unescape m).name? = n.name? := by
  cases n with
  | call head args p =>
    rw [isCallTo_escape] at h
    rw [unescape_call h]
    rfl
  | _ => rfl

end Node

namespace Expansion

open Evaluation Node

variable {m : Markers} {c : Context}

/-- A tree that calls none of some names, assignments among them, assigns nothing. -/
theorem settled_of_any {names : List String} (hleft : "<-" ∈ names) (hequals : "=" ∈ names)
    (n : Node) (h : n.any (isCallTo names) = false) : Settled c n := by
  induction n using Node.ind with
  | constant a p => exact Settled.constant a p
  | symbol name p => exact Settled.symbol name p
  | missing => exact Settled.missing
  | params items p => exact Settled.params items p
  | call head args p ihHead ihArgs =>
    obtain ⟨hname, hhead, hargs⟩ := any_isCallTo_call h
    exact Settled.call (ihHead hhead) (fun a ha => ihArgs a ha (hargs a ha))
      (Rule.of_ne_assignment (hname _ hleft) (hname _ hequals) args) p

/-- The names that are not called where early evaluation is to make no difference. -/
def eagerNames (m : Markers) : List String :=
  ["quote", "<-", "=", "<<-"] ++ m.splice.toList

/-- An escape that is no head, has no marker inside and has no value but an atom. -/
structure Atomic (m : Markers) (c : Context) (h : Host) (site : Site) (args : List (Arg Node))
    (p : Position) : Prop where
  not_head : site ≠ .head
  not_nested : ∀ a ∈ args, a.value.hasMarkers m = false
  value_atom : ∀ v, operandValue h c m.escape p args = .ok v → ∃ a, v = .atom a

/-- A tree at a site in which early evaluation makes no difference. -/
structure Foldable (m : Markers) (c : Context) (h : Host) (site : Site) (n : Node) : Prop where
  wellFormed : n.WellFormed
  not_params : site = .head → n.isParams = false
  not_called : n.any (isCallTo (eagerNames m)) = false
  atomic : ∀ h' s args p, (h', .escape s args p) ∈ replacements m h site n → Atomic m c h' s args p

namespace Foldable

variable {h : Host} {site : Site} {head : Node} {args : List (Arg Node)} {p : Position}

theorem not_splice (hf : Foldable m c h site (.call head args p)) : m.isSplice head = false := by
  obtain ⟨hname, -, -⟩ := any_isCallTo_call hf.not_called
  exact isSplice_eq_false fun name hmem => hname name (List.mem_append_right _ hmem)

theorem head_of_call (hf : Foldable m c h site (.call head args p)) (he : m.isEscape head = false) :
    Foldable m c (h.under 0) .head head := by
  obtain ⟨-, hparams, hhead, -⟩ := hf.wellFormed
  obtain ⟨-, hcalled, -⟩ := any_isCallTo_call hf.not_called
  refine ⟨hhead, fun _ => hparams, hcalled, fun h' s as q hmem => hf.atomic h' s as q ?_⟩
  rw [replacements, he, hf.not_splice]
  exact List.mem_append_left _ hmem

/-- No argument is a splice. -/
theorem splice?_arg {a : Arg Node} (ha : a.value.any (isCallTo (eagerNames m)) = false) :
    splice? m a.value = none := by
  obtain ⟨name, value⟩ := a
  cases value with
  | call head args p =>
    obtain ⟨hname, -, -⟩ := any_isCallTo_call ha
    refine splice?_of_not_isSplice (isSplice_eq_false fun name hmem => ?_) args p
    exact hname name (List.mem_append_right _ hmem)
  | _ => rfl

theorem replacements_subset_args {hs : Nat → Host} {x : Host × Arg Node}
    (hx : x ∈ Host.row hs args) (hsplice : splice? m x.2.value = none) :
    replacements m x.1 .argument x.2.value ⊆ replacementsArgs m hs args := by
  induction args generalizing hs with
  | nil => cases hx
  | cons b rest ih =>
    intro r hr
    rw [Host.row_cons] at hx
    rw [replacementsArgs, List.mem_append]
    rcases List.mem_cons.mp hx with rfl | hx
    · rw [hsplice]
      exact .inl hr
    · exact .inr (ih hx hr)

theorem args_of_call (hf : Foldable m c h site (.call head args p)) (he : m.isEscape head = false) :
    ∀ x ∈ Host.row h.arguments args, Foldable m c x.1 .argument x.2.value := by
  intro x hx
  obtain ⟨-, -, -, hargs⟩ := hf.wellFormed
  obtain ⟨-, -, hcalled⟩ := any_isCallTo_call hf.not_called
  have hmem := Host.mem_of_mem_row hx
  obtain ⟨-, -, hvalue⟩ := wellFormed_arg hargs hmem
  refine ⟨hvalue, nofun, hcalled _ hmem, fun h' s as q hescape => hf.atomic h' s as q ?_⟩
  rw [replacements, he, hf.not_splice]
  have hsubset := replacements_subset_args hx (splice?_arg (hcalled _ hmem))
  exact List.mem_append_right _ (hsubset hescape)

/-- A head is no escape. -/
theorem head_not_escape (hf : Foldable m c h .head head) : head.isCallTo [m.escape] = false := by
  cases head with
  | call g as q =>
    rw [isCallTo_escape]
    cases he : m.isEscape g with
    | false => rfl
    | true =>
      have hmem : (h, .escape .head as q) ∈ replacements m h .head (.call g as q) := by
        rw [replacements, if_pos he]
        exact List.mem_cons_self
      exact absurd rfl (hf.atomic _ _ _ _ hmem).not_head
  | _ => rfl

/-- What stands for a head has the name of the head, if any. -/
theorem name?_head (hf : Foldable m c h .head head) {new : Node}
    (hnew : expandAt m h c .head head = .ok new) : new.name? = head.name? := by
  have hescape := hf.head_not_escape
  cases head with
  | call g as q =>
    rw [isCallTo_escape] at hescape
    rw [expandAt_call hescape hf.not_splice] at hnew
    obtain ⟨head', -, hnew⟩ := bind_eq_ok hnew
    obtain ⟨args', -, hnew⟩ := bind_eq_ok hnew
    cases hnew
    rfl
  | params items q => exact absurd (hf.not_params rfl) nofun
  | _ =>
    cases hnew
    rfl

end Foldable

/-- The first tree evaluates as the second one does at a place, in blocks and outside. -/
structure Folded (c : Context) (h : Host) (new old : Node) : Prop where
  settled_new : Settled c new
  settled_old : Settled c old
  evaluate_eq : new.evaluate h c = old.evaluate h c

theorem Folded.refl {n : Node} (hn : Settled c n) (h : Host) : Folded c h n n :=
  ⟨hn, hn, rfl⟩

/-- The first arguments evaluate as the second ones do, one by one. -/
structure FoldedArgs (c : Context) (hs : Nat → Host) (new old : List (Arg Node)) : Prop where
  settled_new : ∀ a ∈ new, Settled c a.value
  settled_old : ∀ a ∈ old, Settled c a.value
  same : SameArgs (fun h n => n.evaluate h c) hs old new

/-- The arguments evaluate alike, one by one. -/
theorem expandArgs_folded {args : List (Arg Node)}
    (ih : ∀ a ∈ args, ∀ h, Foldable m c h .argument a.value → ∀ new,
      expandAt m h c .argument a.value = .ok new → Folded c h new (a.value.unescape m)) :
    ∀ {hs}, (∀ x ∈ Host.row hs args, Foldable m c x.1 .argument x.2.value) →
      ∀ new, expandArgs m hs c args = .ok new → FoldedArgs c hs new (unescapeArgs m args) := by
  induction args with
  | nil =>
    intro hs _ new hnew
    cases hnew
    exact ⟨nofun, nofun, .nil hs⟩
  | cons a rest tail =>
    obtain ⟨iha, ihrest⟩ := List.forall_mem_cons.mp ih
    intro hs hfold new hnew
    rw [Host.row_cons] at hfold
    obtain ⟨ha, hrest⟩ := List.forall_mem_cons.mp hfold
    rw [expandArgs_cons, expandArg_one (Foldable.splice?_arg ha.not_called)] at hnew
    obtain ⟨first, hfirst, hnew⟩ := bind_eq_ok hnew
    obtain ⟨rest', hrest', hnew⟩ := bind_eq_ok hnew
    obtain ⟨value, hvalue, rfl⟩ := map_eq_ok_iff.mp hfirst
    cases hnew
    have hvalue := iha (hs 0) ha value hvalue
    have hrest := tail ihrest hrest rest' hrest'
    exact ⟨List.forall_mem_cons.mpr ⟨hvalue.settled_new, hrest.settled_new⟩,
      List.forall_mem_cons.mpr ⟨hvalue.settled_old, hrest.settled_old⟩,
      .cons rfl hvalue.evaluate_eq hrest.same⟩

/-- An escape stands for the constant that its operand evaluates to. -/
theorem unquote_folded {h : Host} {site : Site} {args : List (Arg Node)} {p : Position}
    {head new : Node} (he : m.isEscape head = true)
    (hf : Foldable m c h site (.call head args p)) (hnew : unquote m h c args p = .ok new) :
    Folded c h new ((Node.call head args p).unescape m) := by
  have hmem : (h, .escape site args p) ∈ replacements m h site (.call head args p) := by
    rw [replacements, if_pos he]
    exact List.mem_cons_self
  have hatomic := hf.atomic _ _ _ _ hmem
  obtain ⟨e, v, rfl, hv, hquote⟩ := unquote_eq_ok_iff.mp hnew
  obtain ⟨a, rfl⟩ := hatomic.value_atom v (operandValue_eq_ok_iff.mpr ⟨e, rfl, hv⟩)
  -- the operand has no escape inside, so that the tree without escapes is the operand
  have hself : e.unescape m = e :=
    unescape_eq_self e (hatomic.not_nested _ List.mem_cons_self)
  have hunescape : (Node.call head [⟨none, e⟩] p).unescape m = e := by
    rw [unescape, he]
    simp only [unescapeArgs, hself]
  -- an atom is quoted as a constant
  have hconstant : new = .constant a .nowhere := by
    unfold Value.quote Node.ofAtom at hquote
    split at hquote
    · split at hquote
      · cases hquote; rfl
      · cases hquote
    · cases hquote; rfl
  obtain ⟨-, -, hcalled⟩ := any_isCallTo_call hf.not_called
  have hsettled : Settled c e := settled_of_any (by simp [eagerNames]) (by simp [eagerNames]) e
    (hcalled _ List.mem_cons_self)
  rw [hunescape, hconstant]
  exact ⟨Settled.constant a .nowhere, hsettled, hv.symm⟩

/-- Early evaluation makes no difference to a tree, at any site and in any block. -/
theorem expandAt_folded (n : Node) : ∀ h site, Foldable m c h site n →
    ∀ new, expandAt m h c site n = .ok new → Folded c h new (n.unescape m) := by
  induction n using Node.ind with
  | constant a p =>
    intro h site _ new hnew
    cases hnew
    exact .refl (Settled.constant a p) h
  | symbol name p =>
    intro h site _ new hnew
    cases hnew
    exact .refl (Settled.symbol name p) h
  | missing =>
    intro h site _ new hnew
    cases hnew
    exact .refl Settled.missing h
  | params items p =>
    intro h site _ new hnew
    rw [expandAt] at hnew
    obtain ⟨items', -, hnew⟩ := bind_eq_ok hnew
    cases hnew
    -- parameter lists have no value, whatever their defaults are
    exact ⟨Settled.params items' p, Settled.params _ p, rfl⟩
  | call head args p ihHead ihArgs =>
    intro h site hf new hnew
    cases he : m.isEscape head with
    | true =>
      rw [expandAt_escape he] at hnew
      obtain ⟨n, hn, hcheck⟩ := bind_eq_ok hnew
      obtain ⟨rfl, -⟩ := Site.check_eq_ok_iff.mp hcheck
      exact unquote_folded he hf hn
    | false =>
      rw [expandAt_call he hf.not_splice] at hnew
      obtain ⟨head', hhead', hnew⟩ := bind_eq_ok hnew
      obtain ⟨args', hargs', hnew⟩ := bind_eq_ok hnew
      cases hnew
      obtain ⟨hname, -, -⟩ := any_isCallTo_call hf.not_called
      have hfhead := hf.head_of_call he
      have hhead := ihHead (h.under 0) .head hfhead head' hhead'
      have hargs := expandArgs_folded (fun a ha h => ihArgs a ha h .argument) (hf.args_of_call he)
        args' hargs'
      -- the names of heads decide how calls are evaluated, and stay as they are
      have hnewName : head'.name? = head.name? := hfhead.name?_head hhead'
      have holdName : (head.unescape m).name? = head.name? := name?_unescape hfhead.head_not_escape
      have hleft : head.name? ≠ some "<-" := hname _ (by simp [eagerNames])
      have hequals : head.name? ≠ some "=" := hname _ (by simp [eagerNames])
      have hquote : head.name? ≠ some "quote" := hname _ (by simp [eagerNames])
      have hnewRule := Rule.of_ne_assignment (hnewName ▸ hleft) (hnewName ▸ hequals) args'
      have holdRule := Rule.of_ne_assignment (holdName ▸ hleft) (holdName ▸ hequals)
        (unescapeArgs m args)
      rw [unescape_call he]
      refine ⟨Settled.call hhead.settled_new hargs.settled_new hnewRule p,
        Settled.call hhead.settled_old hargs.settled_old holdRule p, ?_⟩
      rw [evaluate_call hhead.settled_new hargs.settled_new hnewRule,
        evaluate_call hhead.settled_old hargs.settled_old holdRule]
      exact callValue_congr (hnewName.trans holdName.symm) hhead.evaluate_eq hargs.same
        (holdName ▸ hquote)

end Expansion

namespace Node

open Expansion (Replacement Atomic eagerNames replacements)

/-- Escaping is sound partial evaluation. Where a well-formed tree calls neither `quote` nor an
assignment nor the splice, and its escapes are no heads, hold no markers and stand for atoms, its
expansion has the same value, or fails with the same error, as the tree with the operands of its
escapes in their places. -/
theorem evaluate_expand (n : Node) (h : Host) (c : Context) (m : Markers) (hn : n.WellFormed)
    (hcalled : n.any (isCallTo (eagerNames m)) = false)
    (hescapes : ∀ h' site args p, (h', Replacement.escape site args p) ∈ replacements m h .free n →
      Atomic m c h' site args p)
    {new : Node} (hnew : n.expand h c m = .ok new) :
    new.evaluate h c = (n.unescape m).evaluate h c :=
  (Expansion.expandAt_folded n h .free ⟨hn, nofun, hcalled, hescapes⟩ new hnew).evaluate_eq

/-- The block `{ .(a) + (if (FALSE) .(nan()) else b) }`, where `nan` is a function of the caller that
makes a new NaN. -/
theorem evaluate_expand_block :
    let call (name : String) (args : List Node) : Node :=
      .call (.symbol name .nowhere) (args.map (⟨none, ·⟩)) .nowhere
    let symbol (name : String) : Node := .symbol name .nowhere
    let tree (x y : Node) : Node :=
      call "\x7b" [call "+" [x, call "if" [.constant (.logical false) .nowhere, y, symbol "b"]]]
    let n := tree (call "." [symbol "a"]) (call "." [call "nan" []])
    let new := tree (.constant (.integer 2) .nowhere)
      (.constant (.nan (.made [1, 2, 2] 0)) .nowhere)
    let f : Foreign := ⟨0, "function", "<function nan>"⟩
    let c := Context.base [⟨"a", .integer 2⟩, ⟨"b", .integer 3⟩, ⟨"nan", .function (.foreign f)⟩]
    let h : Host := { Host.plain 100 with call := fun _ object _ _ => .ok (.atom (.nan (object 0))) }
    n.WellFormed ∧ n.any (isCallTo (eagerNames {})) = false ∧
      (∀ h' site args p, (h', Replacement.escape site args p) ∈ replacements {} h .free n →
        Atomic {} c h' site args p) ∧
      n.expand h c {} = .ok new ∧
      new.evaluate h c = (tree (symbol "a") (call "nan" [])).evaluate h c := by
  intro call symbol tree n new f c h
  have hn : n.WellFormed := by
    simp [n, tree, call, symbol, WellFormed, WellFormedArgs, isMissing, isParams, Atom.isLiteral]
  have hcalled : n.any (isCallTo (eagerNames {})) = false := by decide
  have hescapes : ∀ h' site args p, (h', Replacement.escape site args p) ∈ replacements {} h .free n →
      Atomic {} c h' site args p := by
    have hlist : replacements {} h .free n =
      [(h.within [1, 1], .escape .argument [⟨none, symbol "a"⟩] .nowhere),
        (h.within [1, 2, 2], .escape .argument [⟨none, call "nan" []⟩] .nowhere)] := rfl
    intro h' site args p hmem
    rw [hlist, List.mem_cons, List.mem_singleton] at hmem
    rcases hmem with hmem | hmem
    · cases hmem
      refine ⟨nofun, by simp [symbol, hasMarkers, any, isCallTo], ?_⟩
      rintro v ⟨⟩
      exact ⟨_, rfl⟩
    · cases hmem
      refine ⟨nofun, by simp [call, hasMarkers, any, anyArgs, isCallTo, Markers.names], ?_⟩
      rintro v ⟨⟩
      exact ⟨_, rfl⟩
  have hnew : n.expand h c {} = .ok new := rfl
  exact ⟨hn, hcalled, hescapes, hnew, evaluate_expand n h c {} hn hcalled hescapes hnew⟩

end Node

end RCode
