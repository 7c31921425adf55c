import RCode.Proofs.Evaluation.Faults
import RCode.Proofs.Expansion.Markers

/-!
# Errors of evaluation and expansion

In contexts of well-formed values a well-formed tree is evaluated to a well-formed value and
expanded to a well-formed tree, or there is an error. Evaluation and expansion have names of their
own for their errors, but for three faults, which are found here (`Node.evaluate_expand_ends`): an
assignment to the empty text, a splice that names an argument by the empty text, and a message about
a value or a position that is too long to be written.
-/

set_option autoImplicit false

namespace RCode

/-- Evaluation or expansion has a name of its own for the error. -/
def ExpansionError.isOwn : ExpansionError → Bool
  | .malformed _ _ => true
  | .unwritable => false
  | .evaluation e => e.isOwn
  | .node e => e.isUnsupported

namespace Expansion

variable {m : Markers} {h : Host} {c : Context}

/-! ## Well-formed expansions -/

/-- In related rows every member of the second one has a partner in the first one. -/
theorem exists_of_mem_right {α β : Type} {R : α → β → Prop} {xs : List α} {ys : List β}
    (h : List.Forall₂ R xs ys) {y : β} (hy : y ∈ ys) : ∃ x ∈ xs, R x y := by
  induction h with
  | nil => cases hy
  | @cons x y' xs ys hR _ ih =>
    rcases List.mem_cons.mp hy with rfl | hy
    · exact ⟨x, List.mem_cons_self, hR⟩
    · obtain ⟨x', hx', hR'⟩ := ih hy
      exact ⟨x', List.mem_cons_of_mem _ hx', hR'⟩

/-- The items that a well-formed value inserts are well formed. -/
theorem wellFormed_spliceItems {v : Value} (h : v.WellFormed) :
    ∀ item ∈ spliceItems v, item.2.WellFormed := by
  cases h with
  | atom a =>
    cases a with
    | null => exact List.forall_mem_nil _
    | _ => exact List.forall_mem_singleton.mpr (.atom _)
  | list h => exact List.forall_mem_map.mpr h
  | dict h => exact List.forall_mem_map.mpr h
  | function h => exact List.forall_mem_singleton.mpr (.function h)
  | node h => exact List.forall_mem_singleton.mpr (.node h)

theorem wellFormed_unquote (hc : c.WellFormed) {args : List (Arg Node)}
    (hargs : Node.WellFormedArgs args) {p : Position} {new : Node}
    (hnew : unquote m h c args p = .ok new) : new.WellFormed := by
  obtain ⟨e, v, rfl, hv, hquote⟩ := unquote_eq_ok_iff.mp hnew
  exact (Value.quote_ends ((Node.evaluate_ends h hargs.2.2.1 hc).yields v hv)).yields new hquote

theorem wellFormed_splicedArgs (hc : c.WellFormed) {splice : String} {args new : List (Arg Node)}
    (hargs : Node.WellFormedArgs args) {p : Position}
    (hnew : splicedArgs h c splice args p = .ok new) : Node.WellFormedArgs new := by
  obtain ⟨e, v, rfl, hv, hspliced⟩ := splicedArgs_eq_ok_iff.mp hnew
  have hitems := wellFormed_spliceItems ((Node.evaluate_ends h hargs.2.2.1 hc).yields v hv)
  refine Node.wellFormedArgs_of_forall fun a ha => ?_
  obtain ⟨item, hitem, hinserted⟩ := exists_of_mem_right hspliced ha
  exact ⟨hinserted.name_eq ▸ hinserted.name_ne_empty, hinserted.not_missing,
    (Value.quote_ends (hitems item hitem)).yields a.value hinserted.quote_eq⟩

/-- At its site the second tree is well formed if the first one is. -/
def Preserved (_ : Host) (site : Site) (n new : Node) : Prop :=
  n.WellFormed → site.Accepts n → new.WellFormed ∧ site.Accepts new

theorem wellFormed_givesArgs (hc : c.WellFormed) {hs : Nat → Host} {args args' : List (Arg Node)}
    (hgives : GivesArgs m c Preserved hs args args') :
    Node.WellFormedArgs args → Node.WellFormedArgs args' := by
  induction hgives with
  | nil => exact fun _ => trivial
  | splice _ hnew _ ih =>
    rintro ⟨-, -, hvalue, hrest⟩
    exact Node.wellFormedArgs_append.mpr
      ⟨wellFormed_splicedArgs hc hvalue.2.2.2 hnew, ih hrest⟩
  | one _ hvalue _ ih =>
    rintro ⟨hname, hmissing, hold, hrest⟩
    obtain ⟨hnew, hmissing'⟩ := hvalue hold hmissing
    exact ⟨hname, hmissing', hnew, ih hrest⟩

/-- The names of parameters stay. -/
theorem wellFormed_givesParams {hs : Nat → Host} {items items' : List (Param Node)}
    (hgives : GivesParams Preserved hs items items') :
    Node.WellFormedParams items →
      items'.map Param.name = items.map Param.name ∧ Node.WellFormedParams items' := by
  induction hgives with
  | nil => exact fun _ => ⟨rfl, trivial⟩
  | cons hdefault _ ih =>
    rintro ⟨hname, hold, hrest⟩
    obtain ⟨hnames, hrest'⟩ := ih hrest
    refine ⟨?_, hname, (hdefault hold trivial).1, hrest'⟩
    rw [List.map_cons, List.map_cons, hnames]

/-- A well-formed tree that is expanded is well formed and still fits its site. -/
theorem wellFormed_expandAt (hc : c.WellFormed) {site : Site} {n new : Node}
    (hnew : expandAt m h c site n = .ok new) : Preserved h site n new := by
  refine expandAt_induct ?constant ?symbol ?missing ?params ?escape ?call hnew
  case constant => exact fun _ _ _ _ => And.intro
  case symbol => exact fun _ _ _ _ => And.intro
  case missing => exact fun _ _ => And.intro
  case params =>
    rintro h site items items' p hitems ⟨hnames, hparams⟩ haccepts
    obtain ⟨heq, hparams'⟩ := wellFormed_givesParams hitems hparams
    refine ⟨⟨heq ▸ hnames, hparams'⟩, ?_⟩
    cases site with
    | free => exact trivial
    | head => exact haccepts
    | argument => exact rfl
  case escape =>
    rintro h site head args p new - hnew haccepts ⟨-, -, -, hargs⟩ -
    exact ⟨wellFormed_unquote hc hargs hnew, haccepts⟩
  case call =>
    rintro h site head head' args args' p - - hhead hgives ⟨hmissing, hparams, hwf, hargs⟩ -
    -- at its site the new head is neither missing nor a parameter list
    obtain ⟨hhead', hmissing', hparams'⟩ := hhead hwf ⟨hmissing, hparams⟩
    refine ⟨⟨hmissing', hparams', hhead', wellFormed_givesArgs hc hgives hargs⟩, ?_⟩
    cases site with
    | free => exact trivial
    | head => exact ⟨rfl, rfl⟩
    | argument => exact rfl

/-! ## Faulty markers -/

namespace Replacement

/-- The arguments of a marker, where they count. -/
def args : Replacement → List (Arg Node)
  | .escape _ args _ => args
  | .splice _ args _ => args
  | .misplaced _ => []

/-- The position of a marker, which the messages about it show. -/
def position : Replacement → Position
  | .escape _ _ p => p
  | .splice _ _ p => p
  | .misplaced p => p

/-- A marker that cannot be replaced has an error without a name, for one of these reasons. -/
inductive Faulty (m : Markers) (c : Context) (h : Host) : Replacement → ExpansionError → Prop where
  /-- The evaluation of its operand comes to a faulty call. -/
  | operand {r : Replacement} {operand : Node} {e : EvalError} : r.args = [⟨none, operand⟩] →
      Evaluation.Fault h c none operand e → Faulty m c h r (.evaluation e)
  /-- The value of a splice has an item with the empty name. -/
  | emptyName {operand : Node} {p : Position} {v item : Value} : operand.evaluate h c = .ok v →
      (some "", item) ∈ spliceItems v →
        Faulty m c h (.splice none [⟨none, operand⟩] p) (.node .emptyArgumentName)
  /-- The value of its operand is too long for the message that it has no tree. -/
  | value {r : Replacement} {operand : Node} {v : Value} : r.args = [⟨none, operand⟩] →
      operand.evaluate h c = .ok v → v.isWritable = false → Faulty m c h r (.node .unwritable)
  /-- The position is too long for the message that the marker is malformed. -/
  | position {r : Replacement} : r.position.line.isSet = true → r.position.text? = none →
      Faulty m c h r .unwritable

/-- The errors that a marker may have. -/
def Expected (m : Markers) (c : Context) (h : Host) (r : Replacement) (e : ExpansionError) :
    Prop :=
  e.isOwn = true ∨ r.Faulty m c h e

/-- A faulty marker has an error that has no name. -/
theorem Faulty.isOwn_eq_false {r : Replacement} {e : ExpansionError} (hfaulty : r.Faulty m c h e) :
    e.isOwn = false := by
  cases hfaulty with
  | operand _ hfault =>
    obtain ⟨_, _, _, -, hfaulty⟩ := hfault
    cases hfaulty <;> rfl
  | emptyName | value | position => rfl

/-- A malformed marker may have any position. -/
theorem expected_ofMarker (r : Replacement) (problem : MarkerProblem) :
    r.Expected m c h (.ofMarker problem r.position) := by
  unfold ExpansionError.ofMarker
  split
  · next hlong => exact .inr (.position hlong.1 hlong.2)
  · exact .inl rfl

end Replacement

/-- Every marker of a well-formed tree has well-formed arguments. -/
theorem wellFormed_replacementsArgs {args : List (Arg Node)} (hargs : Node.WellFormedArgs args)
    (ih : ∀ a ∈ args, a.value.WellFormed → ∀ h, ∀ x ∈ replacements m h .argument a.value,
      Node.WellFormedArgs x.2.args) :
    ∀ hs, ∀ x ∈ replacementsArgs m hs args, Node.WellFormedArgs x.2.args := by
  induction args with
  | nil => exact fun _ => List.forall_mem_nil _
  | cons a rest tail =>
    obtain ⟨iha, ihrest⟩ := List.forall_mem_cons.mp ih
    obtain ⟨-, -, hvalue, hrest⟩ := hargs
    intro hs
    refine List.forall_mem_append.mpr ⟨?_, tail hrest ihrest _⟩
    cases hsplice : splice? m a.value with
    | some call =>
      obtain ⟨splice, args, q⟩ := call
      obtain ⟨-, head, -, heq⟩ := splice?_eq_some hsplice
      rw [heq] at hvalue
      exact List.forall_mem_singleton.mpr hvalue.2.2.2
    | none => exact iha hvalue (hs 0)

theorem wellFormed_replacementsParams {items : List (Param Node)}
    (hitems : Node.WellFormedParams items)
    (ih : ∀ q ∈ items, q.default.WellFormed → ∀ h, ∀ x ∈ replacements m h .free q.default,
      Node.WellFormedArgs x.2.args) :
    ∀ hs, ∀ x ∈ replacementsParams m hs items, Node.WellFormedArgs x.2.args := by
  induction items with
  | nil => exact fun _ => List.forall_mem_nil _
  | cons q rest tail =>
    obtain ⟨ihq, ihrest⟩ := List.forall_mem_cons.mp ih
    obtain ⟨-, hdefault, hrest⟩ := hitems
    exact fun hs => List.forall_mem_append.mpr ⟨ihq hdefault (hs 0), tail hrest ihrest _⟩

theorem wellFormed_replacements (n : Node) : n.WellFormed → ∀ h site,
    ∀ x ∈ replacements m h site n, Node.WellFormedArgs x.2.args := by
  induction n using Node.ind with
  | constant a p => exact fun _ _ _ => List.forall_mem_nil _
  | symbol name p => exact fun _ _ _ => List.forall_mem_nil _
  | missing => exact fun _ _ _ => List.forall_mem_nil _
  | params items p ih =>
    rintro ⟨-, hitems⟩ h site
    exact wellFormed_replacementsParams hitems (fun q hq hwf h => ih q hq hwf h .free) h.arguments
  | call head args p ihHead ihArgs =>
    rintro ⟨-, -, hhead, hargs⟩ h site
    rw [replacements]
    cases m.isEscape head with
    | true => exact List.forall_mem_singleton.mpr hargs
    | false =>
      cases m.isSplice head with
      | true => exact List.forall_mem_singleton.mpr trivial
      | false =>
        refine List.forall_mem_append.mpr ⟨ihHead hhead _ .head, ?_⟩
        exact wellFormed_replacementsArgs hargs (fun a ha hwf h => ihArgs a ha hwf h .argument)
          h.arguments

/-- The operand of a marker has a well-formed value, or an error that is expected of the marker. -/
theorem operandValue_ends (hc : c.WellFormed) (h : Host) {r : Replacement}
    (hr : Node.WellFormedArgs r.args) (marker : String) :
    Ends (r.Expected m c h)
      (fun v => v.WellFormed ∧ ∃ operand, r.args = [⟨none, operand⟩] ∧
        operand.evaluate h c = .ok v)
      (operandValue h c marker r.position r.args) := by
  unfold operandValue
  rcases hargs : r.args with _ | ⟨⟨_ | name, operand⟩, _ | ⟨b, rest⟩⟩
  case cons.none.nil =>
    rw [Expansion.operand, ok_bind]
    rw [hargs] at hr
    have hoperand := Node.evaluate_ends h hr.2.2.1 hc
    cases hv : operand.evaluate h c with
    | ok v => exact .ok ⟨hoperand.yields v hv, operand, rfl, hv⟩
    | error e => exact .error ((hoperand.fails e hv).imp_right (.operand hargs))
  all_goals exact .error (r.expected_ofMarker _)

/-- A list has a text if its items have. -/
theorem areWritable_eq (items : List Value) :
    Value.areWritable items = items.all (·.isWritable) := by
  induction items with
  | nil => rfl
  | cons v rest ih => rw [Value.areWritable, List.all_cons, ih]

theorem entriesAreWritable_eq (entries : List (Entry Value)) :
    Value.entriesAreWritable entries = entries.all (·.value.isWritable) := by
  induction entries with
  | nil => rfl
  | cons e rest ih => rw [Value.entriesAreWritable, List.all_cons, ih]

/-- A value with an item that is too long is too long itself. -/
theorem isWritable_eq_false_of_item {v : Value} {item : Option String × Value}
    (hitem : item ∈ spliceItems v) (h : item.2.isWritable = false) : v.isWritable = false := by
  have hself : item ∈ [(none, v)] → v.isWritable = false := by
    intro hitem
    obtain rfl := List.mem_singleton.mp hitem
    exact h
  cases v with
  | list items =>
    obtain ⟨v, hv, rfl⟩ := List.mem_map.mp hitem
    rw [Value.isWritable, areWritable_eq]
    exact List.all_eq_false.mpr ⟨v, hv, Bool.eq_false_iff.mp h⟩
  | dict entries =>
    obtain ⟨e, he, rfl⟩ := List.mem_map.mp hitem
    rw [Value.isWritable, entriesAreWritable_eq]
    exact List.all_eq_false.mpr ⟨e, he, Bool.eq_false_iff.mp h⟩
  | atom a =>
    cases a with
    | null => cases hitem
    | _ => exact hself hitem
  | _ => exact hself hitem

theorem check_failsOnly (site : Site) (p : Position) (n : Node) :
    FailsOnly (fun e => ∃ problem, e = .ofMarker problem p) (site.check m p n) := by
  cases site with
  | free => exact .ok n
  | head =>
    rw [Site.check, checkHead]
    split
    · exact .error ⟨_, rfl⟩
    · exact .ok n
  | argument =>
    rw [Site.check, checkArgument]
    split
    · exact .error ⟨_, rfl⟩
    · exact .ok n

/-- Why a value cannot be inserted as an argument: it has no tree, the tree is the missing argument,
or the name is empty. -/
theorem insertedArg_failsOnly {v : Value} (hv : v.WellFormed) (p : Position)
    (name : Option String) :
    FailsOnly (fun e => e.isOwn = true ∨ (∃ problem, e = .ofMarker problem p) ∨
      (e = .node .emptyArgumentName ∧ name = some "") ∨
        e = .node .unwritable ∧ v.isWritable = false) (insertedArg p name v) := by
  unfold insertedArg checkArgument Arg.build
  -- the value is quoted first, then it is checked, and the name comes last
  cases hquote : v.quote with
  | error e =>
    rcases (Value.quote_ends hv).fails e hquote with he | ⟨rfl, hwritable⟩
    · exact .error (.inl he)
    · exact .error (.inr (.inr (.inr ⟨rfl, hwritable⟩)))
  | ok n =>
    cases hmissing : n.isMissing with
    | true =>
      simp only [Except.mapError, ok_bind, hmissing, if_true, error_bind]
      exact .error (.inr (.inl ⟨_, rfl⟩))
    | false =>
      simp only [Except.mapError, ok_bind, hmissing, Bool.false_eq_true, if_false]
      by_cases hname : name = some ""
      · rw [if_pos hname]
        exact .error (.inr (.inr (.inl ⟨rfl, hname⟩)))
      · rw [if_neg hname]
        exact .ok _

namespace Replacement

theorem escape_failsOnly (hc : c.WellFormed) (h : Host) (site : Site) {args : List (Arg Node)}
    (hargs : Node.WellFormedArgs args) (p : Position) :
    FailsOnly (Expected m c h (.escape site args p)) (unquote m h c args p >>= site.check m p) := by
  have hr : Node.WellFormedArgs (escape site args p).args := hargs
  obtain ⟨hfails, hvalue⟩ := operandValue_ends (m := m) hc h hr m.escape
  rw [unquote, bind_assoc]
  refine hfails.bind fun v hv => ?_
  obtain ⟨hwf, operand, hoperand, heval⟩ := hvalue v hv
  cases hquote : v.quote with
  | error e =>
    refine .error (((Value.quote_ends hwf).fails e hquote).imp_right ?_)
    rintro ⟨rfl, hwritable⟩
    exact .value hoperand heval hwritable
  | ok n =>
    refine (check_failsOnly site p n).mono fun e he => ?_
    obtain ⟨problem, rfl⟩ := he
    exact expected_ofMarker (.escape site args p) problem

theorem splice_failsOnly (hc : c.WellFormed) (h : Host) {args : List (Arg Node)}
    (hargs : Node.WellFormedArgs args) (p : Position) {e : ExpansionError}
    (hfailure : failure? m c h (.splice none args p) = some e) :
    Expected m c h (.splice none args p) e := by
  have hr : Node.WellFormedArgs (splice none args p).args := hargs
  have hends := operandValue_ends (m := m) hc h hr (m.splice.getD "")
  rw [failure?] at hfailure
  cases hv : operandValue h c (m.splice.getD "") p args with
  | error e' =>
    rw [hv] at hfailure
    cases hfailure
    exact hends.fails e hv
  | ok v =>
    obtain ⟨hwf, operand, hoperand, heval⟩ := hends.yields v hv
    cases hoperand
    rw [hv] at hfailure
    obtain ⟨item, hitem, hfailure⟩ := List.exists_of_findSome?_eq_some hfailure
    have hitemWf := wellFormed_spliceItems hwf item hitem
    rcases insertedArg_failsOnly hitemWf p item.1 e (failure?_eq_some.mp hfailure) with
      he | ⟨problem, rfl⟩ | ⟨rfl, hname⟩ | ⟨rfl, hwritable⟩
    · exact .inl he
    · exact expected_ofMarker (.splice none _ p) problem
    · have hempty : (some "", item.2) ∈ spliceItems v := hname ▸ hitem
      exact .inr (.emptyName heval hempty)
    · exact .inr (.value rfl heval (isWritable_eq_false_of_item hitem hwritable))

/-- A marker that cannot be replaced has an error with a name, or it is faulty. -/
theorem expected_of_failure? (hc : c.WellFormed) (h : Host) {r : Replacement}
    (hr : Node.WellFormedArgs r.args) {e : ExpansionError}
    (hfailure : r.failure? m c h = some e) : r.Expected m c h e := by
  cases r with
  | misplaced p =>
    cases hfailure
    exact expected_ofMarker (.misplaced p) _
  | escape site args p => exact escape_failsOnly hc h site hr p e (failure?_eq_some.mp hfailure)
  | splice name args p =>
    cases name with
    | some name =>
      cases hfailure
      exact expected_ofMarker (.splice (some name) args p) _
    | none => exact splice_failsOnly hc h hr p hfailure

end Replacement

/-- An expansion gives a well-formed tree, or it fails with an error of its first marker that cannot
be replaced. -/
theorem expand_ends (h : Host) {n : Node} (hn : n.WellFormed) (hc : c.WellFormed) :
    Ends (fun e => ∃ x ∈ replacements m h .free n,
        x.2.failure? m c x.1 = some e ∧ x.2.Expected m c x.1 e)
      Node.WellFormed (n.expand h c m) := by
  refine ⟨fun e he => ?_, fun new hnew => (wellFormed_expandAt hc hnew hn trivial).1⟩
  have hfirst := failure?_expandAt (m := m) (c := c) n h .free
  rw [← Node.expand, failure?_eq_some.mpr he] at hfirst
  obtain ⟨x, hx, hfailure⟩ := List.exists_of_findSome?_eq_some hfirst.symm
  have hargs := wellFormed_replacements n hn h .free x hx
  exact ⟨x, hx, hfailure, x.2.expected_of_failure? hc x.1 hargs hfailure⟩

end Expansion

namespace Node

open Expansion (Replacement replacements)

/-- A well-formed tree in a context of well-formed values is evaluated to a well-formed value, or it
fails: with an error that evaluation has a name for, or, exactly if its evaluation comes to a faulty
call, with the error of that call, which has none. The tree is expanded to a well-formed tree, or
one of its outermost markers cannot be replaced and gives its error, which has a name unless the
marker is faulty. -/
theorem evaluate_expand_ends {n : Node} {c : Context} (h : Host) (hn : n.WellFormed)
    (hc : c.WellFormed) (m : Markers) :
    ((∃ v, n.evaluate h c = .ok v ∧ v.WellFormed) ∨
        ∃ e, n.evaluate h c = .error e ∧ (e.isOwn = true ∨ Evaluation.Fault h c none n e)) ∧
      (∀ e, Evaluation.Fault h c none n e → n.evaluate h c = .error e ∧ e.isOwn = false) ∧
      ((∃ new, n.expand h c m = .ok new ∧ new.WellFormed) ∨
        ∃ e, n.expand h c m = .error e ∧
          ∃ x ∈ replacements m h .free n, x.2.failure? m c x.1 = some e ∧
            (e.isOwn = true ∨ x.2.Faulty m c x.1 e)) ∧
      ∀ (h' : Host) (r : Replacement) (e : ExpansionError),
        r.Faulty m c h' e → e.isOwn = false := by
  refine ⟨(evaluate_ends h hn hc).cases, fun e hfault => ⟨?_, ?_⟩,
    (Expansion.expand_ends h hn hc).cases, fun h' r e => Replacement.Faulty.isOwn_eq_false⟩
  · rw [evaluate, Evaluation.eval_of_fault hfault]
    rfl
  · obtain ⟨h', locals, k, -, hfaulty⟩ := hfault
    cases hfaulty <;> rfl

/-- The block `{ "" <- .(x) }`, which can be expanded and has no value. -/
theorem evaluate_expand_ends_block :
    let block (value : Node) : Node := .call (.symbol "\x7b" .nowhere)
      [⟨none, .call (.symbol "<-" .nowhere)
        [⟨none, .constant (.text "") .nowhere⟩, ⟨none, value⟩] .nowhere⟩] .nowhere
    let n := block (.call (.symbol "." .nowhere) [⟨none, .symbol "x" .nowhere⟩] .nowhere)
    let new := block (.constant (.integer 1) .nowhere)
    let c := Context.base [⟨"x", .integer 1⟩]
    let h := Host.plain 100
    n.WellFormed ∧ c.WellFormed ∧ Evaluation.Fault h c none n .emptyName ∧
      n.evaluate h c = .error .emptyName ∧ n.expand h c = .ok new ∧ new.WellFormed := by
  intro block n new c h
  have hn : n.WellFormed := by
    simp [n, block, WellFormed, WellFormedArgs, isMissing, isParams, Atom.isLiteral]
  have hc : c.WellFormed :=
    Context.wellFormed_base (List.forall_mem_singleton.mpr (.atom (.integer 1)))
  have hfault : Evaluation.Fault h c none n .emptyName :=
    ⟨_, _, _, .part (.block rfl .first) .here, .emptyName rfl⟩
  obtain ⟨-, hfaults, hexpand, -⟩ := evaluate_expand_ends h hn hc {}
  have hnew : n.expand h c = .ok new := rfl
  refine ⟨hn, hc, hfault, (hfaults _ hfault).1, hnew, ?_⟩
  rcases hexpand with ⟨new', heq, hwf⟩ | ⟨e, heq, -⟩
  · cases hnew.symm.trans heq
    exact hwf
  · cases hnew.symm.trans heq

/-- The block `{ "" <- 1 }`, and the call `f(..(x))` where `x` has an item with the empty name: a
symbol and an argument that cannot be built give errors that have no names. -/
theorem evaluate_expand_unnamed :
    let block : Node := .call (.symbol "\x7b" .nowhere)
      [⟨none, .call (.symbol "<-" .nowhere) [⟨none, .constant (.text "") .nowhere⟩,
        ⟨none, .constant (.integer 1) .nowhere⟩] .nowhere⟩] .nowhere
    let call : Node := .call (.symbol "f" .nowhere)
      [⟨none, .call (.symbol ".." .nowhere) [⟨none, .symbol "x" .nowhere⟩] .nowhere⟩] .nowhere
    let c := Context.base [⟨"x", .dict [⟨"", .integer 1⟩]⟩]
    let h := Host.plain 100
    (block.WellFormed ∧ block.evaluate h c = .error .emptyName ∧
        EvalError.isOwn .emptyName = false) ∧
      (call.WellFormed ∧ call.expand h c = .error (.node .emptyArgumentName) ∧
        ExpansionError.isOwn (.node .emptyArgumentName) = false) ∧
      c.WellFormed := by
  intro block call c h
  have hblock : block.WellFormed := by
    simp [block, WellFormed, WellFormedArgs, isMissing, isParams, Atom.isLiteral, Atom.integerLimit]
  have hcall : call.WellFormed := by
    simp [call, WellFormed, WellFormedArgs, isMissing, isParams]
  have hc : c.WellFormed := by
    refine Context.wellFormed_base (List.forall_mem_singleton.mpr (.dict ?_))
    exact List.forall_mem_singleton.mpr (.atom (.integer 1))
  exact ⟨⟨hblock, rfl, rfl⟩, ⟨hcall, rfl, rfl⟩, hc⟩

end Node

end RCode
