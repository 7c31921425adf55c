import RCode.Proofs.Expansion.Rules
import RCode.Proofs.Node.Erasure

/-!
# Expansion as substitution

`Substituted` says what the expansion of a tree is without saying how it is found. Outermost escapes
are replaced by the trees of the values of their operands, each of which is evaluated in the one
context at the place of its escape, and splices among arguments by the arguments that their values
stand for (`Spliced`). Every other node keeps its kind, its names and its position. A well-formed
tree is expanded exactly to the trees that it is related to (`expandAt_eq_ok_iff`).
-/

set_option autoImplicit false

namespace RCode

namespace Expansion

/-! ## The relation -/

/-- The trees that a marker may stand for at a site. -/
def Site.Accepts : Site → Node → Prop
  | .free, _ => True
  | .head, n => n.isMissing = false ∧ n.isParams = false
  | .argument, n => n.isMissing = false

/-- The argument that stands for a value under a name. -/
structure Inserted (name : Option String) (v : Value) (a : Arg Node) : Prop where
  name_eq : a.name = name
  name_ne_empty : name ≠ some ""
  quote_eq : v.quote = .ok a.value
  not_missing : a.value.isMissing = false

/-- The arguments that the value of a splice stands for, one for each of its items. -/
def Spliced (v : Value) (new : List (Arg Node)) : Prop :=
  List.Forall₂ (fun item a => Inserted item.1 item.2 a) (spliceItems v) new

mutual

/-- The second tree is the first one with its markers replaced, for its site. -/
inductive Substituted (m : Markers) (c : Context) : Host → Site → Node → Node → Prop where
  | constant {h : Host} {site : Site} (a : Atom) (p : Position) :
      Substituted m c h site (.constant a p) (.constant a p)
  | symbol {h : Host} {site : Site} (name : String) (p : Position) :
      Substituted m c h site (.symbol name p) (.symbol name p)
  | missing {h : Host} {site : Site} : Substituted m c h site .missing .missing
  | escape {h : Host} {site : Site} {head e new : Node} {v : Value} {p : Position} :
      m.isEscape head = true → e.evaluate h c = .ok v → v.quote = .ok new → site.Accepts new →
        Substituted m c h site (.call head [⟨none, e⟩] p) new
  | call {h : Host} {site : Site} {head head' : Node} {args args' : List (Arg Node)}
      {p : Position} : m.isEscape head = false → m.isSplice head = false →
        Substituted m c (h.under 0) .head head head' →
          SubstitutedArgs m c h.arguments args args' →
            Substituted m c h site (.call head args p) (.call head' args' p)
  | params {h : Host} {site : Site} {items items' : List (Param Node)} {p : Position} :
      SubstitutedParams m c h.arguments items items' →
        Substituted m c h site (.params items p) (.params items' p)

/-- The second row of arguments is the first one with its markers replaced. -/
inductive SubstitutedArgs (m : Markers) (c : Context) :
    (Nat → Host) → List (Arg Node) → List (Arg Node) → Prop where
  | nil {hs : Nat → Host} : SubstitutedArgs m c hs [] []
  | splice {hs : Nat → Host} {head e : Node} {v : Value} {p : Position}
      {rest new rest' : List (Arg Node)} :
      m.isSplice head = true → e.evaluate (hs 0) c = .ok v → Spliced v new →
        SubstitutedArgs m c (fun i => hs (i + 1)) rest rest' →
          SubstitutedArgs m c hs (⟨none, .call head [⟨none, e⟩] p⟩ :: rest) (new ++ rest')
  | one {hs : Nat → Host} {name : Option String} {value value' : Node}
      {rest rest' : List (Arg Node)} :
      Substituted m c (hs 0) .argument value value' →
        SubstitutedArgs m c (fun i => hs (i + 1)) rest rest' →
          SubstitutedArgs m c hs (⟨name, value⟩ :: rest) (⟨name, value'⟩ :: rest')

/-- The second parameter list is the first one with the markers in its defaults replaced. -/
inductive SubstitutedParams (m : Markers) (c : Context) :
    (Nat → Host) → List (Param Node) → List (Param Node) → Prop where
  | nil {hs : Nat → Host} : SubstitutedParams m c hs [] []
  | cons {hs : Nat → Host} {name : String} {default default' : Node}
      {rest rest' : List (Param Node)} :
      Substituted m c (hs 0) .free default default' →
        SubstitutedParams m c (fun i => hs (i + 1)) rest rest' →
          SubstitutedParams m c hs (⟨name, default⟩ :: rest) (⟨name, default'⟩ :: rest')

end

/-! ## Markers -/

variable {m : Markers} {c : Context}

theorem checkArgument_eq_ok_iff {p : Position} {n r : Node} :
    checkArgument p n = .ok r ↔ n = r ∧ n.isMissing = false := by
  unfold checkArgument
  by_cases h : n.isMissing = true
  · simp [h]
  · simp [h]

theorem Site.check_eq_ok_iff {p : Position} {site : Site} {n r : Node} :
    site.check m p n = .ok r ↔ n = r ∧ site.Accepts n := by
  cases site with
  | free => simp [Site.check, Site.Accepts]
  | argument => exact checkArgument_eq_ok_iff
  | head =>
    unfold Site.check checkHead Site.Accepts
    by_cases h : (n.isMissing || n.isParams) = true
    · have : ¬(n.isMissing = false ∧ n.isParams = false) := by
        rwa [← Bool.or_eq_false_iff, Bool.not_eq_false]
      simp [h, this]
    · have : n.isMissing = false ∧ n.isParams = false := by
        rwa [← Bool.or_eq_false_iff, ← Bool.not_eq_true]
      simp [this]

/-- A marker has one operand without a name, and takes its value. -/
theorem operandValue_eq_ok_iff {h : Host} {marker : String} {p : Position}
    {args : List (Arg Node)} {v : Value} :
    operandValue h c marker p args = .ok v ↔
      ∃ e, args = [⟨none, e⟩] ∧ e.evaluate h c = .ok v := by
  have hoperand : ∀ e, operand marker p args = .ok e ↔ args = [⟨none, e⟩] := by
    intro e
    rcases args with _ | ⟨⟨_ | name, value⟩, _ | ⟨b, rest⟩⟩ <;> simp [operand]
  unfold operandValue
  simp only [bind_eq_ok_iff, hoperand, mapError_eq_ok_iff]

theorem unquote_eq_ok_iff {h : Host} {args : List (Arg Node)} {p : Position} {n : Node} :
    unquote m h c args p = .ok n ↔
      ∃ e v, args = [⟨none, e⟩] ∧ e.evaluate h c = .ok v ∧ v.quote = .ok n := by
  unfold unquote
  simp only [bind_eq_ok_iff, operandValue_eq_ok_iff, mapError_eq_ok_iff]
  constructor
  · rintro ⟨v, ⟨e, hargs, hv⟩, hn⟩
    exact ⟨e, v, hargs, hv, hn⟩
  · rintro ⟨e, v, hargs, hv, hn⟩
    exact ⟨v, ⟨e, hargs, hv⟩, hn⟩

theorem insertedArg_eq_ok_iff {p : Position} {name : Option String} {v : Value} {a : Arg Node} :
    insertedArg p name v = .ok a ↔ Inserted name v a := by
  obtain ⟨given, value⟩ := a
  unfold insertedArg
  simp only [bind_eq_ok_iff, mapError_eq_ok_iff, checkArgument_eq_ok_iff]
  constructor
  · rintro ⟨n, hn, _, ⟨rfl, hmissing⟩, hbuild⟩
    unfold Arg.build at hbuild
    by_cases hname : name = some ""
    · simp [hname] at hbuild
    · simp only [hname, hmissing, Bool.false_eq_true, if_false, Except.ok.injEq, Arg.mk.injEq]
        at hbuild
      obtain ⟨rfl, rfl⟩ := hbuild
      exact ⟨rfl, hname, hn, hmissing⟩
  · rintro ⟨rfl, hname, hn, hmissing⟩
    refine ⟨value, hn, value, ⟨rfl, hmissing⟩, ?_⟩
    simp [Arg.build, hname, hmissing]

/-- A splice stands for the arguments that its value stands for. -/
theorem splicedArgs_eq_ok_iff {h : Host} {splice : String} {args new : List (Arg Node)}
    {p : Position} :
    splicedArgs h c splice args p = .ok new ↔
      ∃ e v, args = [⟨none, e⟩] ∧ e.evaluate h c = .ok v ∧ Spliced v new := by
  unfold splicedArgs
  simp only [bind_eq_ok_iff, operandValue_eq_ok_iff, mapM_eq_ok_iff, insertedArg_eq_ok_iff]
  constructor
  · rintro ⟨v, ⟨e, hargs, hv⟩, hnew⟩
    exact ⟨e, v, hargs, hv, hnew⟩
  · rintro ⟨e, v, hargs, hv, hnew⟩
    exact ⟨v, ⟨e, hargs, hv⟩, hnew⟩

/-! ## Trees -/

/-- Markers of different names are never confused. -/
theorem isSplice_eq_false_of_isEscape (hm : m.splice ≠ some m.escape) {head : Node}
    (h : m.isEscape head = true) : m.isSplice head = false := by
  have hname : head.name? = some m.escape := by simpa [Markers.isEscape] using h
  have hne : (head.name? == m.splice) = false := by
    rw [hname]
    exact beq_eq_false_iff_ne.mpr hm.symm
  simp only [Markers.isSplice, hne, Bool.and_false]

/-- Arguments are replaced one by one, from the first one on. -/
theorem expandArgs_eq_ok_iff (hm : m.splice ≠ some m.escape) {args : List (Arg Node)}
    (hargs : Node.WellFormedArgs args)
    (ih : ∀ a ∈ args, a.value.WellFormed → ∀ h new,
      expandAt m h c .argument a.value = .ok new ↔ Substituted m c h .argument a.value new) :
    ∀ hs new, expandArgs m hs c args = .ok new ↔ SubstitutedArgs m c hs args new := by
  induction args with
  | nil =>
    intro hs new
    constructor
    · rintro ⟨⟩
      exact .nil
    · rintro ⟨⟩
      rfl
  | cons a rest tail =>
    obtain ⟨iha, ihrest⟩ := List.forall_mem_cons.mp ih
    obtain ⟨hname, hmissing, hvalue, hrest⟩ := hargs
    have tail := tail hrest ihrest
    obtain ⟨name, value⟩ := a
    intro hosts new
    rw [expandArgs_cons]
    simp only [bind_eq_ok_iff, tail, pure, Except.pure, Except.ok.injEq]
    by_cases hsplice : ∃ head args p, value = .call head args p ∧ m.isSplice head = true
    · obtain ⟨head, args, p, rfl, hs⟩ := hsplice
      rw [expandArg_splice hs]
      constructor
      · rintro ⟨first, hfirst, rest', hrest', rfl⟩
        cases name with
        | some name => cases hfirst
        | none =>
          obtain ⟨e, v, rfl, hv, hspliced⟩ := splicedArgs_eq_ok_iff.mp hfirst
          exact .splice hs hv hspliced hrest'
      · intro h
        cases h with
        | splice _ hv hspliced hrest' =>
          exact ⟨_, splicedArgs_eq_ok_iff.mpr ⟨_, _, rfl, hv, hspliced⟩, _, hrest', rfl⟩
        | one hvalue' _ =>
          cases hvalue' with
          | escape he _ _ _ => rw [isSplice_eq_false_of_isEscape hm he] at hs; cases hs
          | call _ hs' _ _ => rw [hs'] at hs; cases hs
    · have hone : splice? m value = none := by
        cases value with
        | call head args p =>
          have hnone := Bool.eq_false_iff.mpr fun hs => hsplice ⟨head, args, p, rfl, hs⟩
          exact splice?_of_not_isSplice hnone args p
        | _ => rfl
      rw [expandArg_one hone]
      simp only [map_eq_ok_iff, iha hvalue]
      constructor
      · rintro ⟨_, ⟨value', hvalue', rfl⟩, rest', hrest', rfl⟩
        exact .one hvalue' hrest'
      · intro h
        cases h with
        | splice hs _ _ _ => exact absurd ⟨_, _, _, rfl, hs⟩ hsplice
        | one hvalue' hrest' => exact ⟨_, ⟨_, hvalue', rfl⟩, _, hrest', rfl⟩

theorem expandParams_eq_ok_iff {items : List (Param Node)} (hitems : Node.WellFormedParams items)
    (ih : ∀ q ∈ items, q.default.WellFormed → ∀ h new,
      expandAt m h c .free q.default = .ok new ↔ Substituted m c h .free q.default new) :
    ∀ hs new, expandParams m hs c items = .ok new ↔ SubstitutedParams m c hs items new := by
  induction items with
  | nil =>
    intro hs new
    constructor
    · rintro ⟨⟩
      exact .nil
    · rintro ⟨⟩
      rfl
  | cons q rest tail =>
    obtain ⟨ihq, ihrest⟩ := List.forall_mem_cons.mp ih
    obtain ⟨hname, hdefault, hrest⟩ := hitems
    have tail := tail hrest ihrest
    obtain ⟨name, default⟩ := q
    intro hs new
    rw [expandParams]
    simp only [bind_eq_ok_iff, tail, ihq hdefault, pure, Except.pure, Except.ok.injEq]
    constructor
    · rintro ⟨default', hdefault', rest', hrest', rfl⟩
      exact .cons hdefault' hrest'
    · intro h
      cases h with
      | cons hdefault' hrest' => exact ⟨_, hdefault', _, hrest', rfl⟩

/-- A well-formed tree is expanded exactly to the trees that substitution allows. -/
theorem expandAt_eq_ok_iff (hm : m.splice ≠ some m.escape) (n : Node) :
    n.WellFormed → ∀ h site new,
      expandAt m h c site n = .ok new ↔ Substituted m c h site n new := by
  induction n using Node.ind with
  | constant a p =>
    intro _ h site new
    constructor
    · rintro ⟨⟩
      exact .constant a p
    · rintro ⟨⟩
      rfl
  | symbol name p =>
    intro _ h site new
    constructor
    · rintro ⟨⟩
      exact .symbol name p
    · rintro ⟨⟩
      rfl
  | missing =>
    intro _ h site new
    constructor
    · rintro ⟨⟩
      exact .missing
    · rintro ⟨⟩
      rfl
  | params items p ih =>
    intro hn h site new
    have hitems := expandParams_eq_ok_iff (c := c) hn.2 fun q hq hwf h new =>
      ih q hq hwf h .free new
    rw [expandAt]
    simp only [bind_eq_ok_iff, pure, Except.pure, Except.ok.injEq, hitems]
    constructor
    · rintro ⟨items', hitems', rfl⟩
      exact .params hitems'
    · intro h
      cases h with
      | params hitems' => exact ⟨_, hitems', rfl⟩
  | call head args p ihHead ihArgs =>
    intro hn h site new
    obtain ⟨-, -, hhead, hargs⟩ := hn
    cases he : m.isEscape head with
    | true =>
      rw [expandAt_escape he]
      simp only [bind_eq_ok_iff, unquote_eq_ok_iff, Site.check_eq_ok_iff]
      constructor
      · rintro ⟨n, ⟨e, v, rfl, hv, hn⟩, rfl, haccepts⟩
        exact .escape he hv hn haccepts
      · intro h
        cases h with
        | escape _ hv hn haccepts => exact ⟨_, ⟨_, _, rfl, hv, hn⟩, rfl, haccepts⟩
        | call he' _ _ _ => rw [he'] at he; cases he
    | false =>
      cases hs : m.isSplice head with
      | true =>
        rw [expandAt_misplaced he hs]
        constructor
        · rintro ⟨⟩
        · intro h
          cases h with
          | escape he' _ _ _ => rw [he'] at he; cases he
          | call _ hs' _ _ => rw [hs'] at hs; cases hs
      | false =>
        have hrow := expandArgs_eq_ok_iff (c := c) hm hargs fun a ha hwf h new =>
          ihArgs a ha hwf h .argument new
        rw [expandAt_call he hs]
        simp only [bind_eq_ok_iff, pure, Except.pure, Except.ok.injEq, ihHead hhead, hrow]
        constructor
        · rintro ⟨head', hhead', args', hargs', rfl⟩
          exact .call he hs hhead' hargs'
        · intro h
          cases h with
          | escape he' _ _ _ => rw [he'] at he; cases he
          | call _ _ hhead' hargs' => exact ⟨_, hhead', _, hargs', rfl⟩

end Expansion

end RCode
