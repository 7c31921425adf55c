import RCode.Assignment
import RCode.Expansion
import RCode.Node.Hash
import RCode.Proofs.Node.Canonical
import RCode.Proofs.Node.Traversal
import RCode.Proofs.Scope.Visits

/-!
# Equality of trees

Trees that are the same cannot be told apart. What is read off a tree is the same for its canonical
tree: its hash (`Node.hash_canonical`), its nodes (`Node.preorder_canonical`), what it assigns to
(`Node.assignedNames_canonical`) and what it does with names (`Scope.events_canonical`). A part of a
tree can be replaced by one that is the same (`Node.PartReplaced.same`).
-/

set_option autoImplicit false

namespace RCode

/-! ## Hashes -/

/-- The exact value of a double does not depend on the sign of zero. -/
theorem Double.signedUnits_canonical {x : Float} (h : isNaN x = false) :
    signedUnits (canonical x) = signedUnits x := by
  rw [signedUnits, signedUnits, isNegative_canonical h, magnitude_canonical h]
  cases hzero : isZero x with
  | false => rw [Bool.not_false, Bool.and_true]
  | true =>
    -- both zeros count no units
    have hunits : units (magnitude x) = 0 := by
      rw [beq_iff_eq.mp hzero]
      decide
    rw [hunits]
    simp

namespace Hashing

theorem double_canonical {x : Float} (h : Double.isNaN x = false) :
    double (Double.canonical x) = double x := by
  rw [double, double, Double.isInfinite_canonical h, Double.signedUnits_canonical h]
  cases hinfinite : Double.isInfinite x with
  | false => rfl
  | true =>
    -- only zero loses its sign, so infinity keeps it
    have hzero : Double.isZero x = false := by
      rw [Double.isZero, beq_iff_eq.mp hinfinite]
      decide
    rw [Double.isNegative_canonical h, hzero, Bool.not_false, Bool.and_true]

theorem constant_canonical (h : Hashing) (a : Atom) : h.constant a.canonical = h.constant a := by
  have hvalue : h.value a.canonical = h.value a := by
    cases a with
    | double x =>
      simp only [Atom.canonical, value, Double.isNaN_canonical]
      cases hnan : Double.isNaN x with
      | true => rfl
      | false => rw [double_canonical hnan]
    | _ => rfl
  rw [constant, constant, Atom.kind_canonical, hvalue]

end Hashing

namespace Node

mutual

/-- A tree has the hash of its canonical tree. -/
theorem hash_canonical (h : Hashing) : ∀ n : Node, n.canonical.hash h = n.hash h
  | .constant a _ => h.constant_canonical a
  | .symbol _ _ => rfl
  | .missing => rfl
  | .call head args _ => by
    rw [canonical, hash, hash, hash_canonical h head, hashArgs_canonical h args]
  | .params items _ => by rw [canonical, hash, hash, hashParams_canonical h items]

theorem hashArgs_canonical (h : Hashing) :
    ∀ args : List (Arg Node), hashArgs h (canonicalArgs args) = hashArgs h args
  | [] => rfl
  | a :: rest => by
    rw [canonicalArgs, hashArgs, hashArgs, hash_canonical h a.value, hashArgs_canonical h rest]

theorem hashParams_canonical (h : Hashing) :
    ∀ items : List (Param Node), hashParams h (canonicalParams items) = hashParams h items
  | [] => rfl
  | p :: rest => by
    rw [canonicalParams, hashParams, hashParams, hash_canonical h p.default,
      hashParams_canonical h rest]

end

/-! ## Nodes -/

/-- The nodes of the canonical tree are the canonical trees of the nodes. -/
theorem preorder_canonical (n : Node) : n.canonical.preorder = n.preorder.map canonical := by
  induction n using Node.ind with
  | constant a p => rfl
  | symbol name p => rfl
  | missing => rfl
  | call head args p ihhead ihargs =>
    have hargs : args.flatMap (fun a => (a.map canonical).value.preorder) =
        args.flatMap fun a => a.value.preorder.map canonical := List.flatMap_congr ihargs
    rw [canonical_call, preorder_call, preorder_call, preorderArgs_eq, preorderArgs_eq, ihhead,
      List.flatMap_map, List.map_cons, List.map_append, List.map_flatMap, canonical_call, hargs]
  | params items p ih =>
    have hitems : items.flatMap (fun i => (i.map canonical).default.preorder) =
        items.flatMap fun i => i.default.preorder.map canonical := List.flatMap_congr ih
    rw [canonical_params, preorder_params, preorder_params, preorderParams_eq, preorderParams_eq,
      List.flatMap_map, List.map_cons, List.map_flatMap, canonical_params, hitems]

theorem count_canonical (n : Node) : n.canonical.count = n.count := by
  rw [← length_preorder, preorder_canonical, List.length_map, length_preorder]

theorem targetName?_canonical (n : Node) : n.canonical.targetName? = n.targetName? := by
  cases n with
  | constant a p => cases a with | _ => rfl
  | _ => rfl

theorem eq_symbol_of_canonical {n : Node} {name : String} {p : Position}
    (h : n.canonical = .symbol name p) : ∃ q, n = .symbol name q := by
  cases n with
  | symbol name' q =>
    obtain ⟨rfl, -⟩ := symbol.inj h
    exact ⟨q, rfl⟩
  | _ => cases h

theorem eq_params_of_canonical {n : Node} {items : List (Param Node)} {p : Position}
    (h : n.canonical = .params items p) : ∃ items' q, n = .params items' q := by
  cases n with
  | params items' q => exact ⟨items', q, rfl⟩
  | _ => cases h

theorem typeName_canonical (n : Node) : n.canonical.typeName = n.typeName := by
  cases n with
  | _ => rfl

theorem hasMarkers_canonical (m : Markers) (n : Node) :
    n.canonical.hasMarkers m = n.hasMarkers m := by
  have htest : ∀ k : Node, k.canonical.isCallTo m.names = k.isCallTo m.names := by
    intro k
    cases k with
    | call head args p => cases head with | _ => rfl
    | _ => rfl
  rw [Bool.eq_iff_iff, hasMarkers, hasMarkers, any_iff rfl fun _ _ => rfl,
    any_iff rfl fun _ _ => rfl, preorder_canonical]
  simp only [List.mem_map, exists_exists_and_eq_and, htest]

/-! ## Assigned names -/

theorem assignedName?_canonical (head : Node) (args : List (Arg Node)) :
    assignedName? head.canonical (args.map (Arg.map canonical)) = assignedName? head args := by
  cases head with
  | symbol operator p =>
    match args with
    | [] => rfl
    | [_] => rfl
    | [target, _] => simp only [canonical, List.map, assignedName?, Arg.map, name?_canonical]
    | _ :: _ :: _ :: _ => rfl
  | _ => rfl

/-- A tree assigns to the names that its canonical tree assigns to. -/
theorem assignedNames_canonical (n : Node) : n.canonical.assignedNames = n.assignedNames := by
  induction n using Node.ind with
  | constant a p => rfl
  | symbol name p => rfl
  | missing => rfl
  | call head args p ihhead ihargs =>
    have hcanonical := assignedName?_canonical head args
    cases hassigned : assignedName? head args with
    | none =>
      rw [hassigned] at hcanonical
      rw [canonical_call, assignedNames_of_none hcanonical, assignedNames_of_none hassigned,
        ihhead, List.flatMap_map]
      exact congrArg (head.assignedNames ++ ·) (List.flatMap_congr ihargs)
    | some name =>
      obtain ⟨operator, q, r, target, value, rfl, rfl⟩ := assignedName?_eq_some hassigned
      rw [hassigned] at hcanonical
      have hvalue := ihargs value (List.mem_cons_of_mem _ List.mem_cons_self)
      rw [canonical_call, assignedNames_of_some hassigned, ← hvalue]
      exact assignedNames_of_some hcanonical
  | params items p ih =>
    rw [canonical_params]
    change assignedNamesParams _ = assignedNamesParams _
    rw [assignedNamesParams_eq, assignedNamesParams_eq, List.flatMap_map]
    exact List.flatMap_congr ih

theorem map_value_canonical (args : List (Arg Node)) :
    (args.map (Arg.map canonical)).map Arg.value = (args.map Arg.value).map canonical := by
  rw [List.map_map, List.map_map]
  rfl

theorem map_default_canonical (items : List (Param Node)) :
    (items.map (Param.map canonical)).map Param.default =
      (items.map Param.default).map canonical := by
  rw [List.map_map, List.map_map]
  rfl

end Node

/-! ## What trees do with names -/

namespace Scope

open Node

/-- The part with canonical trees. -/
def Part.canonical : Part → Part
  | .tree n => .tree n.canonical
  | .trees ns => .trees (ns.map Node.canonical)
  | .head n => .head n.canonical
  | .target operator n => .target operator n.canonical
  | .changed n => .changed n.canonical

/-- A construct is one already before its parts are made canonical. -/
theorem special_of_canonical {head : Node} {args : List (Arg Node)}
    (h : Special head.canonical (args.map (Arg.map Node.canonical))) : Special head args := by
  -- a symbol and a list of parameters can only come from trees of their kind
  generalize hhead : head.canonical = head' at h
  generalize hargs : args.map (Arg.map Node.canonical) = args' at h
  cases h with
  | assignment target value hoperator =>
    obtain ⟨_, rfl⟩ := eq_symbol_of_canonical hhead
    obtain ⟨target', _, rfl, -, hvalue⟩ := List.map_eq_cons_iff.mp hargs
    obtain ⟨value', rfl, -⟩ := List.map_eq_singleton_iff.mp hvalue
    exact .assignment target' value' hoperator
  | definition items rest =>
    obtain ⟨_, rfl⟩ := eq_symbol_of_canonical hhead
    obtain ⟨⟨_, _⟩, rest', rfl, hitems, -⟩ := List.map_eq_cons_iff.mp hargs
    obtain ⟨items', _, rfl⟩ := eq_params_of_canonical (Arg.mk.inj hitems).2
    exact .definition items' rest'
  | loop item sequence body =>
    obtain ⟨_, rfl⟩ := eq_symbol_of_canonical hhead
    obtain ⟨⟨_, _⟩, _, rfl, hitem, hrest⟩ := List.map_eq_cons_iff.mp hargs
    obtain ⟨_, rfl⟩ := eq_symbol_of_canonical (Arg.mk.inj hitem).2
    obtain ⟨sequence', _, rfl, -, hbody⟩ := List.map_eq_cons_iff.mp hrest
    obtain ⟨body', rfl, -⟩ := List.map_eq_singleton_iff.mp hbody
    exact .loop item sequence' body'
  | quotation _ hname =>
    obtain ⟨_, rfl⟩ := eq_symbol_of_canonical hhead
    exact .quotation args hname
  | selection target field hname =>
    obtain ⟨_, rfl⟩ := eq_symbol_of_canonical hhead
    obtain ⟨target', _, rfl, -, hfield⟩ := List.map_eq_cons_iff.mp hargs
    obtain ⟨field', rfl, -⟩ := List.map_eq_singleton_iff.mp hfield
    exact .selection target' field' hname

variable {withFunctions : Bool}

/-- The rules do with the names of the canonical trees what they do with those of the trees. -/
theorem Visits.canonical {part : Part} {es : List ScopeEvent} (h : Visits withFunctions part es) :
    Visits withFunctions part.canonical es := by
  -- each rule is applied as it was; what a rule asks of a tree is told by its canonical tree
  induction h with
  | constant a p => exact .constant _ _
  | missing => exact .missing
  | symbol name p => exact .symbol name _
  | params p _ ih =>
    rw [Part.canonical, canonical_params]
    refine .params _ ?_
    rw [map_default_canonical]
    exact ih
  | assignment p q hoperator _ _ ihvalue ihtarget =>
    exact .assignment _ _ hoperator ihvalue ihtarget
  | @definition name items rest es fs p q r _ _ ihbody ihdefaults =>
    have hnames : (items.map (Param.map Node.canonical)).map (fun i => ScopeEvent.bind i.name) =
        items.map fun i => .bind i.name := List.map_map
    have hbody : ((rest.map (Arg.map Node.canonical)).head?.map Arg.value).toList =
        (rest.head?.map Arg.value).toList.map Node.canonical := by
      cases rest with
      | _ => rfl
    rw [Part.canonical, canonical_call, List.map_cons, Arg.map, canonical_params, ← hnames]
    refine .definition _ _ _ ?_ ?_
    · rw [hbody]
      exact ihbody
    · rw [map_default_canonical]
      exact ihdefaults
  | loop p q r _ _ ihsequence ihbody => exact .loop _ _ _ ihsequence ihbody
  | quotation args p q hname => exact .quotation _ _ _ hname
  | selection p q hname _ _ ihhead ihtarget => exact .selection _ _ hname ihhead ihtarget
  | application p hspecial _ _ ihhead ihargs =>
    rw [Part.canonical, canonical_call]
    refine .application _ (mt special_of_canonical hspecial) ihhead ?_
    rw [map_value_canonical]
    exact ihargs
  | nil => exact .nil
  | cons _ _ ihfirst ihrest => exact .cons ihfirst ihrest
  | function p hfunctions hname => exact .function _ hfunctions hname
  | construct p h => exact .construct _ h
  | head hname _ ih => exact .head ((name?_canonical _).trans hname) ih
  | bound hname hne hoperator =>
    exact .bound ((targetName?_canonical _).trans hname) hne hoperator
  | outward hname hne => exact .outward ((targetName?_canonical _).trans hname) hne
  | nameless hname => exact .nameless ((targetName?_canonical _).trans hname)
  | replacement hname _ ih => exact .replacement ((targetName?_canonical _).trans hname) ih
  | changedName name p => exact .changedName name _
  | changedMember rest p q hname _ _ ihhead ihbase =>
    exact .changedMember _ _ _ hname ihhead ihbase
  | changedCall p hname _ _ _ ihhead ihbase ihrest =>
    rw [Part.canonical, canonical_call]
    refine .changedCall _ ?_ ihhead ihbase ?_
    · rw [name?_canonical]
      exact hname
    · rw [map_value_canonical]
      exact ihrest
  | @changedOther n es hname hcall _ ih =>
    refine .changedOther ((name?_canonical n).trans hname) ?_ ih
    -- the canonical tree of a call without arguments has none either
    cases n with
    | call head args p =>
      cases args with
      | nil =>
        intro _ _ _ _ h
        cases h
      | cons base rest => exact absurd rfl (hcall head base rest p)
    | _ =>
      intro _ _ _ _ h
      cases h

/-- A tree does with names what its canonical tree does. -/
theorem events_canonical (withFunctions : Bool) (n : Node) :
    events withFunctions n.canonical = events withFunctions n :=
  visits_iff.mp (visits_tree n).1.canonical

end Scope

namespace Node

/-! ## Parts that are replaced -/

/-- The second tree is the first one in which a tree `s` somewhere inside of it is replaced by
`t`. -/
inductive PartReplaced (s t : Node) : Node → Node → Prop where
  | whole : PartReplaced s t s t
  | head {m n : Node} (args : List (Arg Node)) (p : Position) :
      PartReplaced s t m n → PartReplaced s t (.call m args p) (.call n args p)
  | arg {m n : Node} (head : Node) (before after : List (Arg Node)) (name : Option String)
      (p : Position) :
      PartReplaced s t m n →
        PartReplaced s t (.call head (before ++ ⟨name, m⟩ :: after) p)
          (.call head (before ++ ⟨name, n⟩ :: after) p)
  | default {m n : Node} (before after : List (Param Node)) (name : String) (p : Position) :
      PartReplaced s t m n →
        PartReplaced s t (.params (before ++ ⟨name, m⟩ :: after) p)
          (.params (before ++ ⟨name, n⟩ :: after) p)

section

variable {s t a b : Node}

/-- Every part of a tree can be replaced, and nothing else can. -/
theorem mem_preorder_iff_partReplaced : s ∈ a.preorder ↔ ∃ b, PartReplaced s t a b := by
  constructor
  · intro h
    induction a using Node.ind with
    | constant x p => exact ⟨t, List.mem_singleton.mp h ▸ .whole⟩
    | symbol name p => exact ⟨t, List.mem_singleton.mp h ▸ .whole⟩
    | missing => exact ⟨t, List.mem_singleton.mp h ▸ .whole⟩
    | call head args p ihhead ihargs =>
      rw [preorder_call, List.mem_cons, List.mem_append, mem_preorderArgs] at h
      rcases h with rfl | hmem | ⟨x, hx, hmem⟩
      · exact ⟨t, .whole⟩
      · obtain ⟨n, hn⟩ := ihhead hmem
        exact ⟨_, .head args p hn⟩
      · obtain ⟨n, hn⟩ := ihargs x hx hmem
        obtain ⟨before, after, rfl⟩ := List.append_of_mem hx
        exact ⟨_, .arg head before after x.name p hn⟩
    | params items p ih =>
      rw [preorder_params, List.mem_cons, mem_preorderParams] at h
      rcases h with rfl | ⟨i, hi, hmem⟩
      · exact ⟨t, .whole⟩
      · obtain ⟨n, hn⟩ := ih i hi hmem
        obtain ⟨before, after, rfl⟩ := List.append_of_mem hi
        exact ⟨_, .default before after i.name p hn⟩
  · rintro ⟨b, h⟩
    induction h with
    | whole => exact self_mem_preorder s
    | head args p _ ih =>
      rw [preorder_call]
      exact List.mem_cons_of_mem _ (List.mem_append_left _ ih)
    | arg head before after name p _ ih =>
      have hmem : s ∈ preorderArgs (before ++ ⟨name, _⟩ :: after) :=
        mem_preorderArgs.mpr ⟨_, List.mem_append_right _ List.mem_cons_self, ih⟩
      rw [preorder_call]
      exact List.mem_cons_of_mem _ (List.mem_append_right _ hmem)
    | default before after name p _ ih =>
      have hmem : s ∈ preorderParams (before ++ ⟨name, _⟩ :: after) :=
        mem_preorderParams.mpr ⟨_, List.mem_append_right _ List.mem_cons_self, ih⟩
      rw [preorder_params]
      exact List.mem_cons_of_mem _ hmem

theorem PartReplaced.canonical_eq (h : PartReplaced s t a b) (hst : s.canonical = t.canonical) :
    a.canonical = b.canonical := by
  induction h with
  | whole => exact hst
  | head args p _ ih => rw [canonical_call, canonical_call, ih]
  | arg head before after name p _ ih =>
    simp only [canonical_call, List.map_append, List.map_cons, Arg.map, ih]
  | default before after name p _ ih =>
    simp only [canonical_params, List.map_append, List.map_cons, Param.map, ih]

/-- A tree in which a part is replaced by one that is the same is the same. -/
theorem PartReplaced.same (h : PartReplaced s t a b) (hst : s.same t = true) : a.same b = true :=
  same_iff_canonical.mpr (h.canonical_eq (same_iff_canonical.mp hst))

/-- A tree in which a part is replaced by one that is the same can be built. -/
theorem PartReplaced.wellFormed (h : PartReplaced s t a b) (hst : s.same t = true)
    (ha : a.WellFormed) (ht : t.WellFormed) : b.WellFormed := by
  induction h with
  | whole => exact ht
  | @head m n args p h ih =>
    obtain ⟨hmissing, hparams, hhead, hargs⟩ := ha
    -- the new head is of the kind of the old one
    have hsame := h.same hst
    rw [eq_of_same isMissing_canonical hsame] at hmissing
    rw [eq_of_same isParams_canonical hsame] at hparams
    exact ⟨hmissing, hparams, ih hhead, hargs⟩
  | @arg m n head before after name p h ih =>
    obtain ⟨hmissing, hparams, hhead, hargs⟩ := ha
    obtain ⟨hbefore, hname, hvalue, hm, hafter⟩ := wellFormedArgs_append.mp hargs
    rw [eq_of_same isMissing_canonical (h.same hst)] at hvalue
    exact ⟨hmissing, hparams, hhead,
      wellFormedArgs_append.mpr ⟨hbefore, hname, hvalue, ih hm, hafter⟩⟩
  | default before after name p h ih =>
    obtain ⟨hnames, hitems⟩ := ha
    obtain ⟨hbefore, hname, hm, hafter⟩ := wellFormedParams_append.mp hitems
    refine ⟨?_, wellFormedParams_append.mpr ⟨hbefore, hname, ih hm, hafter⟩⟩
    rw [List.map_append] at hnames ⊢
    exact hnames

end

/-- The sameness of trees is an equivalence. It tells constants of different types apart, and it
does not depend on positions. Trees that are the same have the same hash, the same text, the same
assigned names, the same global names in the same program, as many nodes and the same type, and both
have markers or neither has. Any part of a tree, and nothing else, can be replaced. If it is replaced
by one that is the same, then so is the tree, which is well formed if the two were. -/
theorem same_congruent :
    Equivalence (fun a b : Node => a.same b = true) ∧
    (∀ (x y : Atom) (p q : Position), x.kind ≠ y.kind →
      (Node.constant x p).same (.constant y q) = false) ∧
    (∀ a a' b b' : Node, a.erase = a'.erase → b.erase = b'.erase → a.same b = a'.same b') ∧
    (∀ a b : Node, a.same b = true →
      (∀ h : Hashing, a.hash h = b.hash h) ∧ (∀ indent, a.render indent = b.render indent) ∧
        a.assigned = b.assigned ∧
        (∀ before after withFunctions, globals (before ++ a :: after) withFunctions =
          globals (before ++ b :: after) withFunctions) ∧
        a.count = b.count ∧ a.typeName = b.typeName ∧
        ∀ m : Markers, a.hasMarkers m = b.hasMarkers m) ∧
    ∀ s t a : Node, (s ∈ a.preorder ↔ ∃ b, PartReplaced s t a b) ∧
      ∀ b, PartReplaced s t a b → s.same t = true →
        a.same b = true ∧ (a.WellFormed → t.WellFormed → b.WellFormed) := by
  refine ⟨⟨fun a => ?_, fun h => ?_, fun hab hbc => ?_⟩, fun x y p q hkind => ?_,
    fun a a' b b' ha hb => ?_, fun a b h => ?_, fun s t a => ?_⟩
  · exact same_iff_canonical.mpr rfl
  · exact same_iff_canonical.mpr (same_iff_canonical.mp h).symm
  · exact same_iff_canonical.mpr ((same_iff_canonical.mp hab).trans (same_iff_canonical.mp hbc))
  · rw [Bool.eq_false_iff]
    intro hsame
    have hcanonical := Atom.same_iff_canonical.mp hsame
    rw [← Atom.kind_canonical x, hcanonical, Atom.kind_canonical] at hkind
    exact hkind rfl
  · rw [Bool.eq_iff_iff, same_iff_canonical, same_iff_canonical, canonical_of_erase ha,
      canonical_of_erase hb]
  · refine ⟨fun h' => eq_of_same (hash_canonical h') h, fun indent => ?_, ?_, ?_,
      eq_of_same count_canonical h, eq_of_same typeName_canonical h,
      fun m => eq_of_same (hasMarkers_canonical m) h⟩
    · rw [render, render, layout, layout, Printer.fragment_of_same h]
    · rw [assigned, assigned, eq_of_same assignedNames_canonical h]
    · intro before after withFunctions
      have hevents := eq_of_same (Scope.events_canonical withFunctions) h
      rw [globals, globals, List.flatMap_append, List.flatMap_append, List.flatMap_cons,
        List.flatMap_cons, hevents]
  · exact ⟨mem_preorder_iff_partReplaced, fun b hb hst => ⟨hb.same hst, hb.wellFormed hst⟩⟩

/-- In `f(NaN, 0)` zero is replaced by zero below zero. -/
theorem same_congruent_zero :
    let f : Node := .symbol "f" ⟨1, 1⟩
    let nan : Node := .constant (.double Double.nan) ⟨1, 3⟩
    let zero : Node := .constant (.double (Double.ofMagnitude false 0)) ⟨1, 8⟩
    let belowZero : Node := .constant (.double (Double.ofMagnitude true 0)) .nowhere
    let a : Node := .call f [⟨none, nan⟩, ⟨none, zero⟩] ⟨1, 1⟩
    let b : Node := .call f [⟨none, nan⟩, ⟨none, belowZero⟩] ⟨1, 1⟩
    PartReplaced zero belowZero a b ∧ zero.same belowZero = true ∧ a.same b = true ∧
      (∀ h : Hashing, a.hash h = b.hash h) ∧ a.render = b.render := by
  intro f nan zero belowZero a b
  have hpart : PartReplaced zero belowZero a b := .arg f [⟨none, nan⟩] [] none _ .whole
  have hzero : zero.same belowZero = true := by decide +kernel
  obtain ⟨-, -, -, hsame, hparts⟩ := same_congruent
  obtain ⟨hab, -⟩ := (hparts zero belowZero a).2 b hpart hzero
  obtain ⟨hhash, hrender, -⟩ := hsame a b hab
  exact ⟨hpart, hzero, hab, hhash, hrender _⟩

end Node

end RCode
