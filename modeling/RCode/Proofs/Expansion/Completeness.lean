import RCode.Proofs.Expansion.Sharing

/-!
# Expansion leaves no markers

Where no tree that is inserted for a marker holds a symbol with the name of a marker, the expansion
of a tree has no markers, so that another expansion, in whatever context, changes nothing and gives
the very objects back (`Node.expand_complete`). A marker is known by the name of its head alone, and
a symbol that is inserted as a head could make a marker of a call: the induction keeps the names of
heads in mind.
-/

set_option autoImplicit false

namespace RCode

namespace Node

/-! ## Trees without symbols of some names -/

/-- A tree without symbols of some names calls none of them. -/
theorem any_isCallTo_of_symbolNames {names : List String} (n : Node)
    (h : ∀ name ∈ n.symbolNames, name ∉ names) : n.any (isCallTo names) = false := by
  induction n using Node.ind with
  | constant a p => rfl
  | symbol name p => rfl
  | missing => rfl
  | params items p ih =>
    rw [any, anyParams_eq_false_iff]
    exact fun q hq => ih q hq fun name hname => h name (mem_symbolNamesParams hq hname)
  | call head args p ihHead ihArgs =>
    have hhead : ∀ name ∈ head.symbolNames, name ∉ names :=
      fun name hname => h name (List.mem_append_left _ hname)
    have hcall : (Node.call head args p).isCallTo names = false := by
      cases head with
      | symbol name q => exact decide_eq_false (hhead name (List.mem_singleton.mpr rfl))
      | _ => rfl
    rw [any, hcall, ihHead hhead, Bool.false_or, Bool.false_or, anyArgs_eq_false_iff]
    intro a ha
    refine ihArgs a ha fun name hname => h name ?_
    exact List.mem_append_right _ (mem_symbolNamesArgs ha hname)

end Node

namespace Expansion

variable {m : Markers} {c : Context}

/-! ## What is inserted -/

/-- The tree is inserted for the marker: the tree of the value of an escape, or one of those of the
items of a splice. -/
inductive Replacement.Inserts (m : Markers) (c : Context) (h : Host) :
    Replacement → Node → Prop where
  | escape {site : Site} {args : List (Arg Node)} {p : Position} {new : Node} :
      unquote m h c args p = .ok new → Inserts m c h (.escape site args p) new
  | splice {args new : List (Arg Node)} {p : Position} {a : Arg Node} :
      splicedArgs h c (m.splice.getD "") args p = .ok new → a ∈ new →
        Inserts m c h (.splice none args p) a.value

/-- No tree that is inserted for one of the markers holds a symbol with the name of a marker. -/
def InsertsNoMarker (m : Markers) (c : Context) (rs : List (Host × Replacement)) : Prop :=
  ∀ x ∈ rs, ∀ t, x.2.Inserts m c x.1 t → ∀ name ∈ t.symbolNames, name ∉ m.names

theorem insertsNoMarker_append {rs ss : List (Host × Replacement)} :
    InsertsNoMarker m c (rs ++ ss) ↔ InsertsNoMarker m c rs ∧ InsertsNoMarker m c ss :=
  List.forall_mem_append

/-! ## What is left -/

/-- Heads without names of markers are no heads of markers. -/
theorem isEscape_or_isSplice_eq_false_iff {head : Node} :
    (m.isEscape head || m.isSplice head) = false ↔ ∀ name ∈ head.name?, name ∉ m.names := by
  rw [isEscape_or_isSplice, Option.any_eq_false]
  simp only [Option.mem_def, decide_eq_false_iff_not]

/-- The tree has no markers, and its name, if it has one, is the old one or no name of a marker. -/
structure Unmarked (m : Markers) (old new : Node) : Prop where
  no_markers : new.hasMarkers m = false
  name?_eq : new.name? = old.name? ∨ ∀ name ∈ new.name?, name ∉ m.names

/-- An inserted tree without symbols of markers. -/
theorem unmarked_of_symbolNames {old new : Node} (h : ∀ name ∈ new.symbolNames, name ∉ m.names) :
    Unmarked m old new := by
  refine ⟨Node.any_isCallTo_of_symbolNames new h, .inr fun name hname => ?_⟩
  cases new with
  | symbol name' p =>
    obtain rfl := Option.some.inj hname
    exact h _ (List.mem_singleton.mpr rfl)
  | _ => cases hname

/-- What stands for arguments has no markers. -/
theorem anyArgs_of_gives {hs : Nat → Host} {args args' : List (Arg Node)}
    (hgives : GivesArgs m c (fun h site old new =>
      InsertsNoMarker m c (replacements m h site old) → Unmarked m old new) hs args args')
    (hinserts : InsertsNoMarker m c (replacementsArgs m hs args)) :
    Node.anyArgs (Node.isCallTo m.names) args' = false := by
  induction hgives with
  | nil => rfl
  | @splice _ head _ _ _ _ p hs hnew _ ih =>
    rw [replacementsArgs, splice?_of_isSplice hs, insertsNoMarker_append] at hinserts
    obtain ⟨hfirst, hrest⟩ := hinserts
    refine Node.anyArgs_eq_false_iff.mpr (List.forall_mem_append.mpr ⟨fun b hb => ?_, ?_⟩)
    · have hsymbols := hfirst _ List.mem_cons_self b.value (.splice hnew hb)
      exact Node.any_isCallTo_of_symbolNames b.value hsymbols
    · exact Node.anyArgs_eq_false_iff.mp (ih hrest)
  | one hsplice hvalue _ ih =>
    rw [replacementsArgs, hsplice, insertsNoMarker_append] at hinserts
    obtain ⟨hfirst, hrest⟩ := hinserts
    exact Node.anyArgs_eq_false_iff.mpr (List.forall_mem_cons.mpr
      ⟨(hvalue hfirst).no_markers, Node.anyArgs_eq_false_iff.mp (ih hrest)⟩)

/-- What stands for parameters has no markers. -/
theorem anyParams_of_gives {hs : Nat → Host} {items items' : List (Param Node)}
    (hgives : GivesParams (fun h site old new =>
      InsertsNoMarker m c (replacements m h site old) → Unmarked m old new) hs items items')
    (hinserts : InsertsNoMarker m c (replacementsParams m hs items)) :
    Node.anyParams (Node.isCallTo m.names) items' = false := by
  induction hgives with
  | nil => rfl
  | cons hdefault _ ih =>
    rw [replacementsParams, insertsNoMarker_append] at hinserts
    exact Node.anyParams_eq_false_iff.mpr (List.forall_mem_cons.mpr
      ⟨(hdefault hinserts.1).no_markers, Node.anyParams_eq_false_iff.mp (ih hinserts.2)⟩)

/-- An expansion that inserts no symbols of markers leaves no markers. -/
theorem expandAt_unmarked {h : Host} {site : Site} {n new : Node}
    (hnew : expandAt m h c site n = .ok new) :
    InsertsNoMarker m c (replacements m h site n) → Unmarked m n new := by
  refine expandAt_induct ?constant ?symbol ?missing ?params ?escape ?call hnew
  case constant => exact fun _ _ _ _ _ => ⟨rfl, .inl rfl⟩
  case symbol => exact fun _ _ _ _ _ => ⟨rfl, .inl rfl⟩
  case missing => exact fun _ _ _ => ⟨rfl, .inl rfl⟩
  case params =>
    exact fun h site items items' p hitems hinserts =>
      ⟨anyParams_of_gives hitems hinserts, .inl rfl⟩
  case escape =>
    intro h site head args p new he hn _ hinserts
    rw [replacements, if_pos he] at hinserts
    exact unmarked_of_symbolNames (hinserts _ List.mem_cons_self new (.escape hn))
  case call =>
    intro h site head head' args args' p he hs hhead hargs hinserts
    rw [replacements, he, hs] at hinserts
    obtain ⟨hfirst, hrest⟩ := insertsNoMarker_append.mp hinserts
    have hhead := hhead hfirst
    -- the old head is no marker, and neither is the new one, whether it has the old name or not
    have hold : (m.isEscape head || m.isSplice head) = false := by rw [he, hs, Bool.or_self]
    have hnew : (m.isEscape head' || m.isSplice head') = false := by
      rw [isEscape_or_isSplice_eq_false_iff] at hold ⊢
      rcases hhead.name?_eq with hname | hname
      · rw [hname]
        exact hold
      · exact hname
    refine ⟨?_, .inl rfl⟩
    rw [hasMarkers_call, hnew, hhead.no_markers, anyArgs_of_gives hargs hrest]
    rfl

end Expansion

namespace Node

/-- Expansion is complete. Where no tree that is inserted for an escape or a splice is or holds a
symbol with the name of a marker, the expansion of a tree has no markers, and expanding it once more
leaves it as it is, in every context; where it consists of objects, the very object is given back,
whatever the markers stand for. -/
theorem expand_complete {n new : Node} {h : Host} {c : Context} {m : Markers}
    (hnew : n.expand h c m = .ok new)
    (hinserts : Expansion.InsertsNoMarker m c (Expansion.replacements m h .free n)) :
    new.hasMarkers m = false ∧
      (∀ (h' : Host) (c' : Context), new.expand h' c' m = .ok new) ∧
      ∀ o : Object, o.node = new → ∀ (r : Reading) (h' : Host) (next : Nat),
        o.expand r h' next m = .ok o := by
  have hunmarked : new.hasMarkers m = false := (Expansion.expandAt_unmarked hnew hinserts).no_markers
  refine ⟨hunmarked, fun h' c' => ?_, ?_⟩
  · exact Expansion.expandAt_of_not_hasMarkers new hunmarked h' .free
  · rintro o rfl r h' next
    rw [Object.expand, Object.expandAt_of_not_hasMarkers r o hunmarked]
    rfl

/-- The call `.(g)(..(b), k = .(a))` where `g` is the tree `f`, `b` a list of a tree and a number,
and `a` the text `"."`, which is the name of a marker and no symbol. -/
theorem expand_complete_call :
    let marked (marker name : String) : Node :=
      .call (.symbol marker .nowhere) [⟨none, .symbol name .nowhere⟩] ⟨1, 3⟩
    let n : Node :=
      .call (marked "." "g") [⟨none, marked ".." "b"⟩, ⟨some "k", marked "." "a"⟩] ⟨1, 1⟩
    let c : Context := ⟨[⟨"g", .node (.symbol "f" ⟨2, 1⟩)⟩, ⟨"a", .text "."⟩,
      ⟨"b", .list [.node (.symbol "y" ⟨2, 7⟩), .integer 3]⟩], []⟩
    let new : Node := .call (.symbol "f" ⟨2, 1⟩) [⟨none, .symbol "y" ⟨2, 7⟩⟩,
      ⟨none, .constant (.integer 3) .nowhere⟩, ⟨some "k", .constant (.text ".") .nowhere⟩] ⟨1, 1⟩
    let h := Host.plain 100
    n.expand h c = .ok new ∧
      Expansion.InsertsNoMarker {} c (Expansion.replacements {} h .free n) ∧
      new.hasMarkers = false ∧ (∀ (h' : Host) (c' : Context), new.expand h' c' = .ok new) ∧
      ∀ o : Object, o.node = new → ∀ (r : Reading) (h' : Host) (next : Nat),
        o.expand r h' next = .ok o := by
  intro marked n c new h
  have hnew : n.expand h c = .ok new := rfl
  have hinserts : Expansion.InsertsNoMarker {} c (Expansion.replacements {} h .free n) := by
    have hlist : Expansion.replacements {} h .free n =
      [(h.within [0], .escape .head [⟨none, .symbol "g" .nowhere⟩] ⟨1, 3⟩),
        (h.within [1], .splice none [⟨none, .symbol "b" .nowhere⟩] ⟨1, 3⟩),
        (h.within [2], .escape .argument [⟨none, .symbol "a" .nowhere⟩] ⟨1, 3⟩)] := rfl
    rw [hlist]
    simp only [Expansion.InsertsNoMarker, List.forall_mem_cons]
    refine ⟨?_, ?_, ?_, nofun⟩
    · rintro t ⟨h⟩
      cases h
      decide
    · intro t ht
      cases ht with
      | splice h ha =>
        cases h
        rcases List.mem_cons.mp ha with rfl | ha
        · decide
        · obtain rfl := List.mem_singleton.mp ha
          decide
    · rintro t ⟨h⟩
      cases h
      decide
  exact ⟨hnew, hinserts, expand_complete hnew hinserts⟩

end Node

end RCode
