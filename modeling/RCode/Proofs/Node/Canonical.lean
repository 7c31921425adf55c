import RCode.Proofs.Double.Bits
import RCode.Proofs.Node.Erasure
import RCode.Proofs.Node.Alike

/-!
# Canonical trees

Among the trees that are the same there is one without positions, in which zero has no sign and all
NaN have the same bits (`Node.canonical`). Trees are the same exactly if their canonical trees are
equal (`Node.same_iff_canonical`); trees that differ only in positions are (`Node.same_of_erase`).
A function cannot tell trees apart that are the same if it does not tell a tree from its canonical
tree (`Node.eq_of_same`). Layouts are such a function (`Printer.fragment_canonical`).
-/

set_option autoImplicit false

namespace RCode

/-! ## Doubles -/

namespace Double

/-- The double that stands for all that are the same. -/
def canonical (x : Float) : Float :=
  if isNaN x then nan else ofMagnitude (orderKey x < 0) (orderKey x).natAbs

section

variable {x : Float}

theorem natAbs_orderKey (x : Float) : (orderKey x).natAbs = magnitude x := by
  rw [orderKey]
  split <;> omega

/-- The key of a double is below zero if the double is; zero has no sign. -/
theorem orderKey_lt_zero (x : Float) :
    decide (orderKey x < 0) = (isNegative x && !isZero x) := by
  rw [orderKey, isZero]
  cases isNegative x with
  | false => simp
  | true => by_cases h : magnitude x = 0 <;> simp [h, Nat.pos_iff_ne_zero]

theorem canonical_of_isNaN (h : isNaN x = true) : canonical x = nan :=
  if_pos h

theorem canonical_of_not_isNaN (h : isNaN x = false) :
    canonical x = ofMagnitude (isNegative x && !isZero x) (magnitude x) := by
  rw [canonical, h, if_neg Bool.false_ne_true, orderKey_lt_zero, natAbs_orderKey]

theorem magnitude_canonical (h : isNaN x = false) : magnitude (canonical x) = magnitude x := by
  rw [canonical_of_not_isNaN h, magnitude_ofMagnitude (magnitude_le_of_not_isNaN h)]

theorem isNegative_canonical (h : isNaN x = false) :
    isNegative (canonical x) = (isNegative x && !isZero x) := by
  rw [canonical_of_not_isNaN h, isNegative_ofMagnitude (magnitude_le_of_not_isNaN h)]

theorem isNaN_canonical (x : Float) : isNaN (canonical x) = isNaN x := by
  cases h : isNaN x with
  | true => rw [canonical_of_isNaN h, isNaN_nan]
  | false => rw [isNaN, magnitude_canonical h, ← isNaN, h]

theorem canonical_eq_nan_iff (x : Float) : canonical x = nan ↔ isNaN x = true := by
  refine ⟨fun h => ?_, canonical_of_isNaN⟩
  rw [← isNaN_canonical, h, isNaN_nan]

theorem isZero_canonical (h : isNaN x = false) : isZero (canonical x) = isZero x := by
  rw [isZero, magnitude_canonical h, isZero]

theorem isInfinite_canonical (h : isNaN x = false) :
    isInfinite (canonical x) = isInfinite x := by
  rw [isInfinite, magnitude_canonical h, isInfinite]

theorem absolute_canonical (h : isNaN x = false) : absolute (canonical x) = absolute x := by
  rw [absolute, magnitude_canonical h, absolute]

theorem orderKey_canonical (h : isNaN x = false) : orderKey (canonical x) = orderKey x := by
  rw [orderKey, isNegative_canonical h, magnitude_canonical h, orderKey, isZero]
  cases isNegative x with
  | false => rfl
  | true =>
    by_cases hzero : magnitude x = 0
    · simp [hzero]
    · simp [hzero]

end

theorem same_iff_canonical {x y : Float} : same x y = true ↔ canonical x = canonical y := by
  constructor
  · -- what is no NaN is determined by its key
    intro h
    unfold same at h
    cases hx : isNaN x with
    | true =>
      rw [hx, if_pos rfl] at h
      rw [canonical_of_isNaN hx, canonical_of_isNaN h]
    | false =>
      rw [hx, if_neg Bool.false_ne_true, Bool.and_eq_true, Bool.not_eq_true', beq_iff_eq] at h
      rw [canonical, canonical, hx, h.1, h.2]
  · intro h
    have hnan : isNaN x = isNaN y := by rw [← isNaN_canonical x, h, isNaN_canonical]
    unfold same
    cases hx : isNaN x with
    | true => rw [if_pos rfl, ← hnan, hx]
    | false =>
      have hy : isNaN y = false := hnan.symm.trans hx
      have hkey : orderKey x = orderKey y := by
        rw [← orderKey_canonical hx, h, orderKey_canonical hy]
      rw [if_neg Bool.false_ne_true, hy, hkey, beq_self_eq_true]
      rfl

end Double

/-! ## Trees -/

/-- The atom that stands for all that are the same. -/
def Atom.canonical : Atom → Atom
  | .double x => .double (Double.canonical x)
  | .nan _ => .double Double.nan
  | a => a

theorem Atom.same_iff_canonical {a b : Atom} : a.same b = true ↔ a.canonical = b.canonical := by
  cases a with
  | double x =>
    cases b with
    | double y => exact Double.same_iff_canonical.trans (Atom.double.injEq _ _).to_iff.symm
    | nan i => simp [same, canonical, Double.canonical_eq_nan_iff]
    | null | logical | integer | text => exact ⟨by rintro ⟨⟩, by rintro ⟨⟩⟩
  | nan i =>
    cases b with
    | double y => simp [same, canonical, eq_comm (a := Double.nan), Double.canonical_eq_nan_iff]
    | nan j => exact ⟨fun _ => rfl, fun _ => rfl⟩
    | null | logical | integer | text => exact ⟨by rintro ⟨⟩, by rintro ⟨⟩⟩
  | null | logical | integer | text => cases b <;> simp [same, canonical]

theorem Atom.kind_canonical (a : Atom) : a.canonical.kind = a.kind := by
  cases a with
  | _ => rfl

namespace Node

mutual

/-- The tree that stands for all that are the same. -/
def canonical : Node → Node
  | .constant a _ => .constant a.canonical .nowhere
  | .symbol name _ => .symbol name .nowhere
  | .missing => .missing
  | .call head args _ => .call (canonical head) (canonicalArgs args) .nowhere
  | .params items _ => .params (canonicalParams items) .nowhere

/-- The arguments with canonical values. -/
def canonicalArgs : List (Arg Node) → List (Arg Node)
  | [] => []
  | a :: rest => ⟨a.name, canonical a.value⟩ :: canonicalArgs rest

/-- The parameters with canonical defaults. -/
def canonicalParams : List (Param Node) → List (Param Node)
  | [] => []
  | p :: rest => ⟨p.name, canonical p.default⟩ :: canonicalParams rest

end

theorem canonicalArgs_eq (args : List (Arg Node)) :
    canonicalArgs args = args.map (Arg.map canonical) := by
  induction args with
  | nil => rfl
  | cons a rest ih => rw [canonicalArgs, ih, List.map_cons, Arg.map]

theorem canonicalParams_eq (items : List (Param Node)) :
    canonicalParams items = items.map (Param.map canonical) := by
  induction items with
  | nil => rfl
  | cons p rest ih => rw [canonicalParams, ih, List.map_cons, Param.map]

theorem canonical_call (head : Node) (args : List (Arg Node)) (p : Position) :
    (call head args p).canonical =
      .call head.canonical (args.map (Arg.map canonical)) .nowhere := by
  rw [canonical, canonicalArgs_eq]

theorem canonical_params (items : List (Param Node)) (p : Position) :
    (params items p).canonical = .params (items.map (Param.map canonical)) .nowhere := by
  rw [canonical, canonicalParams_eq]

theorem name?_canonical (n : Node) : n.canonical.name? = n.name? := by
  cases n with
  | _ => rfl

theorem isMissing_canonical (n : Node) : n.canonical.isMissing = n.isMissing := by
  cases n with
  | _ => rfl

theorem isParams_canonical (n : Node) : n.canonical.isParams = n.isParams := by
  cases n with
  | _ => rfl

/-- Arguments are the same if their names and the canonical trees of their values are. -/
theorem sameArgs_iff_canonical {as : List (Arg Node)}
    (ih : ∀ a ∈ as, ∀ b : Node, a.value.same b = true ↔ a.value.canonical = b.canonical) :
    ∀ bs : List (Arg Node), sameArgs as bs = true ↔ canonicalArgs as = canonicalArgs bs := by
  induction as with
  | nil =>
    intro bs
    cases bs with
    | nil => exact iff_of_true rfl rfl
    | cons => exact ⟨nofun, nofun⟩
  | cons a as tail =>
    intro bs
    cases bs with
    | nil => exact ⟨nofun, nofun⟩
    | cons b bs =>
      have hvalue := ih a List.mem_cons_self b.value
      have hrest := tail (fun c hc => ih c (List.mem_cons_of_mem a hc)) bs
      simp only [sameArgs, canonicalArgs, Bool.and_eq_true, beq_iff_eq, hvalue, hrest,
        List.cons.injEq, Arg.mk.injEq]

/-- Parameters are the same if their names and the canonical trees of their defaults are. -/
theorem sameParams_iff_canonical {ps : List (Param Node)}
    (ih : ∀ p ∈ ps, ∀ b : Node, p.default.same b = true ↔ p.default.canonical = b.canonical) :
    ∀ qs : List (Param Node),
      sameParams ps qs = true ↔ canonicalParams ps = canonicalParams qs := by
  induction ps with
  | nil =>
    intro qs
    cases qs with
    | nil => exact iff_of_true rfl rfl
    | cons => exact ⟨nofun, nofun⟩
  | cons p ps tail =>
    intro qs
    cases qs with
    | nil => exact ⟨nofun, nofun⟩
    | cons q qs =>
      have hdefault := ih p List.mem_cons_self q.default
      have hrest := tail (fun r hr => ih r (List.mem_cons_of_mem p hr)) qs
      simp only [sameParams, canonicalParams, Bool.and_eq_true, beq_iff_eq, hdefault, hrest,
        List.cons.injEq, Param.mk.injEq]

/-- Trees are the same exactly if one canonical tree stands for both. -/
theorem same_iff_canonical {a b : Node} : a.same b = true ↔ a.canonical = b.canonical := by
  induction a using Node.ind generalizing b with
  | constant x p =>
    cases b with
    | constant y q => simpa [same, canonical] using Atom.same_iff_canonical
    | _ => exact ⟨nofun, nofun⟩
  | symbol name p =>
    cases b with
    | symbol name' q => simp [same, canonical]
    | _ => exact ⟨nofun, nofun⟩
  | missing =>
    cases b with
    | missing => exact iff_of_true rfl rfl
    | _ => exact ⟨nofun, nofun⟩
  | call head args p ihhead ihargs =>
    cases b with
    | call head' args' q =>
      have hargs := sameArgs_iff_canonical (fun a ha b => @ihargs a ha b) args'
      simp only [same, canonical, Bool.and_eq_true, @ihhead head', hargs, call.injEq, and_true]
    | _ => exact ⟨nofun, nofun⟩
  | params items p ih =>
    cases b with
    | params items' q =>
      have hitems := sameParams_iff_canonical (fun i hi b => @ih i hi b) items'
      simp only [same, canonical, hitems, params.injEq, and_true]
    | _ => exact ⟨nofun, nofun⟩

mutual

/-- The canonical tree does not depend on positions. -/
theorem canonical_erase : ∀ n : Node, n.erase.canonical = n.canonical
  | .constant _ _ => rfl
  | .symbol _ _ => rfl
  | .missing => rfl
  | .call head args _ => by
    rw [erase, canonical, canonical, canonical_erase head, canonicalArgs_eraseArgs args]
  | .params items _ => by rw [erase, canonical, canonical, canonicalParams_eraseParams items]

theorem canonicalArgs_eraseArgs :
    ∀ args : List (Arg Node), canonicalArgs (eraseArgs args) = canonicalArgs args
  | [] => rfl
  | a :: rest => by
    rw [eraseArgs, canonicalArgs, canonicalArgs, canonical_erase a.value,
      canonicalArgs_eraseArgs rest]

theorem canonicalParams_eraseParams :
    ∀ items : List (Param Node), canonicalParams (eraseParams items) = canonicalParams items
  | [] => rfl
  | p :: rest => by
    rw [eraseParams, canonicalParams, canonicalParams, canonical_erase p.default,
      canonicalParams_eraseParams rest]

end

theorem canonical_of_erase {a b : Node} (h : a.erase = b.erase) : a.canonical = b.canonical := by
  rw [← canonical_erase a, h, canonical_erase]

/-- Trees with the same erasure are the same. -/
theorem same_of_erase {a b : Node} (h : a.erase = b.erase) : a.same b = true :=
  same_iff_canonical.mpr (canonical_of_erase h)

/-- What depends only on the canonical tree does not tell trees apart that are the same. -/
theorem eq_of_same {γ : Type} {f : Node → γ} (hf : ∀ n, f n.canonical = f n) {a b : Node}
    (h : a.same b = true) : f a = f b := by
  rw [← hf a, same_iff_canonical.mp h, hf b]

end Node

/-! ## Layouts -/

namespace Printer

open Node

/-- A double is laid out like the double that stands for it. -/
theorem doubleForm_canonical (x : Float) : doubleForm (Double.canonical x) = doubleForm x := by
  cases h : Double.isNaN x with
  | true => rw [doubleForm, doubleForm, if_pos h, if_pos ((Double.isNaN_canonical x).trans h)]
  | false =>
    -- a double below zero stays below zero, and zero is laid out without a sign
    have hsign : (Double.isNegative (Double.canonical x) && !Double.isZero (Double.canonical x)) =
        (Double.isNegative x && !Double.isZero x) := by
      rw [Double.isNegative_canonical h, Double.isZero_canonical h, Bool.and_assoc, Bool.and_self]
    simp only [doubleForm, Double.isNaN_canonical, hsign, Double.isInfinite_canonical h,
      Double.absolute_canonical h]

theorem atomForm_canonical (a : Atom) : atomForm a.canonical = atomForm a := by
  cases a with
  | double x => exact doubleForm_canonical x
  | _ => rfl

/-- The part with its canonical tree. -/
abbrev canonicalPart (p : Part) : Part := (p.1.canonical, p.2)

theorem isPrefixCall_canonical (n : Node) : isPrefixCall n.canonical = isPrefixCall n := by
  cases n with
  | call head args p =>
    cases head with
    | symbol name q =>
      cases args with
      | nil => rfl
      | cons a rest =>
        obtain ⟨name', value⟩ := a
        cases rest with
        | nil => cases name' with | _ => rfl
        | cons b rest => cases name' with | _ => rfl
    | _ => rfl
  | _ => rfl

theorem alike_canonicalPart (p : Part) : Alike p (canonicalPart p) := by
  obtain ⟨n, f⟩ := p
  refine ⟨name?_canonical n, ?_, isParams_canonical n, ?_, rfl, rfl⟩
  · cases n with
    | constant a => cases a with | _ => rfl
    | _ => rfl
  · have hcall : isCall n.canonical = isCall n := by cases n with | _ => rfl
    rw [isStrict, isStrict, hcall, isPrefixCall_canonical]

theorem alikeArgs_canonical (args : List (Arg Part)) :
    AlikeArgs args (args.map (Arg.map canonicalPart)) := by
  induction args with
  | nil => exact .nil
  | cons a args ih => exact .cons ⟨rfl, alike_canonicalPart a.value⟩ ih

theorem argumentRow_canonical (args : List (Arg Part)) :
    argumentRow (args.map (Arg.map canonicalPart)) = argumentRow args := by
  rw [argumentRow, argumentRow, List.map_map]
  rfl

theorem parameterRow_canonical (items : List (Param Part)) :
    parameterRow (items.map (Param.map canonicalPart)) = parameterRow items := by
  simp only [parameterRow, List.map_map, Function.comp_def, Param.map, isMissing_canonical]

theorem map_unnamed_canonical (parts : List Part) :
    (parts.map unnamed).map (Arg.map canonicalPart) = (parts.map canonicalPart).map unnamed := by
  rw [List.map_map, List.map_map]
  rfl

/-- A call of canonical trees has the form of the call. -/
theorem HasForm.canonical {name : String} {args : List (Arg Part)} {form : Form}
    (h : HasForm name args form) : HasForm name (args.map (Arg.map canonicalPart)) form := by
  cases h with
  | index target rest =>
    have := HasForm.index (canonicalPart target) (rest.map (Arg.map canonicalPart))
    rw [argumentRow_canonical] at this
    exact this
  | doubleIndex target rest =>
    have := HasForm.doubleIndex (canonicalPart target) (rest.map (Arg.map canonicalPart))
    rw [argumentRow_canonical] at this
    exact this
  | block statements =>
    have hsame : (statements.map canonicalPart).map Prod.snd = statements.map Prod.snd :=
      List.map_map
    have := HasForm.block (statements.map canonicalPart)
    rw [hsame] at this
    rw [map_unnamed_canonical]
    exact this
  | group inner => exact .group (canonicalPart inner)
  | conditional condition body =>
    exact .conditional (canonicalPart condition) (canonicalPart body)
  | alternative condition body other =>
    exact .alternative (canonicalPart condition) (canonicalPart body) (canonicalPart other)
  | forLoop variableName p f sequence body =>
    exact .forLoop variableName .nowhere f (canonicalPart sequence) (canonicalPart body)
  | whileLoop condition body => exact .whileLoop (canonicalPart condition) (canonicalPart body)
  | repeatLoop body => exact .repeatLoop (canonicalPart body)
  | definition items p f body =>
    exact .definition (canonicalParams items) .nowhere f (canonicalPart body)
  | breakJump => exact .breakJump
  | nextJump => exact .nextJump
  | @unary _ power operand hp =>
    have := HasForm.unary (canonicalPart operand) hp
    have hstrict : (isCall operand.1.canonical && !isPrefixCall operand.1.canonical) =
        (isCall operand.1 && !isPrefixCall operand.1) := (alike_canonicalPart operand).isStrict
    simp only [unaryForm, hstrict] at this
    exact this
  | selection left right hm hb hright =>
    exact .selection (canonicalPart left) (canonicalPart right) hm hb
      ((alike_canonicalPart right).isMember.trans hright)
  | qualified left right hq hb hleft hright =>
    exact .qualified (canonicalPart left) (canonicalPart right) hq hb
      ((alike_canonicalPart left).isMember.trans hleft)
      ((alike_canonicalPart right).isMember.trans hright)
  | binary left right hb hm hq hn =>
    exact .binary (canonicalPart left) (canonicalPart right) hb hm hq hn

theorem specialForm?_canonical (name : String) (args : List (Arg Part)) :
    specialForm? name (args.map (Arg.map canonicalPart)) = specialForm? name args := by
  cases h : specialForm? name args with
  | none => exact specialForm?_eq_none_of_alike (alikeArgs_canonical args) h
  | some form => exact specialForm?_eq_some.mpr (specialForm?_eq_some.mp h).canonical

/-- A tree is laid out like its canonical tree. -/
theorem fragment_canonical (n : Node) : fragment n.canonical = fragment n := by
  induction n using Node.ind with
  | constant a p => exact congrArg Form.fragment (atomForm_canonical a)
  | symbol => rfl
  | missing => rfl
  | call head args p ihhead ihargs =>
    have hargs : fragmentArgs (args.map (Arg.map canonical)) =
        (fragmentArgs args).map (Arg.map canonicalPart) := by
      rw [fragmentArgs_eq_map, fragmentArgs_eq_map, List.map_map, List.map_map]
      exact List.map_congr_left fun a ha => by
        simp only [Function.comp_apply, Arg.map, part, ihargs a ha]
    rw [canonical_call, fragment, fragment, hargs, ihhead]
    cases head with
    | symbol name q =>
      simp only [Node.canonical, callFragment, prefixForm, argumentRow_canonical,
        specialForm?_canonical]
    | _ => simp only [Node.canonical, callFragment, prefixForm, argumentRow_canonical]
  | params items p ih =>
    have hitems : fragmentParams (items.map (Param.map canonical)) =
        (fragmentParams items).map (Param.map canonicalPart) := by
      rw [fragmentParams_eq_map, fragmentParams_eq_map, List.map_map, List.map_map]
      exact List.map_congr_left fun i hi => by
        simp only [Function.comp_apply, Param.map, part, ih i hi]
    rw [canonical_params, fragment, fragment, hitems, parameterRow_canonical]

/-- Trees that are the same are laid out the same. -/
theorem fragment_of_same {a b : Node} (h : a.same b = true) : fragment a = fragment b :=
  eq_of_same fragment_canonical h

end Printer

end RCode
