import RCode.Proofs.Expansion.Substitution

/-!
# The order of an expansion

The markers of a tree are replaced in the order of a walk: those of the head of a call before those
of its arguments, these from left to right, and the defaults of parameters in order. `replacements`
lists them with their hosts, without the markers that stand inside of others, and an expansion fails
with the error of the first one that fails (`failure?_expandAt`).
-/

set_option autoImplicit false

namespace RCode

namespace Expansion

/-- A marker of a tree that is replaced on its own. -/
inductive Replacement where
  /-- An escape, with its arguments and its position. -/
  | escape (site : Site) (args : List (Arg Node)) (position : Position)
  /-- A splice among arguments, with its own name as an argument. -/
  | splice (name : Option String) (args : List (Arg Node)) (position : Position)
  /-- A splice that is no argument. -/
  | misplaced (position : Position)

/-- Why a marker cannot be replaced: it is misplaced or named, it has not one operand without a name,
the operand has no value, the value has no tree, or the tree cannot stand at the site. Of the items
of a splice the first one that cannot be inserted counts. -/
def Replacement.failure? (m : Markers) (c : Context) (h : Host) :
    Replacement → Option ExpansionError
  | .escape site args p => RCode.failure? (unquote m h c args p >>= site.check m p)
  | .splice (some name) _ p => some (.ofMarker (.namedSplice (m.splice.getD "") name) p)
  | .splice none args p =>
    match operandValue h c (m.splice.getD "") p args with
    | .error e => some e
    | .ok v => (spliceItems v).findSome? fun item => RCode.failure? (insertedArg p item.1 item.2)
  | .misplaced p => some (.ofMarker (.misplacedSplice (m.splice.getD "")) p)

mutual

/-- The outermost markers of a tree in the order of the walk, each of them with its host. -/
def replacements (m : Markers) (h : Host) (site : Site) : Node → List (Host × Replacement)
  | .call head args p =>
    if m.isEscape head then [(h, .escape site args p)]
    else if m.isSplice head then [(h, .misplaced p)]
    else replacements m (h.under 0) .head head ++ replacementsArgs m h.arguments args
  | .params items _ => replacementsParams m h.arguments items
  | _ => []

/-- The outermost markers of arguments, from left to right. -/
def replacementsArgs (m : Markers) (hs : Nat → Host) : List (Arg Node) → List (Host × Replacement)
  | [] => []
  | a :: rest =>
    (match splice? m a.value with
      | some (_, args, p) => [(hs 0, .splice a.name args p)]
      | none => replacements m (hs 0) .argument a.value) ++
        replacementsArgs m (fun i => hs (i + 1)) rest

/-- The outermost markers of the defaults of parameters, in order. -/
def replacementsParams (m : Markers) (hs : Nat → Host) :
    List (Param Node) → List (Host × Replacement)
  | [] => []
  | q :: rest =>
    replacements m (hs 0) .free q.default ++ replacementsParams m (fun i => hs (i + 1)) rest

end

/-- The error of the first marker that cannot be replaced. -/
def firstFailure? (m : Markers) (c : Context) (rs : List (Host × Replacement)) :
    Option ExpansionError :=
  rs.findSome? fun x => x.2.failure? m c x.1

variable {m : Markers} {c : Context}

/-- Of two rows of markers the first one that fails counts. -/
theorem firstFailure?_append (xs ys : List (Host × Replacement)) :
    firstFailure? m c (xs ++ ys) = (firstFailure? m c xs).or (firstFailure? m c ys) :=
  List.findSome?_append

theorem failure?_splicedArgs (h : Host) (args : List (Arg Node)) (p : Position) :
    failure? (splicedArgs h c (m.splice.getD "") args p) =
      Replacement.failure? m c h (.splice none args p) := by
  rw [splicedArgs, Replacement.failure?]
  cases operandValue h c (m.splice.getD "") p args with
  | error e => rfl
  | ok v => exact failure?_mapM (fun item => insertedArg p item.1 item.2) (spliceItems v)

theorem failure?_expandArgs {args : List (Arg Node)}
    (ih : ∀ a ∈ args, ∀ h, failure? (expandAt m h c .argument a.value) =
      firstFailure? m c (replacements m h .argument a.value)) :
    ∀ hs, failure? (expandArgs m hs c args) = firstFailure? m c (replacementsArgs m hs args) := by
  induction args with
  | nil => exact fun _ => rfl
  | cons a rest tail =>
    obtain ⟨iha, ihrest⟩ := List.forall_mem_cons.mp ih
    intro hs
    rw [expandArgs_cons, replacementsArgs, firstFailure?_append, ← tail ihrest]
    refine (failure?_both (expandArg m (hs 0) c a) (expandArgs m _ c rest) (· ++ ·)).trans ?_
    congr 1
    unfold expandArg
    cases hcall : splice? m a.value with
    | some call =>
      obtain ⟨splice, args, p⟩ := call
      obtain ⟨rfl, -⟩ := splice?_eq_some hcall
      rw [firstFailure?, List.findSome?_singleton]
      cases a.name with
      | some name => rfl
      | none => exact failure?_splicedArgs (hs 0) args p
    | none =>
      dsimp only
      rw [← iha]
      cases expandAt m (hs 0) c .argument a.value with
      | error e => rfl
      | ok value => rfl

theorem failure?_expandParams {items : List (Param Node)}
    (ih : ∀ q ∈ items, ∀ h, failure? (expandAt m h c .free q.default) =
      firstFailure? m c (replacements m h .free q.default)) :
    ∀ hs, failure? (expandParams m hs c items) =
      firstFailure? m c (replacementsParams m hs items) := by
  induction items with
  | nil => exact fun _ => rfl
  | cons q rest tail =>
    obtain ⟨ihq, ihrest⟩ := List.forall_mem_cons.mp ih
    intro hs
    rw [expandParams, replacementsParams, firstFailure?_append, ← tail ihrest, ← ihq]
    exact failure?_both (expandAt m (hs 0) c .free q.default) (expandParams m _ c rest)
      fun default' rest' => ⟨q.name, default'⟩ :: rest'

/-- An expansion fails with the error of the first marker that fails, and with no other error. -/
theorem failure?_expandAt (n : Node) : ∀ h site,
    failure? (expandAt m h c site n) = firstFailure? m c (replacements m h site n) := by
  induction n using Node.ind with
  | constant a p => exact fun _ _ => rfl
  | symbol name p => exact fun _ _ => rfl
  | missing => exact fun _ _ => rfl
  | params items p ih =>
    intro h site
    rw [expandAt, replacements, ← failure?_expandParams fun q hq h => ih q hq h .free]
    cases expandParams m h.arguments c items with
    | error e => rfl
    | ok items' => rfl
  | call head args p ihHead ihArgs =>
    intro h site
    rw [replacements]
    cases he : m.isEscape head with
    | true =>
      rw [expandAt_escape he, if_pos rfl, firstFailure?, List.findSome?_singleton]
      rfl
    | false =>
      rw [if_neg Bool.false_ne_true]
      cases hs : m.isSplice head with
      | true =>
        rw [expandAt_misplaced he hs, if_pos rfl, firstFailure?, List.findSome?_singleton]
        rfl
      | false =>
        rw [expandAt_call he hs, if_neg Bool.false_ne_true, firstFailure?_append, ← ihHead,
          ← failure?_expandArgs fun a ha h => ihArgs a ha h .argument]
        exact failure?_both (expandAt m (h.under 0) c .head head) (expandArgs m h.arguments c args)
          fun head' args' => Node.call head' args' p

end Expansion

end RCode
