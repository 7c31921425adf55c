import RCode.Expansion
import RCode.Proofs.Failure

/-!
# The rules of expansion

What becomes of a call depends on what its head marks it as, and what becomes of an argument on
whether it is a splice (`expandArg`). Proofs about expansion start from the equations here, one for
each case.
-/

set_option autoImplicit false

namespace RCode.Expansion

/-- What stands for an argument: several arguments for a splice, one for any other. -/
def expandArg (m : Markers) (h : Host) (c : Context) (a : Arg Node) :
    Except ExpansionError (List (Arg Node)) :=
  match splice? m a.value with
  | some (splice, args, p) => unsplice h c a.name splice args p
  | none => (expandAt m h c .argument a.value).map fun value => [⟨a.name, value⟩]

variable {m : Markers} {h : Host} {hs : Nat → Host} {c : Context}

/-! ## Calls -/

theorem expandAt_escape {head : Node} (he : m.isEscape head = true) (site : Site)
    (args : List (Arg Node)) (p : Position) :
    expandAt m h c site (.call head args p) = unquote m h c args p >>= site.check m p := by
  rw [expandAt, if_pos he]

theorem expandAt_misplaced {head : Node} (he : m.isEscape head = false)
    (hs : m.isSplice head = true) (site : Site) (args : List (Arg Node)) (p : Position) :
    expandAt m h c site (.call head args p) =
      .error (.ofMarker (.misplacedSplice (m.splice.getD "")) p) := by
  rw [expandAt, he, hs]
  rfl

/-- A call that is no marker is expanded part by part, and stands where it stood. -/
theorem expandAt_call {head : Node} (he : m.isEscape head = false) (hs : m.isSplice head = false)
    (site : Site) (args : List (Arg Node)) (p : Position) :
    expandAt m h c site (.call head args p) =
      (do
        let head' ← expandAt m (h.under 0) c .head head
        let args' ← expandArgs m h.arguments c args
        return .call head' args' p) := by
  rw [expandAt, he, hs]
  rfl

/-! ## Rows of arguments -/

/-- Arguments are expanded one by one, and what stands for them is put in a row. -/
theorem expandArgs_cons (a : Arg Node) (rest : List (Arg Node)) :
    expandArgs m hs c (a :: rest) =
      (do
        let new ← expandArg m (hs 0) c a
        let rest' ← expandArgs m (fun i => hs (i + 1)) c rest
        return new ++ rest') := by
  rw [expandArgs]
  unfold expandArg
  cases splice? m a.value with
  | none => rfl
  | some call => rfl

theorem expandArgs_append (xs ys : List (Arg Node)) :
    expandArgs m hs c (xs ++ ys) =
      (do
        let xs' ← expandArgs m hs c xs
        let ys' ← expandArgs m (fun i => hs (i + xs.length)) c ys
        return xs' ++ ys') := by
  induction xs generalizing hs with
  | nil =>
    rw [expandArgs, ok_bind]
    exact (bind_pure _).symm
  | cons a rest ih =>
    simp only [List.cons_append, expandArgs_cons, ih, bind_assoc, pure_bind, List.append_assoc]
    rfl

/-- Of the hosts only those of the arguments count. -/
theorem expandArgs_congr {hs' : Nat → Host} {args : List (Arg Node)}
    (heq : ∀ i < args.length, hs' i = hs i) : expandArgs m hs' c args = expandArgs m hs c args := by
  induction args generalizing hs hs' with
  | nil => rfl
  | cons a rest ih =>
    have hrest := ih fun i hi => heq (i + 1) (Nat.succ_lt_succ hi)
    rw [expandArgs_cons, expandArgs_cons, heq 0 (Nat.zero_lt_succ _), hrest]

theorem splice?_of_isSplice {head : Node} (hs : m.isSplice head = true) (args : List (Arg Node))
    (p : Position) : splice? m (.call head args p) = some (m.splice.getD "", args, p) := by
  obtain ⟨s, hsplice⟩ := Option.isSome_iff_exists.mp (Bool.and_eq_true_iff.mp hs).1
  simp [splice?, hs, hsplice]

theorem splice?_of_not_isSplice {head : Node} (hs : m.isSplice head = false)
    (args : List (Arg Node)) (p : Position) : splice? m (.call head args p) = none := by
  simp only [splice?, hs, Bool.false_eq_true, if_false]

theorem splice?_eq_some {n : Node} {splice : String} {args : List (Arg Node)} {p : Position}
    (hn : splice? m n = some (splice, args, p)) :
    splice = m.splice.getD "" ∧ ∃ head, m.isSplice head = true ∧ n = .call head args p := by
  cases n with
  | call head args' q =>
    cases hs : m.isSplice head with
    | true =>
      rw [splice?_of_isSplice hs] at hn
      cases hn
      exact ⟨rfl, head, hs, rfl⟩
    | false => rw [splice?_of_not_isSplice hs] at hn; cases hn
  | _ => cases hn

/-- A splice among arguments has no name, and stands for what its value stands for. -/
theorem expandArg_splice {head : Node} (hs : m.isSplice head = true) (name : Option String)
    (args : List (Arg Node)) (p : Position) :
    expandArg m h c ⟨name, .call head args p⟩ =
      unsplice h c name (m.splice.getD "") args p := by
  unfold expandArg
  rw [splice?_of_isSplice hs]

/-- Any other argument stands for one argument of the same name. -/
theorem expandArg_one {a : Arg Node} (ha : splice? m a.value = none) :
    expandArg m h c a =
      (expandAt m h c .argument a.value).map fun value => [⟨a.name, value⟩] := by
  unfold expandArg
  rw [ha]

end RCode.Expansion
