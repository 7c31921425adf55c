import RCode.Proofs.Evaluation.Isolation
import RCode.Proofs.Expansion.Order

/-!
# Quasiquotation

The expansion of a well-formed tree is the substitution of its markers, each of which is evaluated
on its own; if it fails, it fails for the first marker that cannot be replaced; and a splice of a
list is as good as one escape for each item (`Node.expand_substitutes`).
-/

set_option autoImplicit false

namespace RCode

namespace Expansion

variable {m : Markers} {c : Context}

/-! ## A splice of a list -/

/-- An argument without a name has a tree that is not missing, and no other condition. -/
theorem insertedArg_none (p : Position) (v : Value) :
    insertedArg p none v =
      (do return ⟨none, ← (← v.quote.mapError .node) |> checkArgument p⟩) := by
  unfold insertedArg checkArgument
  cases v.quote with
  | error e => rfl
  | ok n =>
    cases h : n.isMissing with
    | true => simp [Except.mapError, ok_bind, h, error_bind]
    | false => simp [Except.mapError, ok_bind, h, Arg.build]

/-- Escapes among arguments insert the values of their operands, one after another. -/
theorem expandArgs_escapes (hm : m.splice ≠ some m.escape) {head : Node}
    (he : m.isEscape head = true) (p : Position) {es : List Node} {vs : List Value}
    {hs : Nat → Host}
    (hvs : List.Forall₂ (fun x v => Node.evaluate x.2 x.1 c = .ok v) (Host.row hs es) vs) :
    expandArgs m hs c (es.map fun e => ⟨none, .call head [⟨none, e⟩] p⟩) =
      vs.mapM (insertedArg p none) := by
  induction es generalizing hs vs with
  | nil =>
    cases hvs
    rfl
  | cons e es ih =>
    rw [Host.row_cons] at hvs
    obtain _ | @⟨_, v, _, _, hv, hvs⟩ := hvs
    have hone : splice? m (.call head [⟨none, e⟩] p) = none :=
      splice?_of_not_isSplice (isSplice_eq_false_of_isEscape hm he) _ p
    have hunquote : unquote m (hs 0) c [⟨none, e⟩] p = v.quote.mapError .node := by
      simp only [unquote, operandValue, operand, ok_bind, hv, Except.mapError]
    have hfirst : expandArg m (hs 0) c ⟨none, .call head [⟨none, e⟩] p⟩ =
        (insertedArg p none v).map fun a => [a] := by
      rw [expandArg_one hone, expandAt_escape he, hunquote, insertedArg_none]
      cases v.quote with
      | error e => rfl
      | ok n =>
        simp only [Except.mapError, ok_bind, Site.check]
        cases checkArgument p n with
        | error e => rfl
        | ok n => rfl
    rw [List.map_cons, expandArgs_cons, ih hvs, hfirst, List.mapM_cons]
    cases insertedArg p none v with
    | error e => rfl
    | ok a => rfl

/-- A splice of a list among arguments is as good as an escape for each item, where the arguments
around have the same hosts. -/
theorem expandArgs_splice (hm : m.splice ≠ some m.escape) {spliceHead escapeHead : Node}
    (hs : m.isSplice spliceHead = true) (he : m.isEscape escapeHead = true) (p : Position)
    {e : Node} {es : List Node} {vs : List Value} {before : List (Arg Node)}
    {hosts hosts' : Nat → Host}
    (hbefore : ∀ i < before.length, hosts' i = hosts i)
    (hafter : ∀ i, hosts' (i + es.length + before.length) = hosts (i + 1 + before.length))
    (hv : e.evaluate (hosts before.length) c = .ok (.list vs))
    (hvs : List.Forall₂ (fun x v => Node.evaluate x.2 x.1 c = .ok v)
      (Host.row (fun i => hosts' (i + before.length)) es) vs) (after : List (Arg Node)) :
    expandArgs m hosts c (before ++ ⟨none, .call spliceHead [⟨none, e⟩] p⟩ :: after) =
      expandArgs m hosts' c
        (before ++ (es.map fun e => ⟨none, .call escapeHead [⟨none, e⟩] p⟩) ++ after) := by
  have hspliced : expandArg m (hosts (0 + before.length)) c
      ⟨none, .call spliceHead [⟨none, e⟩] p⟩ = vs.mapM (insertedArg p none) := by
    rw [expandArg_splice hs, Nat.zero_add]
    simp only [unsplice, splicedArgs, operandValue, operand, ok_bind, hv, Except.mapError,
      spliceItems, List.mapM_map]
    rfl
  rw [List.append_assoc, expandArgs_append, expandArgs_append, expandArgs_append,
    expandArgs_congr hbefore, expandArgs_escapes hm he p hvs, expandArgs_cons, hspliced]
  simp only [List.length_map, hafter]

end Expansion

namespace Machine

/-- Trees that are evaluated one after another in one memory have the values that they have in the
context that lies there, whatever those before them did. -/
theorem outcome_mapM_run {callbacks : Callbacks} {c : Context} {k : Chain}
    (operands : List (Host × Node)) (hhonest : ∀ x ∈ operands, callbacks.Honest x.1) {mem : Memory}
    (hk : ∀ a ∈ k.addresses, a < mem.frames.length) (hc : mem.context k = c) :
    (outcome (operands.mapM fun x => run callbacks x.1 k none x.2) mem).1 =
      operands.mapM fun x : Host × Node => x.2.evaluate x.1 c := by
  induction operands generalizing mem with
  | nil => rfl
  | cons x rest ih =>
    obtain ⟨hx, hrest⟩ := List.forall_mem_cons.mp hhonest
    obtain ⟨hresult, hkeeps⟩ := outcome_run x.2 hx hk
    rw [hc] at hresult
    rw [List.mapM_cons, List.mapM_cons, outcome_bind, ← hresult]
    generalize outcome (run callbacks x.1 k none x.2) mem = r at hkeeps
    obtain ⟨result, mem'⟩ := r
    cases result with
    | error e => rfl
    | ok v =>
      have hk' : ∀ a ∈ k.addresses, a < mem'.frames.length :=
        fun a ha => Nat.lt_of_lt_of_le (hk a ha) hkeeps.grows
      have hc' : mem'.context k = c := (hkeeps.context_eq hk).trans hc
      rw [ok_bind, ← ih hrest hk' hc']
      dsimp only
      rw [outcome_bind]
      generalize outcome (rest.mapM fun x => run callbacks x.1 k none x.2) mem' = r
      obtain ⟨result, mem''⟩ := r
      cases result with
      | error e => rfl
      | ok vs => rfl

end Machine

namespace Node

/-- Quasiquotation is substitution. A well-formed tree is expanded to a tree if and only if that tree
is the first one with its outermost markers replaced by what the values of their operands stand for.
It fails with an error if and only if that is the error of the first marker, in the order of the
walk, that cannot be replaced. A splice of a list gives what one escape for each item gives, in any
call that is no marker, where the other arguments keep their hosts. The operands are evaluated
independently: also where contexts are cells of a memory that assignments write, and the functions of
the caller are steps that write there, each has the value that it has on its own. -/
theorem expand_substitutes (n : Node) (h : Host) (c : Context) (m : Markers) (hn : n.WellFormed)
    (hm : m.splice ≠ some m.escape) :
    (∀ new, n.expand h c m = .ok new ↔ Expansion.Substituted m c h .free n new) ∧
      (∀ e, n.expand h c m = .error e ↔
        Expansion.firstFailure? m c (Expansion.replacements m h .free n) = some e) ∧
      (∀ (h h' : Host) (head spliceHead escapeHead : Node) (e : Node) (es : List Node)
        (vs : List Value) (before after : List (Arg Node)) (p q : Position),
        m.isEscape head = false → m.isSplice head = false →
        m.isSplice spliceHead = true → m.isEscape escapeHead = true →
        (∀ i ≤ before.length, h'.under i = h.under i) →
        (∀ i, h'.arguments (i + es.length + before.length) = h.arguments (i + 1 + before.length)) →
        e.evaluate (h.arguments before.length) c = .ok (.list vs) →
        List.Forall₂ (fun x v => Node.evaluate x.2 x.1 c = .ok v)
          (Host.row (fun i => h'.arguments (i + before.length)) es) vs →
        ∀ site, Expansion.expandAt m h c site
            (.call head (before ++ ⟨none, .call spliceHead [⟨none, e⟩] p⟩ :: after) q) =
          Expansion.expandAt m h' c site
            (.call head
              (before ++ (es.map fun e => ⟨none, .call escapeHead [⟨none, e⟩] p⟩) ++ after) q)) ∧
      (∀ (callbacks : Callbacks) (mem : Memory) (k : Chain),
        (∀ a ∈ k.addresses, a < mem.frames.length) → mem.context k = c →
        ∀ operands : List (Host × Node), (∀ x ∈ operands, callbacks.Honest x.1) →
          (Machine.outcome (operands.mapM fun x => Machine.run callbacks x.1 k none x.2) mem).1 =
            operands.mapM fun x : Host × Node => x.2.evaluate x.1 c) := by
  refine ⟨fun new => ?_, fun e => ?_, ?_, fun callbacks mem k hk hc operands hhonest => ?_⟩
  · exact Expansion.expandAt_eq_ok_iff hm n hn h .free new
  · rw [expand, ← failure?_eq_some, Expansion.failure?_expandAt]
  · intro h h' head spliceHead escapeHead e es vs before after p q he hs hsplice hescape hbefore
      hafter hv hvs site
    have hbefore' : ∀ i < before.length, h'.arguments i = h.arguments i :=
      fun i hi => hbefore (i + 1) hi
    have hsplice := Expansion.expandArgs_splice hm hsplice hescape p hbefore' hafter hv hvs after
    rw [Expansion.expandAt_call he hs, Expansion.expandAt_call he hs, hsplice,
      hbefore 0 (Nat.zero_le _)]
  · exact Machine.outcome_mapM_run operands hhonest hk hc

/-- The call `f(.(a), ..(b), k = .(d))` where `b` is a list of a tree and a number, with `d` bound
and without. -/
theorem expand_substitutes_call :
    let marked (marker name : String) : Node :=
      .call (.symbol marker .nowhere) [⟨none, .symbol name .nowhere⟩] ⟨1, 3⟩
    let n : Node := .call (.symbol "f" .nowhere)
      [⟨none, marked "." "a"⟩, ⟨none, marked ".." "b"⟩, ⟨some "k", marked "." "d"⟩] ⟨1, 1⟩
    let known : Frame :=
      [⟨"a", .list [.text "s"]⟩, ⟨"b", .list [.node (.symbol "y" ⟨2, 7⟩), .integer 3]⟩]
    let new : Node := .call (.symbol "f" .nowhere)
      [⟨none, .constant (.text "s") .nowhere⟩, ⟨none, .symbol "y" ⟨2, 7⟩⟩,
        ⟨none, .constant (.integer 3) .nowhere⟩, ⟨some "k", .constant .null .nowhere⟩] ⟨1, 1⟩
    let h := Host.plain 100
    n.WellFormed ∧ ({} : Markers).splice ≠ some ({} : Markers).escape ∧
      Expansion.Substituted {} ⟨⟨"d", .null⟩ :: known, []⟩ h .free n new ∧
      Expansion.firstFailure? {} ⟨known, []⟩ (Expansion.replacements {} h .free n) =
        some (.evaluation (.unbound "d")) := by
  intro marked n known new h
  have hn : n.WellFormed := by
    simp [n, marked, Node.WellFormed, Node.WellFormedArgs, Node.isMissing, Node.isParams]
  have hm : ({} : Markers).splice ≠ some ({} : Markers).escape := by decide
  refine ⟨hn, hm, ?_, ?_⟩
  · exact ((expand_substitutes n h ⟨⟨"d", .null⟩ :: known, []⟩ {} hn hm).1 new).mp rfl
  · exact ((expand_substitutes n h ⟨known, []⟩ {} hn hm).2.1 _).mp rfl

end Node

end RCode
