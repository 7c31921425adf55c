import RCode.Proofs.Value.WellFormed

/-!
# Functions on well-formed values

The functions of the base environment make well-formed values of well-formed ones. When they fail,
they fail for a reason of their own (`Builtin.apply_ends`): only the tools on trees meet values
without trees and texts that cannot be read.
-/

set_option autoImplicit false

namespace RCode

/-- The function fails by itself: it cannot be applied to its values, or what it builds of them does
not fit. -/
def FunctionError.IsFailure : FunctionError → Prop
  | .failure _ | .refused _ => True
  | _ => False

namespace Signature

/-- The values given to a function are well formed. -/
structure Given.WellFormed (g : Given) : Prop where
  positional : ∀ v ∈ g.positional, v.WellFormed
  named : ∀ e ∈ g.named, e.value.WellFormed

variable {g : Given}

/-- The value of a parameter is one of the given ones. -/
theorem Given.WellFormed.value? (h : g.WellFormed) (s : Signature) {name : String} {v : Value}
    (hv : s.value? g name = some v) : v.WellFormed := by
  rcases Option.or_eq_some_iff.mp hv with hv | ⟨-, hv⟩
  · obtain ⟨i, -, hv⟩ := Option.bind_eq_some_iff.mp hv
    exact h.positional v (List.mem_of_getElem? hv)
  · exact Entry.of_find? h.named hv

/-- A function with named parameters takes well-formed values, or it fails. -/
theorem bind_ends {s : Signature} {body : (String → Option Value) → Applied} (h : g.WellFormed)
    (hbody : ∀ values : String → Option Value,
      (∀ name v, values name = some v → v.WellFormed) →
        Ends FunctionError.IsFailure Value.WellFormed (body values)) :
    Ends FunctionError.IsFailure Value.WellFormed (s.bind g body) := by
  unfold bind
  split
  · exact hbody (s.value? g) fun name v hv => h.value? s hv
  · exact .error trivial

end Signature

namespace Application

open Signature

/-- Applied to well-formed values, the function gives one or fails for a reason of its own. -/
abbrev Sound (x : Applied) : Prop :=
  Ends FunctionError.IsFailure Value.WellFormed x

variable {g : Given}

theorem sound_failure (cause : Failure) : Sound (.error (.failure cause)) :=
  .error trivial

theorem sound_atom (a : Atom) : Sound (.ok (.atom a)) :=
  .ok (.atom a)

theorem sound_lift {x : Except Failure Value} (h : ∀ v, x = .ok v → v.WellFormed) :
    Sound (lift x) := by
  cases x with
  | error cause => exact sound_failure cause
  | ok v => exact .ok (h v rfl)

theorem sound_need {v : Option Value} (h : ∀ a, v = some a → a.WellFormed) : Sound (need v) := by
  cases v with
  | none => exact sound_failure _
  | some a => exact .ok (h a rfl)

/-- The operation makes well-formed values of two well-formed ones. -/
def Keeps (op : Value → Value → Except Failure Value) : Prop :=
  ∀ {a b v : Value}, a.WellFormed → b.WellFormed → op a b = .ok v → v.WellFormed

theorem sound_binary {op : Value → Value → Except Failure Value} (h : g.WellFormed)
    (hop : Keeps op) : Sound (binary op g) := by
  refine bind_ends h fun values hvalues => ?_
  refine (sound_need (hvalues "a")).bind fun a _ ha => ?_
  refine (sound_need (hvalues "b")).bind fun b _ hb => ?_
  exact sound_lift fun v => hop ha hb

theorem sound_positionalBinary {op : Value → Value → Except Failure Value} (h : g.WellFormed)
    (hop : Keeps op) : Sound (positionalBinary op g) := by
  unfold positionalBinary
  split
  · next a b =>
    obtain ⟨ha, hrest⟩ := List.forall_mem_cons.mp h.positional
    exact sound_lift fun v => hop ha (List.forall_mem_singleton.mp hrest)
  · exact sound_failure _

theorem sound_signed {one : Value → Except Failure Value}
    {two : Value → Value → Except Failure Value} (h : g.WellFormed)
    (hone : ∀ {a v : Value}, a.WellFormed → one a = .ok v → v.WellFormed) (htwo : Keeps two) :
    Sound (signed one two g) := by
  refine bind_ends h fun values hvalues => ?_
  refine (sound_need (hvalues "a")).bind fun a _ ha => ?_
  have hb : ((values "b").getD .null).WellFormed := by
    cases hvalue : values "b" with
    | none => exact .atom _
    | some b => exact hvalues "b" b hvalue
  dsimp only
  split
  · exact sound_lift fun v => hone ha
  · exact sound_lift fun v => htwo ha hb

theorem sound_variadic {op : List Value → Except Failure Value} (h : g.WellFormed)
    (hop : ∀ {values : List Value} {v : Value}, (∀ v ∈ values, v.WellFormed) →
      op values = .ok v → v.WellFormed) : Sound (variadic op g) := by
  unfold variadic
  split
  · exact sound_lift fun v => hop h.positional
  · exact sound_failure _

/-- A truth is a value. -/
theorem keeps_logical {test : Value → Value → Except Failure Bool} :
    Keeps fun a b => (test a b).map .logical := by
  intro a b v _ _ h
  dsimp only at h
  cases htest : test a b with
  | error cause => rw [htest] at h; cases h
  | ok truth =>
    rw [htest] at h
    cases h
    exact .atom _

/-- The symbol with a name can only fail to have one. -/
theorem sound_symbolOf (name : Value) (p : Position) : Sound (symbolOf name p) := by
  unfold symbolOf
  split
  · next s =>
    unfold Node.ofName
    split
    · exact .error trivial
    · next hname => exact .ok (.node hname)
  · exact .error trivial

end Application

namespace Builtin

open Signature Application

/-- The functions of the base environment make well-formed values of well-formed ones, and fail only
for reasons of their own. -/
theorem apply_ends {f : Builtin} (hf : f ∈ base.map Prod.snd) {positional : List Value}
    {named : List (Entry Value)} (hpositional : ∀ v ∈ positional, v.WellFormed)
    (hnamed : ∀ e ∈ named, e.value.WellFormed) (w : Workspace) :
    Sound (f.apply w positional named) := by
  have h : Given.WellFormed ⟨positional, named⟩ := ⟨hpositional, hnamed⟩
  cases f with
  | add => exact sound_signed h Value.wellFormed_plus Value.wellFormed_add
  | subtract =>
    exact sound_signed h (fun _ => Value.wellFormed_minus) fun _ _ => Value.wellFormed_numeric
  | multiply => exact sound_positionalBinary h Value.wellFormed_multiply
  | divide => exact sound_binary h fun _ _ => Value.wellFormed_divide
  | power => exact sound_binary h fun _ _ => Value.wellFormed_power
  | modulo => exact sound_binary h fun _ _ => Value.wellFormed_modulo
  | floorDivide => exact sound_binary h fun _ _ => Value.wellFormed_floorDivide
  | equal | notEqual =>
    refine sound_positionalBinary h fun _ _ heq => ?_
    cases heq
    exact .atom _
  | less | greater | lessEqual | greaterEqual => exact sound_positionalBinary h keeps_logical
  | negation =>
    unfold apply
    dsimp only
    split
    · exact sound_atom _
    · exact sound_failure _
  | conjunction | conjunctionTwice | disjunction | disjunctionTwice =>
    refine sound_binary h fun _ _ heq => ?_
    cases heq
    exact .atom _
  | combine =>
    unfold apply
    dsimp only
    refine sound_variadic h fun hvalues heq => ?_
    cases heq
    exact Value.wellFormed_combine hvalues
  | list =>
    have hvalues : ∀ v ∈ positional ++ named.map Entry.value, v.WellFormed :=
      List.forall_mem_append.mpr ⟨hpositional, List.forall_mem_map.mpr hnamed⟩
    unfold apply
    dsimp only
    split
    · exact .ok (.dict hnamed)
    · exact .ok (.list hvalues)
  | paste =>
    unfold apply
    dsimp only
    split
    · split
      · exact sound_lift fun v => Value.wellFormed_paste
      · exact sound_failure _
    · exact sound_failure _
  | pasteTight => exact sound_variadic h fun _ => Value.wellFormed_paste
  | length =>
    unfold apply
    dsimp only
    refine bind_ends h fun values hvalues => ?_
    exact (sound_need (hvalues "value")).bind fun v _ _ => sound_atom _
  | sum => exact sound_variadic h fun hvalues => Value.wellFormed_sum hvalues
  | asName =>
    unfold apply
    dsimp only
    refine bind_ends h fun values hvalues => ?_
    exact (sound_need (hvalues "name")).bind fun name _ _ => sound_symbolOf name _
  | parseExpression | buildCall | makeSymbol | quoteValue | renderNode =>
    exact absurd hf (by decide)

end Builtin

end RCode
