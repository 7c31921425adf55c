import Mathlib.Data.List.Forall2

/-!
# Computations that can fail

How computations with errors are taken apart: a sequence succeeds with the results of its parts, and
fails with the first error among them.
-/

set_option autoImplicit false

namespace RCode

/-- The error of a computation that fails. -/
def failure? {ε α : Type} : Except ε α → Option ε
  | .error e => some e
  | .ok _ => none

section

variable {ε α β γ : Type}

/-- A computation that goes on after a success is what it goes on with. -/
theorem ok_bind (a : α) (f : α → Except ε β) : (Except.ok a >>= f) = f a := rfl

theorem error_bind (e : ε) (f : α → Except ε β) : (Except.error e >>= f) = .error e := rfl

theorem bind_eq_ok {x : Except ε α} {f : α → Except ε β} {b : β} (h : (x >>= f) = .ok b) :
    ∃ a, x = .ok a ∧ f a = .ok b := by
  cases x with
  | error e => cases h
  | ok a => exact ⟨a, rfl, h⟩

theorem bind_eq_ok_iff {x : Except ε α} {f : α → Except ε β} {b : β} :
    (x >>= f) = .ok b ↔ ∃ a, x = .ok a ∧ f a = .ok b := by
  constructor
  · exact bind_eq_ok
  · rintro ⟨a, rfl, h⟩
    exact h

theorem map_eq_ok_iff {f : α → β} {x : Except ε α} {b : β} :
    x.map f = .ok b ↔ ∃ a, x = .ok a ∧ f a = b := by
  cases x with
  | error e => simp [Except.map]
  | ok a => simp [Except.map]

/-- Errors in other words are errors of the same computations. -/
theorem mapError_eq_ok_iff {f : ε → γ} {x : Except ε α} {a : α} :
    x.mapError f = .ok a ↔ x = .ok a := by
  cases x with
  | error e => exact ⟨nofun, nofun⟩
  | ok b => simp only [Except.mapError, Except.ok.injEq]

theorem failure?_eq_some {x : Except ε α} {e : ε} : failure? x = some e ↔ x = .error e := by
  cases x with
  | error d => simp [failure?]
  | ok a => simp [failure?]

/-- The computation succeeds, or it fails with such an error. -/
def FailsOnly (p : ε → Prop) (x : Except ε α) : Prop :=
  ∀ e, x = .error e → p e

namespace FailsOnly

variable {p : ε → Prop} {x : Except ε α}

theorem ok (a : α) : FailsOnly p (.ok a : Except ε α) := nofun

theorem error {e : ε} (h : p e) : FailsOnly p (.error e : Except ε α) := by
  rintro _ ⟨⟩
  exact h

theorem bind {f : α → Except ε β} (hx : FailsOnly p x)
    (hf : ∀ a, x = .ok a → FailsOnly p (f a)) : FailsOnly p (x >>= f) := by
  cases x with
  | error e => exact error (hx e rfl)
  | ok a => exact hf a rfl

theorem map (hx : FailsOnly p x) (f : α → β) : FailsOnly p (x.map f) := by
  cases x with
  | error e => exact error (hx e rfl)
  | ok a => exact ok (f a)

theorem mono {q : ε → Prop} (hx : FailsOnly p x) (h : ∀ e, p e → q e) : FailsOnly q x :=
  fun e he => h e (hx e he)

end FailsOnly

/-- The computation fails with such an error, or succeeds with such a result. -/
structure Ends (p : ε → Prop) (q : α → Prop) (x : Except ε α) : Prop where
  fails : FailsOnly p x
  yields : ∀ a, x = .ok a → q a

namespace Ends

variable {p : ε → Prop} {q : α → Prop} {r : β → Prop} {x : Except ε α}

theorem ok {a : α} (h : q a) : Ends p q (.ok a : Except ε α) := by
  refine ⟨.ok a, ?_⟩
  rintro _ ⟨⟩
  exact h

theorem error {e : ε} (h : p e) : Ends p q (.error e : Except ε α) :=
  ⟨.error h, nofun⟩

/-- What goes on after a success may rely on its result. -/
theorem bind {f : α → Except ε β} (hx : Ends p q x)
    (hf : ∀ a, x = .ok a → q a → Ends p r (f a)) : Ends p r (x >>= f) := by
  cases x with
  | error e => exact error (hx.fails e rfl)
  | ok a => exact hf a rfl (hx.yields a rfl)

theorem map {f : α → β} (hx : Ends p q x) (hf : ∀ a, q a → r (f a)) : Ends p r (x.map f) := by
  cases x with
  | error e => exact error (hx.fails e rfl)
  | ok a => exact ok (hf a (hx.yields a rfl))

theorem mapError {s : γ → Prop} {f : ε → γ} (hx : Ends p q x) (hf : ∀ e, p e → s (f e)) :
    Ends s q (x.mapError f) := by
  cases x with
  | error e => exact error (hf e (hx.fails e rfl))
  | ok a => exact ok (hx.yields a rfl)

theorem mono {s : ε → Prop} (hx : Ends p q x) (h : ∀ e, p e → s e) : Ends s q x :=
  ⟨hx.fails.mono h, hx.yields⟩

/-- Either way there is an end. -/
theorem cases (hx : Ends p q x) : (∃ a, x = .ok a ∧ q a) ∨ ∃ e, x = .error e ∧ p e := by
  cases x with
  | error e => exact .inr ⟨e, rfl, hx.fails e rfl⟩
  | ok a => exact .inl ⟨a, rfl, hx.yields a rfl⟩

end Ends

/-- Of two computations that do not depend on each other the first failure counts. -/
theorem failure?_both (x : Except ε α) (y : Except ε β) (f : α → β → γ) :
    failure? (x >>= fun a => y >>= fun b => .ok (f a b)) = (failure? x).or (failure? y) := by
  cases x with
  | error e => rfl
  | ok a =>
    cases y with
    | error e => rfl
    | ok b => rfl

/-- Of a row of computations the first failure counts. -/
theorem failure?_mapM (f : α → Except ε β) (xs : List α) :
    failure? (xs.mapM f) = xs.findSome? fun x => failure? (f x) := by
  induction xs with
  | nil => rfl
  | cons x xs ih =>
    have := failure?_both (f x) (xs.mapM f) List.cons
    rw [List.mapM_cons, List.findSome?_cons, ← ih]
    refine this.trans ?_
    cases failure? (f x) with
    | none => rfl
    | some e => rfl

/-- A row of computations succeeds if each of them does. -/
theorem mapM_eq_ok_iff {f : α → Except ε β} {xs : List α} {ys : List β} :
    xs.mapM f = .ok ys ↔ List.Forall₂ (fun x y => f x = .ok y) xs ys := by
  induction xs generalizing ys with
  | nil =>
    constructor
    · intro h
      cases h
      exact .nil
    · rintro ⟨⟩
      rfl
  | cons x xs ih =>
    rw [List.mapM_cons]
    constructor
    · intro h
      cases hx : f x with
      | error e => rw [hx] at h; cases h
      | ok y =>
        rw [hx, ok_bind] at h
        cases hxs : xs.mapM f with
        | error e => rw [hxs] at h; cases h
        | ok zs =>
          rw [hxs] at h
          cases h
          exact .cons hx (ih.mp hxs)
    · rintro (_ | ⟨hx, hxs⟩)
      rw [hx, ok_bind, ih.mpr hxs]
      rfl

end

end RCode
