import Mathlib.Data.List.Forall2
import RCode.Proofs.Node.SpecialForm
import RCode.Proofs.Node.Writable

/-!
# Parts that are treated alike

The form of a call depends on what its parts are and on how tightly they bind, but not on how they
are laid out. `Alike` says that two parts do not differ in that, and `HasForm.alike` that calls of
parts that do not differ have forms that bind as tightly.
-/

set_option autoImplicit false

namespace RCode.Printer

open Node

/-- The tree with its fragment. -/
abbrev part (n : Node) : Part := (n, fragment n)

theorem fragmentArgs_eq_map (args : List (Arg Node)) :
    fragmentArgs args = args.map (Arg.map part) := by
  induction args with
  | nil => rfl
  | cons a args ih => rw [fragmentArgs, ih]; rfl

theorem fragmentParams_eq_map (items : List (Param Node)) :
    fragmentParams items = items.map (Param.map part) := by
  induction items with
  | nil => rfl
  | cons p items ih => rw [fragmentParams, ih]; rfl

/-- Everything on which the form of a call decides: what kind of nodes its parts are and how tightly
they bind, but not how they are laid out. -/
structure Alike (p q : Part) : Prop where
  name : q.1.name? = p.1.name?
  isMember : isMember q.1 = isMember p.1
  isParams : q.1.isParams = p.1.isParams
  isStrict : q.1.isStrict = p.1.isStrict
  power : q.2.power = p.2.power
  isOpen : q.2.isOpen = p.2.isOpen

theorem Alike.symm {p q : Part} (h : Alike p q) : Alike q p :=
  ⟨h.name.symm, h.isMember.symm, h.isParams.symm, h.isStrict.symm, h.power.symm, h.isOpen.symm⟩

/-- The arguments have the same names and parts that are treated alike. -/
abbrev AlikeArgs : List (Arg Part) → List (Arg Part) → Prop :=
  List.Forall₂ fun a b => b.name = a.name ∧ Alike a.value b.value

theorem AlikeArgs.symm {args args' : List (Arg Part)} (h : AlikeArgs args args') :
    AlikeArgs args' args := by
  induction h with
  | nil => exact .nil
  | cons h _ ih => exact .cons ⟨h.1.symm, h.2.symm⟩ ih

/-- Arguments that are treated like an unnamed argument and others. -/
theorem AlikeArgs.cons_inv {p : Part} {args args' : List (Arg Part)}
    (h : AlikeArgs (unnamed p :: args) args') :
    ∃ q rest, args' = unnamed q :: rest ∧ Alike p q ∧ AlikeArgs args rest := by
  cases h with
  | @cons _ b _ rest hab hrest =>
    obtain ⟨name, q⟩ := b
    obtain ⟨hname, hvalue⟩ := hab
    obtain rfl : name = none := hname
    exact ⟨q, rest, rfl, hvalue, hrest⟩

theorem AlikeArgs.one_inv {p : Part} {args' : List (Arg Part)}
    (h : AlikeArgs [unnamed p] args') : ∃ q, args' = [unnamed q] ∧ Alike p q := by
  obtain ⟨q, rest, rfl, hq, hrest⟩ := h.cons_inv
  cases hrest
  exact ⟨q, rfl, hq⟩

theorem AlikeArgs.two_inv {p₁ p₂ : Part} {args' : List (Arg Part)}
    (h : AlikeArgs [unnamed p₁, unnamed p₂] args') :
    ∃ q₁ q₂, args' = [unnamed q₁, unnamed q₂] ∧ Alike p₁ q₁ ∧ Alike p₂ q₂ := by
  obtain ⟨q₁, rest, rfl, h₁, hrest⟩ := h.cons_inv
  obtain ⟨q₂, rfl, h₂⟩ := AlikeArgs.one_inv hrest
  exact ⟨q₁, q₂, rfl, h₁, h₂⟩

theorem AlikeArgs.three_inv {p₁ p₂ p₃ : Part} {args' : List (Arg Part)}
    (h : AlikeArgs [unnamed p₁, unnamed p₂, unnamed p₃] args') :
    ∃ q₁ q₂ q₃, args' = [unnamed q₁, unnamed q₂, unnamed q₃] ∧ Alike p₁ q₁ ∧ Alike p₂ q₂ ∧
      Alike p₃ q₃ := by
  obtain ⟨q₁, rest, rfl, h₁, hrest⟩ := h.cons_inv
  obtain ⟨q₂, q₃, rfl, h₂, h₃⟩ := AlikeArgs.two_inv hrest
  exact ⟨q₁, q₂, q₃, rfl, h₁, h₂, h₃⟩

theorem AlikeArgs.map_unnamed_inv {parts : List Part} {args' : List (Arg Part)}
    (h : AlikeArgs (parts.map unnamed) args') : ∃ parts' : List Part, args' = parts'.map unnamed := by
  induction parts generalizing args' with
  | nil => cases h; exact ⟨[], rfl⟩
  | cons p parts ih =>
    obtain ⟨q, rest, rfl, -, hrest⟩ := AlikeArgs.cons_inv h
    obtain ⟨parts', rfl⟩ := ih hrest
    exact ⟨q :: parts', rfl⟩

/-- Whether an operand ends in an open body depends on how tightly it binds. -/
theorem operand_isOpen {f g : Fragment} (hpower : g.power = f.power) (hopen : g.isOpen = f.isOpen)
    (needs : Nat) (strict : Bool) : (g.operand needs strict).2 = (f.operand needs strict).2 := by
  unfold Fragment.operand
  rw [hpower, hopen]
  split
  · rfl
  · split <;> rfl

/-- Calls of parts that are treated alike have forms of the same power. -/
theorem HasForm.alike {name : String} {args args' : List (Arg Part)} {form : Form}
    (h : HasForm name args form) (halike : AlikeArgs args args') :
    ∃ form', HasForm name args' form' ∧ form'.power = form.power ∧
      form'.isOpen = form.isOpen := by
  cases h with
  | index target rest =>
    obtain ⟨target', rest', rfl, -, -⟩ := halike.cons_inv
    exact ⟨_, .index target' rest', rfl, rfl⟩
  | doubleIndex target rest =>
    obtain ⟨target', rest', rfl, -, -⟩ := halike.cons_inv
    exact ⟨_, .doubleIndex target' rest', rfl, rfl⟩
  | block statements =>
    obtain ⟨statements', rfl⟩ := halike.map_unnamed_inv
    exact ⟨_, .block statements', rfl, rfl⟩
  | group inner =>
    obtain ⟨inner', rfl, -⟩ := halike.one_inv
    exact ⟨_, .group inner', rfl, rfl⟩
  | conditional condition body =>
    obtain ⟨condition', body', rfl, -, -⟩ := halike.two_inv
    exact ⟨_, .conditional condition' body', rfl, rfl⟩
  | alternative condition body other =>
    obtain ⟨condition', body', other', rfl, -, -, -⟩ := halike.three_inv
    exact ⟨_, .alternative condition' body' other', rfl, rfl⟩
  | forLoop variableName p f sequence body =>
    obtain ⟨⟨n, f'⟩, sequence', body', rfl, hvariable, -, -⟩ := halike.three_inv
    have hname := hvariable.name
    cases n with
    | symbol variableName' p' => exact ⟨_, .forLoop variableName' p' f' sequence' body', rfl, rfl⟩
    | _ => cases hname
  | whileLoop condition body =>
    obtain ⟨condition', body', rfl, -, -⟩ := halike.two_inv
    exact ⟨_, .whileLoop condition' body', rfl, rfl⟩
  | repeatLoop body =>
    obtain ⟨body', rfl, -⟩ := halike.one_inv
    exact ⟨_, .repeatLoop body', rfl, rfl⟩
  | definition items p f body =>
    obtain ⟨⟨n, f'⟩, body', rfl, hitems, -⟩ := halike.two_inv
    have hparams := hitems.isParams
    cases n with
    | params items' p' => exact ⟨_, .definition items' p' f' body', rfl, rfl⟩
    | _ => cases hparams
  | breakJump => cases halike; exact ⟨_, .breakJump, rfl, rfl⟩
  | nextJump => cases halike; exact ⟨_, .nextJump, rfl, rfl⟩
  | @unary _ power operand hp =>
    obtain ⟨operand', rfl, ho⟩ := halike.one_inv
    refine ⟨_, .unary operand' hp, rfl, ?_⟩
    have hstrict : (isCall operand'.1 && !isPrefixCall operand'.1) =
        (isCall operand.1 && !isPrefixCall operand.1) := ho.isStrict
    simp only [unaryForm, hstrict]
    exact operand_isOpen ho.power ho.isOpen power _
  | selection left right hm hb hright =>
    obtain ⟨left', right', rfl, -, hr⟩ := halike.two_inv
    exact ⟨_, .selection left' right' hm hb (hr.isMember.trans hright), rfl, rfl⟩
  | qualified left right hq hb hleft hright =>
    obtain ⟨left', right', rfl, hl, hr⟩ := halike.two_inv
    exact ⟨_, .qualified left' right' hq hb (hl.isMember.trans hleft)
      (hr.isMember.trans hright), rfl, rfl⟩
  | binary left right hb hm hq hn =>
    obtain ⟨left', right', rfl, -, hr⟩ := halike.two_inv
    exact ⟨_, .binary left' right' hb hm hq hn, rfl, operand_isOpen hr.power hr.isOpen _ _⟩

/-- Calls of parts that are treated alike have no form of their own together. -/
theorem specialForm?_eq_none_of_alike {name : String} {args args' : List (Arg Part)}
    (halike : AlikeArgs args args') (h : specialForm? name args = none) :
    specialForm? name args' = none := by
  cases h' : specialForm? name args' with
  | none => rfl
  | some form =>
    obtain ⟨form', hform', -, -⟩ := (specialForm?_eq_some.mp h').alike halike.symm
    rw [specialForm?_eq_some.mpr hform'] at h
    cases h

end RCode.Printer
