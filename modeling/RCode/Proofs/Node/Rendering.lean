import RCode.Proofs.Node.Alike
import RCode.Proofs.Node.GrammarReading

/-!
# Layouts are spellings

What the printer lays out is a spelling, in the sense of the grammar, of the tree that will be read
back. `Renders` says so of a tree, together with the fact that the tree that is read back is laid
out the same. This module draws the conclusions for the places in which a tree can stand: as an
operand, as an argument, as a body before `else`, in a row.
-/

set_option autoImplicit false

namespace RCode.Printer

open Grammar Node

/-! ## How a tree is read back -/

/-- The tree `m` is what the layout of `n` reads back as, and it is laid out the same. -/
structure ReadsPlain (n m : Node) : Prop where
  comesBack : ComesBack n m
  form : (fragment m).toForm = (fragment n).toForm

/-- The tree `g` is what the guarded layout of `n` reads back as. Where `n` is guarded, `g` is
guarded too, in the same way; or else `g` stands in round brackets and needs no more of them. -/
inductive ReadsGuarded (n : Node) : Node → Prop
  | call {g : Node} : ComesBack n g → (fragment g).power = (fragment n).power →
      (fragment g).isOpen = (fragment n).isOpen → (fragment g).guarded = (fragment n).guarded →
      ReadsGuarded n g
  | inParens {g : Node} : Rereads n g → (fragment g).toForm = .atom (fragment n).guarded →
      IsArgumentPower (fragment n).power → ReadsGuarded n g

/-- The layouts of a tree are spellings of trees that are laid out the same. -/
structure Renders (n : Node) : Prop where
  plain : ∃ m whole, ReadsPlain n m ∧
    Spells (.expression whole (fragment n).power (fragment n).isOpen) (fragment n).layout
      (.node m) ∧
    (n.isStrict = false ∨ (fragment n).power = 0 → whole = true)
  guarded : ∃ g whole, ReadsGuarded n g ∧
    Spells (.expression whole atomPower false) (fragment n).guarded (.node g)

theorem ReadsGuarded.rereads {n g : Node} (h : ReadsGuarded n g) : Rereads n g := by
  cases h with
  | call hcomes _ _ _ => exact .plain hcomes
  | inParens hrereads _ _ => exact hrereads

theorem ReadsPlain.power {n m : Node} (h : ReadsPlain n m) :
    (fragment m).power = (fragment n).power :=
  congrArg Form.power h.form

theorem ReadsPlain.isOpen {n m : Node} (h : ReadsPlain n m) :
    (fragment m).isOpen = (fragment n).isOpen :=
  congrArg Form.isOpen h.form

theorem ReadsPlain.layout {n m : Node} (h : ReadsPlain n m) :
    (fragment m).layout = (fragment n).layout :=
  congrArg Form.layout h.form

/-! ## Operands -/

/-- The layout `l` of an operand, which may end in an open body, is a spelling of a tree `c` that is
laid out the same as an operand. -/
structure ReadsOperand (n : Node) (needs : Nat) (strict : Bool) (l : Layout) (isOpen : Bool)
    (c : Node) : Prop where
  rereads : Rereads n c
  eq : (fragment n).operand needs strict = (l, isOpen)
  operand : (fragment c).operand needs strict = (l, isOpen)
  operand_self : n.isStrict = strict → (fragment c).operand needs c.isStrict = (l, isOpen)
  spells : ∃ whole power, Spells (.expression whole power isOpen) l (.node c) ∧
    (isOpen = true ∧ whole = true ∨ needs ≤ power ∧ (strict = true → needs < power) ∧
      (n.isStrict = false → whole = true ∨ needs < power))

/-- A layout that needs no protection is the operand. -/
theorem operand_atom {f : Fragment} {l : Layout} (h : f.toForm = .atom l) {needs : Nat}
    (hneeds : needs < atomPower) (strict : Bool) : f.operand needs strict = (l, false) := by
  have hpower : f.power = atomPower := congrArg Form.power h
  have hopen : f.isOpen = false := congrArg Form.isOpen h
  have hlayout : f.layout = l := congrArg Form.layout h
  have hweak : ¬ (f.power < needs ∨ strict = true ∧ f.power = needs) := by
    rw [hpower]
    rintro (h | ⟨-, h⟩) <;> omega
  have hclosed : ¬ (f.isOpen = true ∧ f.power = openPower) := by
    rw [hopen]
    exact fun h => Bool.noConfusion h.1
  rw [Fragment.operand, if_neg hclosed, if_neg hweak, hlayout, hopen]

theorem Renders.operand {n : Node} (h : Renders n) {needs : Nat} (hneeds : needs < atomPower)
    (strict : Bool) : ∃ l isOpen c, ReadsOperand n needs strict l isOpen c := by
  obtain ⟨⟨m, whole, hm, hspells, hwhole⟩, ⟨g, whole', hg, hspells'⟩⟩ := h
  by_cases hopen : (fragment n).isOpen = true ∧ (fragment n).power = openPower
  · -- an open body is written as it is
    have heq : ∀ s, (fragment m).operand needs s = ((fragment n).layout, true) := by
      intro s
      rw [Fragment.operand, if_pos (by rw [hm.isOpen, hm.power]; exact hopen), hm.layout]
    rw [hopen.1] at hspells
    exact ⟨_, _, m, .plain hm.comesBack, by rw [Fragment.operand, if_pos hopen], heq strict,
      fun _ => heq m.isStrict, whole, _, hspells, .inl ⟨rfl, hwhole (.inr hopen.2)⟩⟩
  by_cases hweak : (fragment n).power < needs ∨ strict = true ∧ (fragment n).power = needs
  · -- what binds too weakly is guarded
    have hspelled : ∃ whole power, Spells (.expression whole power false) (fragment n).guarded
        (.node g) ∧ (false = true ∧ whole = true ∨ needs ≤ power ∧
          (strict = true → needs < power) ∧
          (n.isStrict = false → whole = true ∨ needs < power)) :=
      ⟨whole', atomPower, hspells', .inr ⟨Nat.le_of_lt hneeds, fun _ => hneeds,
        fun _ => .inr hneeds⟩⟩
    have heq : (fragment n).operand needs strict = ((fragment n).guarded, false) := by
      rw [Fragment.operand, if_neg hopen, if_pos hweak]
    have hrereads := hg.rereads
    cases hg with
    | call hcomes hpower hisOpen hguarded =>
      have hself : (fragment g).operand needs strict = ((fragment n).guarded, false) := by
        rw [Fragment.operand, hisOpen, hpower, if_neg hopen, if_pos hweak, hguarded]
      refine ⟨_, _, g, hrereads, heq, hself, fun hstrict => ?_, hspelled⟩
      rw [hcomes.isStrict_eq, hstrict]
      exact hself
    | inParens _ hatom _ =>
      exact ⟨_, _, g, hrereads, heq, operand_atom hatom hneeds strict,
        fun _ => operand_atom hatom hneeds g.isStrict, hspelled⟩
  · -- what binds tightly enough is written as it is
    have hself : (fragment m).operand needs strict =
        ((fragment n).layout, (fragment n).isOpen) := by
      rw [Fragment.operand, hm.isOpen, hm.power, if_neg hopen, if_neg hweak, hm.layout]
    obtain ⟨hle, hstrictly⟩ := not_or.mp hweak
    have hlt : strict = true → needs < (fragment n).power := by
      intro hs
      have : (fragment n).power ≠ needs := fun h => hstrictly ⟨hs, h⟩
      omega
    refine ⟨_, _, m, .plain hm.comesBack, by rw [Fragment.operand, if_neg hopen, if_neg hweak],
      hself, fun hstrict => ?_, whole, _, hspells,
      .inr ⟨by omega, hlt, fun hs => .inl (hwhole (.inl hs))⟩⟩
    rw [hm.comesBack.isStrict_eq, hstrict]
    exact hself

/-- The layout of a left operand is a spelling of a tree that is laid out the same there. -/
structure ReadsLeft (n : Node) (needs : Nat) (strict : Bool) (c : Node) : Prop where
  rereads : Rereads n c
  eq : (fragment c).leftOperand needs strict = (fragment n).leftOperand needs strict
  spells : ∃ whole power,
    Spells (.expression whole power false) ((fragment n).leftOperand needs strict) (.node c) ∧
      needs ≤ power ∧ (strict = true → needs < power)

theorem leftOperand_of_operand {f : Fragment} {needs : Nat} {strict : Bool} {l : Layout}
    {isOpen : Bool} (h : f.operand needs strict = (l, isOpen)) :
    f.leftOperand needs strict = if isOpen then f.guarded else l := by
  rw [Fragment.leftOperand, h]

theorem Renders.leftOperand {n : Node} (h : Renders n) {needs : Nat} (hneeds : needs < atomPower)
    (strict : Bool) : ∃ c, ReadsLeft n needs strict c := by
  obtain ⟨l, isOpen, c, hc⟩ := h.operand hneeds strict
  have hleft := leftOperand_of_operand hc.eq
  cases isOpen with
  | false =>
    obtain ⟨whole, power, hspells, hopen | ⟨hle, hlt, -⟩⟩ := hc.spells
    · cases hopen.1
    · refine ⟨c, hc.rereads, ?_, whole, power, ?_, hle, hlt⟩
      · rw [hleft, leftOperand_of_operand hc.operand]
        rfl
      · rw [hleft]
        exact hspells
  | true =>
    obtain ⟨g, whole, hg, hspells⟩ := h.guarded
    refine ⟨g, hg.rereads, ?_, whole, atomPower, ?_, Nat.le_of_lt hneeds, fun _ => hneeds⟩
    · rw [hleft]
      cases hg with
      | call hcomes hpower hisOpen hguarded =>
        have hsame : ((fragment g).operand needs strict).2 = true := by
          rw [operand_isOpen hpower hisOpen, hc.eq]
        have hpair : (fragment g).operand needs strict =
            (((fragment g).operand needs strict).1, true) := Prod.ext rfl hsame
        rw [leftOperand_of_operand hpair]
        exact hguarded
      | inParens _ hatom _ =>
        rw [leftOperand_of_operand (operand_atom hatom hneeds strict)]
        rfl
    · rw [hleft]
      exact hspells

/-! ## Arguments, bodies and whole layouts -/

/-- The layout of an argument is a spelling of a tree that is treated alike and laid out the
same. -/
structure ReadsArgument (n c : Node) : Prop where
  comesBack : ComesBack n c
  power : (fragment c).power = (fragment n).power
  isOpen : (fragment c).isOpen = (fragment n).isOpen
  eq : (fragment c).argument = (fragment n).argument

theorem Renders.argument {n : Node} (h : Renders n) :
    ∃ c whole power isOpen, ReadsArgument n c ∧ IsArgumentPower power ∧
      Spells (.expression whole power isOpen) (fragment n).argument (.node c) := by
  obtain ⟨⟨m, whole, hm, hspells, -⟩, ⟨g, whole', hg, hspells'⟩⟩ := h
  by_cases hassign : openPower < (fragment n).power ∧ (fragment n).power ≤ Operator.assignPower
  · have heq : (fragment n).argument = (fragment n).guarded := by
      rw [Fragment.argument, if_pos hassign]
    cases hg with
    | call hcomes hpower hisOpen hguarded =>
      refine ⟨g, whole', atomPower, false, ⟨hcomes, hpower, hisOpen, ?_⟩, .inr (by decide), ?_⟩
      · rw [heq, Fragment.argument, hpower, if_pos hassign, hguarded]
      · rw [heq]
        exact hspells'
    | inParens _ _ hpower =>
      have hopen : openPower = 0 := rfl
      rcases hpower with hzero | hlt
      · omega
      · omega
  · have heq : (fragment n).argument = (fragment n).layout := by
      rw [Fragment.argument, if_neg hassign]
    refine ⟨m, whole, _, _, ⟨hm.comesBack, hm.power, hm.isOpen, ?_⟩, ?_, heq ▸ hspells⟩
    · rw [heq, Fragment.argument, hm.power, if_neg hassign, hm.layout]
    · have hopen : openPower = 0 := rfl
      rcases Nat.eq_zero_or_pos (fragment n).power with hzero | hpos
      · exact .inl hzero
      · exact .inr (by omega)

/-- A tree as a body before `else`: guarded if it ends in an open body. -/
def closedLayout (f : Fragment) : Layout :=
  if f.isOpen then f.guarded else f.layout

theorem Renders.closed {n : Node} (h : Renders n) :
    ∃ c whole power, Rereads n c ∧ closedLayout (fragment c) = closedLayout (fragment n) ∧
      Spells (.expression whole power false) (closedLayout (fragment n)) (.node c) := by
  obtain ⟨⟨m, whole, hm, hspells, -⟩, ⟨g, whole', hg, hspells'⟩⟩ := h
  cases hopen : (fragment n).isOpen with
  | false =>
    have heq : closedLayout (fragment n) = (fragment n).layout := by
      simp only [closedLayout, hopen, Bool.false_eq_true, if_false]
    rw [hopen] at hspells
    refine ⟨m, whole, _, .plain hm.comesBack, ?_, heq ▸ hspells⟩
    simp only [closedLayout, hm.isOpen, hopen, hm.layout, Bool.false_eq_true, if_false]
  | true =>
    have heq : closedLayout (fragment n) = (fragment n).guarded := by
      simp only [closedLayout, hopen, if_true]
    refine ⟨g, whole', atomPower, hg.rereads, ?_, heq ▸ hspells'⟩
    rw [heq]
    cases hg with
    | call _ _ hisOpen hguarded => simp only [closedLayout, hisOpen, hopen, if_true, hguarded]
    | inParens _ hatom _ =>
      have hclosed : (fragment g).isOpen = false := congrArg Form.isOpen hatom
      have hlayout : (fragment g).layout = (fragment n).guarded := congrArg Form.layout hatom
      simp only [closedLayout, hclosed, hlayout, Bool.false_eq_true, if_false]

/-! ## Rows of arguments, parameters and statements -/

/-- The arguments come back under the same names and laid out the same. -/
abbrev ReadsArguments : List (Arg Node) → List (Arg Node) → Prop :=
  List.Forall₂ fun a b => b.name = a.name ∧ ReadsArgument a.value b.value

theorem ReadsArguments.rereads {args args' : List (Arg Node)} (h : ReadsArguments args args') :
    RereadsArgs args args' := by
  induction h with
  | nil => exact .nil
  | @cons a b args args' hab _ ih =>
    obtain ⟨name, n⟩ := a
    obtain ⟨name', m⟩ := b
    obtain ⟨hname, hvalue⟩ := hab
    obtain rfl : name' = name := hname
    exact .cons (.plain hvalue.comesBack) ih

theorem ReadsArgument.alike {n c : Node} (h : ReadsArgument n c) : Alike (part n) (part c) :=
  have hrereads : Rereads n c := .plain h.comesBack
  ⟨hrereads.name?_eq, hrereads.isMember_eq, hrereads.isParams_eq, h.comesBack.isStrict_eq, h.power,
    h.isOpen⟩

theorem ReadsArguments.alike {args args' : List (Arg Node)} (h : ReadsArguments args args') :
    AlikeArgs (fragmentArgs args) (fragmentArgs args') := by
  rw [fragmentArgs_eq_map, fragmentArgs_eq_map]
  induction h with
  | nil => exact .nil
  | cons hab _ ih => exact .cons ⟨hab.1, hab.2.alike⟩ ih

/-- The layout of one argument. -/
def argumentLayout (a : Arg Node) : Layout :=
  match a.name with
  | none => (fragment a.value).argument
  | some name => Layout.named name (fragment a.value).argument

theorem argumentRow_eq (args : List (Arg Node)) :
    argumentRow (fragmentArgs args) = Layout.commaSeparated (args.map argumentLayout) := by
  rw [fragmentArgs_eq_map, argumentRow, List.map_map]
  rfl

theorem ReadsArguments.row {args args' : List (Arg Node)} (h : ReadsArguments args args') :
    argumentRow (fragmentArgs args') = argumentRow (fragmentArgs args) := by
  rw [argumentRow_eq, argumentRow_eq]
  congr 1
  induction h with
  | nil => rfl
  | @cons a b args args' hab _ ih =>
    rw [List.map_cons, List.map_cons, ih, argumentLayout, argumentLayout, hab.1, hab.2.eq]

/-- The row of the arguments is a row of spellings. -/
theorem exists_argument_rows {args : List (Arg Node)}
    (h : ∀ a ∈ args, a.name ≠ some "" ∧ Renders a.value) :
    ∃ rows : List (Row (Arg Node)), rowLayout rows = argumentRow (fragmentArgs args) ∧
      (∀ r ∈ rows, Spells .argument r.1 (.args [r.2])) ∧
      ReadsArguments args (rows.map Prod.snd) := by
  have hrows : ∃ rows : List (Row (Arg Node)), rows.map Prod.fst = args.map argumentLayout ∧
      (∀ r ∈ rows, Spells .argument r.1 (.args [r.2])) ∧
      ReadsArguments args (rows.map Prod.snd) := by
    induction args with
    | nil => exact ⟨[], rfl, fun r hr => (List.not_mem_nil hr).elim, .nil⟩
    | cons a args ih =>
      obtain ⟨hname, hvalue⟩ := h a List.mem_cons_self
      obtain ⟨rows, hlayout, hspells, hreads⟩ := ih fun b hb => h b (List.mem_cons_of_mem a hb)
      obtain ⟨c, whole, power, isOpen, hc, hpower, hexpression⟩ := hvalue.argument
      have hargument : Spells .argument (argumentLayout a) (.args [⟨a.name, c⟩]) := by
        obtain ⟨name, n⟩ := a
        cases name with
        | none => exact .unnamed hexpression hpower
        | some name => exact .named (fun h => hname (congrArg some h)) hexpression hpower
      refine ⟨(argumentLayout a, ⟨a.name, c⟩) :: rows, ?_, ?_, .cons ⟨rfl, hc⟩ hreads⟩
      · rw [List.map_cons, List.map_cons, hlayout]
      · exact List.forall_mem_cons.mpr ⟨hargument, hspells⟩
  obtain ⟨rows, hlayout, hspells, hreads⟩ := hrows
  refine ⟨rows, ?_, hspells, hreads⟩
  rw [rowLayout, hlayout, argumentRow_eq]

/-- The layout of one parameter. -/
def parameterLayout (i : Param Node) : Layout :=
  if i.default.isMissing then [.symbol i.name]
  else Layout.named i.name (fragment i.default).argument

theorem parameterRow_eq (items : List (Param Node)) :
    parameterRow (fragmentParams items) =
      Layout.commaSeparated (items.map parameterLayout) := by
  rw [fragmentParams_eq_map, parameterRow, List.map_map]
  rfl

/-- The row of the parameters is a row of spellings. -/
theorem exists_parameter_rows {items : List (Param Node)}
    (h : ∀ i ∈ items, i.name ≠ "" ∧ (i.default.isMissing = false → Renders i.default)) :
    ∃ rows : List (Row (Param Node)), rowLayout rows = parameterRow (fragmentParams items) ∧
      (∀ r ∈ rows, Spells .parameter r.1 (.params [r.2])) ∧
      rows.map (fun r => r.2.name) = items.map Param.name ∧
      RereadsParams items (rows.map Prod.snd) ∧
      parameterRow (fragmentParams (rows.map Prod.snd)) =
        parameterRow (fragmentParams items) := by
  have hrows : ∃ rows : List (Row (Param Node)), rows.map Prod.fst = items.map parameterLayout ∧
      (∀ r ∈ rows, Spells .parameter r.1 (.params [r.2])) ∧
      rows.map (fun r => r.2.name) = items.map Param.name ∧
      RereadsParams items (rows.map Prod.snd) ∧
      (rows.map Prod.snd).map parameterLayout = items.map parameterLayout := by
    induction items with
    | nil => exact ⟨[], rfl, fun r hr => (List.not_mem_nil hr).elim, rfl, .nil, rfl⟩
    | cons i items ih =>
      obtain ⟨hname, hdefault⟩ := h i List.mem_cons_self
      obtain ⟨rows, hlayout, hspells, hnames, hrereads, hsame⟩ :=
        ih fun j hj => h j (List.mem_cons_of_mem i hj)
      have hparameter : ∃ c, Spells .parameter (parameterLayout i) (.params [⟨i.name, c⟩]) ∧
          Rereads i.default c ∧ parameterLayout ⟨i.name, c⟩ = parameterLayout i := by
        obtain ⟨name, n⟩ := i
        cases hmissing : n.isMissing with
        | true =>
          cases n with
          | missing => exact ⟨.missing, .withoutDefault hname, .plain .missing, rfl⟩
          | _ => cases hmissing
        | false =>
          obtain ⟨c, whole, power, isOpen, hc, hpower, hexpression⟩ :=
            (hdefault hmissing).argument
          have hrereads : Rereads n c := .plain hc.comesBack
          have hmissing' : c.isMissing = false := hrereads.isMissing_eq.trans hmissing
          have hlayout : parameterLayout ⟨name, n⟩ = Layout.named name (fragment n).argument := by
            simp only [parameterLayout, hmissing, Bool.false_eq_true, if_false]
          refine ⟨c, ?_, hrereads, ?_⟩
          · rw [hlayout]
            exact .withDefault hname hexpression hpower
          · rw [hlayout]
            simp only [parameterLayout, hmissing', Bool.false_eq_true, if_false, hc.eq]
      obtain ⟨c, hspelled, hc, hsamec⟩ := hparameter
      refine ⟨(parameterLayout i, ⟨i.name, c⟩) :: rows, ?_, ?_, ?_, .cons hc hrereads, ?_⟩
      · rw [List.map_cons, List.map_cons, hlayout]
      · exact List.forall_mem_cons.mpr ⟨hspelled, hspells⟩
      · rw [List.map_cons, List.map_cons, hnames]
      · rw [List.map_cons, List.map_cons, List.map_cons, hsame, hsamec]
  obtain ⟨rows, hlayout, hspells, hnames, hrereads, hsame⟩ := hrows
  refine ⟨rows, ?_, hspells, hnames, hrereads, ?_⟩
  · rw [rowLayout, hlayout, parameterRow_eq]
  · rw [parameterRow_eq, parameterRow_eq, hsame]

/-- Statements come back laid out the same. -/
theorem exists_statement_rows {ns : List Node} (h : ∀ n ∈ ns, Renders n) :
    ∃ rows : List (Row Node), rows.map Prod.fst = ns.map (fun n => (fragment n).layout) ∧
      (∀ r ∈ rows, Spells .statement r.1 (.node r.2)) ∧
      List.Forall₂ ReadsPlain ns (rows.map Prod.snd) := by
  induction ns with
  | nil => exact ⟨[], rfl, fun r hr => (List.not_mem_nil hr).elim, .nil⟩
  | cons n ns ih =>
    obtain ⟨rows, hlayout, hspells, hreads⟩ := ih fun m hm => h m (List.mem_cons_of_mem n hm)
    obtain ⟨m, whole, hm, hspelled, -⟩ := (h n List.mem_cons_self).plain
    refine ⟨((fragment n).layout, m) :: rows, ?_, ?_, .cons hm hreads⟩
    · rw [List.map_cons, List.map_cons, hlayout]
    · exact List.forall_mem_cons.mpr ⟨.statement hspelled, hspells⟩

end RCode.Printer
