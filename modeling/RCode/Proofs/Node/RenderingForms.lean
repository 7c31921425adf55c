import RCode.Proofs.Node.Rendering

/-!
# The forms of calls are spellings

Each form of a call is a spelling of a call of the same form, provided its parts are rendered
(`exists_readsForm`). There is a lemma for each form, as each is protected in its own way.
-/

set_option autoImplicit false

namespace RCode.Printer

open Grammar Node

theorem fragmentArgs_cons_inv {p : Part} {rest : List (Arg Part)} {args : List (Arg Node)}
    (h : unnamed p :: rest = fragmentArgs args) :
    ∃ n args₁, args = unnamed n :: args₁ ∧ p = part n ∧ rest = fragmentArgs args₁ := by
  cases args with
  | nil => cases h
  | cons a args =>
    obtain ⟨ha, hrest⟩ := List.cons.inj h
    obtain ⟨name, n⟩ := a
    obtain ⟨hname, hp⟩ := Arg.mk.inj ha
    obtain rfl : none = name := hname
    exact ⟨n, args, rfl, hp, hrest⟩

theorem fragmentArgs_nil_inv {args : List (Arg Node)} (h : [] = fragmentArgs args) : args = [] := by
  cases args with
  | nil => rfl
  | cons a args => cases h

theorem fragmentArgs_one_inv {p : Part} {args : List (Arg Node)}
    (h : [unnamed p] = fragmentArgs args) : ∃ n, args = [unnamed n] ∧ p = part n := by
  obtain ⟨n, args₁, rfl, hp, hrest⟩ := fragmentArgs_cons_inv h
  obtain rfl := fragmentArgs_nil_inv hrest
  exact ⟨n, rfl, hp⟩

theorem fragmentArgs_two_inv {p₁ p₂ : Part} {args : List (Arg Node)}
    (h : [unnamed p₁, unnamed p₂] = fragmentArgs args) :
    ∃ n₁ n₂, args = [unnamed n₁, unnamed n₂] ∧ p₁ = part n₁ ∧ p₂ = part n₂ := by
  obtain ⟨n₁, args₁, rfl, h₁, hrest⟩ := fragmentArgs_cons_inv h
  obtain ⟨n₂, rfl, h₂⟩ := fragmentArgs_one_inv hrest
  exact ⟨n₁, n₂, rfl, h₁, h₂⟩

theorem fragmentArgs_three_inv {p₁ p₂ p₃ : Part} {args : List (Arg Node)}
    (h : [unnamed p₁, unnamed p₂, unnamed p₃] = fragmentArgs args) :
    ∃ n₁ n₂ n₃, args = [unnamed n₁, unnamed n₂, unnamed n₃] ∧ p₁ = part n₁ ∧ p₂ = part n₂ ∧
      p₃ = part n₃ := by
  obtain ⟨n₁, args₁, rfl, h₁, hrest⟩ := fragmentArgs_cons_inv h
  obtain ⟨n₂, n₃, rfl, h₂, h₃⟩ := fragmentArgs_two_inv hrest
  exact ⟨n₁, n₂, n₃, rfl, h₁, h₂, h₃⟩

theorem fragmentArgs_map_inv {parts : List Part} {args : List (Arg Node)}
    (h : parts.map unnamed = fragmentArgs args) :
    ∃ ns : List Node, args = ns.map unnamed ∧ parts = ns.map part := by
  induction parts generalizing args with
  | nil =>
    obtain rfl := fragmentArgs_nil_inv h
    exact ⟨[], rfl, rfl⟩
  | cons p parts ih =>
    obtain ⟨n, args₁, rfl, rfl, hrest⟩ := fragmentArgs_cons_inv h
    obtain ⟨ns, rfl, rfl⟩ := ih hrest
    exact ⟨n :: ns, rfl, rfl⟩

theorem fragmentArgs_map_unnamed (ns : List Node) :
    fragmentArgs (ns.map unnamed) = (ns.map part).map unnamed := by
  rw [fragmentArgs_eq_map, List.map_map, List.map_map]
  rfl

/-- The form of a call is a spelling of a call that has the same form. -/
structure ReadsForm (name : String) (args : List (Arg Node)) (form : Form)
    (args' : List (Arg Node)) (whole : Bool) : Prop where
  rereads : RereadsArgs args args'
  hasForm : HasForm name (fragmentArgs args') form
  spells : ∃ p, Spells (.expression whole form.power form.isOpen) form.layout
    (.node (.call (.symbol name .nowhere) args' p))
  whole : whole = true ∨
    form.power ≠ 0 ∧ ∀ p q, isPrefixCall (.call (.symbol name p) args q) = false

theorem postfixPower_lt_atomPower : Operator.postfixPower < atomPower := by decide

theorem atom_power_ne_zero (l : Layout) : (Form.atom l).power ≠ 0 :=
  Nat.succ_ne_zero _

theorem ReadsPlain.rereads {n m : Node} (h : ReadsPlain n m) : Rereads n m :=
  .plain h.comesBack

theorem isPrefixCall_of_prefix?_eq_none {name : String} (h : Operator.prefix? name = none)
    (args : List (Arg Node)) (p q : Position) :
    isPrefixCall (.call (.symbol name p) args q) = false := by
  unfold isPrefixCall
  split
  · next heq =>
    obtain ⟨hsymbol, -, -⟩ := Node.call.inj heq
    obtain ⟨rfl, -⟩ := Node.symbol.inj hsymbol
    rw [h]
    rfl
  · rfl

theorem readsForm_index {target : Node} {rest : List (Arg Node)} (ht : Renders target)
    (hrest : ∀ a ∈ rest, a.name ≠ some "" ∧ Renders a.value) :
    ∃ args', ReadsForm "[" (unnamed target :: rest)
      (.atom ((fragment target).leftOperand Operator.postfixPower false ++
        .lexeme .leftBracket :: (argumentRow (fragmentArgs rest) ++ [.lexeme .rightBracket])))
      args' false := by
  obtain ⟨c, hc⟩ := ht.leftOperand postfixPower_lt_atomPower false
  obtain ⟨whole, power, hspells, hpower, -⟩ := hc.spells
  obtain ⟨rows, hlayout, hrows, hreads⟩ := exists_argument_rows hrest
  refine ⟨unnamed c :: rows.map Prod.snd, .cons hc.rereads hreads.rereads, ?_, ⟨c.position, ?_⟩,
    .inr ⟨atom_power_ne_zero _, isPrefixCall_of_prefix?_eq_none (by decide) _⟩⟩
  · have := HasForm.index (part c) (fragmentArgs (rows.map Prod.snd))
    rw [hreads.row, hc.eq] at this
    exact this
  · have := Spells.index hspells hpower hrows
    rw [hlayout] at this
    exact this

theorem readsForm_doubleIndex {target : Node} {rest : List (Arg Node)} (ht : Renders target)
    (hrest : ∀ a ∈ rest, a.name ≠ some "" ∧ Renders a.value) :
    ∃ args', ReadsForm "[[" (unnamed target :: rest)
      (.atom ((fragment target).leftOperand Operator.postfixPower false ++
        .lexeme .leftDouble ::
          (argumentRow (fragmentArgs rest) ++ [.lexeme .rightBracket, .lexeme .rightBracket])))
      args' false := by
  obtain ⟨c, hc⟩ := ht.leftOperand postfixPower_lt_atomPower false
  obtain ⟨whole, power, hspells, hpower, -⟩ := hc.spells
  obtain ⟨rows, hlayout, hrows, hreads⟩ := exists_argument_rows hrest
  refine ⟨unnamed c :: rows.map Prod.snd, .cons hc.rereads hreads.rereads, ?_, ⟨c.position, ?_⟩,
    .inr ⟨atom_power_ne_zero _, isPrefixCall_of_prefix?_eq_none (by decide) _⟩⟩
  · have := HasForm.doubleIndex (part c) (fragmentArgs (rows.map Prod.snd))
    rw [hreads.row, hc.eq] at this
    exact this
  · have := Spells.doubleIndex hspells hpower hrows
    rw [hlayout] at this
    exact this

theorem readsForm_block {ns : List Node} (h : ∀ n ∈ ns, Renders n) :
    ∃ args', ReadsForm "\x7b" (ns.map unnamed)
      (.atom (blockLayout ((ns.map part).map Prod.snd))) args' true := by
  obtain ⟨rows, hlayout, hrows, hreads⟩ := exists_statement_rows h
  have hstatements : ∀ ms : List Node, blockLayout ((ms.map part).map Prod.snd) =
      .lexeme .leftBrace ::
        ((ms.map fun n => (fragment n).layout).flatMap
            (fun l => .lineBreak 1 :: Layout.deepen l) ++
          [.lineBreak 0, .lexeme .rightBrace]) := by
    intro ms
    simp only [blockLayout, List.map_map, List.flatMap_map, List.cons_append]
    rfl
  have hsame : ((rows.map Prod.snd).map fun n => (fragment n).layout) =
      ns.map fun n => (fragment n).layout := by
    clear hlayout hrows h
    generalize rows.map Prod.snd = ms at hreads
    induction hreads with
    | nil => rfl
    | cons hm _ ih => rw [List.map_cons, List.map_cons, ih, hm.layout]
  have hrereads : RereadsArgs (ns.map unnamed) ((rows.map Prod.snd).map unnamed) := by
    clear hlayout hrows h hsame
    generalize rows.map Prod.snd = ms at hreads
    induction hreads with
    | nil => exact .nil
    | cons hm _ ih => exact .cons hm.rereads ih
  refine ⟨(rows.map Prod.snd).map unnamed, hrereads, ?_, ⟨.nowhere, ?_⟩, .inl rfl⟩
  · have := HasForm.block ((rows.map Prod.snd).map part)
    rw [hstatements, hsame, ← hstatements, ← fragmentArgs_map_unnamed] at this
    exact this
  · have := Spells.block hrows
    rw [hstatements, ← hlayout, List.flatMap_map]
    exact this

theorem readsForm_group {inner : Node} (h : Renders inner) :
    ∃ args', ReadsForm "(" [unnamed inner] (.atom (fragment inner).layout.inParens) args' true := by
  obtain ⟨m, whole, hm, hspells, -⟩ := h.plain
  refine ⟨[unnamed m], .one hm.rereads, ?_, ⟨.nowhere, .group hspells⟩, .inl rfl⟩
  have := HasForm.group (part m)
  rw [hm.layout] at this
  exact this

theorem readsForm_conditional {condition body : Node} (hc : Renders condition)
    (hb : Renders body) :
    ∃ args', ReadsForm "if" [unnamed condition, unnamed body]
      (.openEnded (controlLayout .ifWord (fragment condition).layout (fragment body).layout))
      args' true := by
  obtain ⟨c, _, hc, hcspells, -⟩ := hc.plain
  obtain ⟨b, _, hb, hbspells, -⟩ := hb.plain
  refine ⟨[unnamed c, unnamed b], .two hc.rereads hb.rereads, ?_,
    ⟨.nowhere, .conditional hcspells hbspells⟩, .inl rfl⟩
  have := HasForm.conditional (part c) (part b)
  rw [hc.layout, hb.layout] at this
  exact this

theorem readsForm_alternative {condition body other : Node} (hc : Renders condition)
    (hb : Renders body) (ho : Renders other) :
    ∃ args', ReadsForm "if" [unnamed condition, unnamed body, unnamed other]
      (.openEnded
        (controlLayout .ifWord (fragment condition).layout (closedLayout (fragment body)) ++
          [.space, .keyword .elseWord, .space] ++ (fragment other).layout))
      args' true := by
  obtain ⟨c, _, hc, hcspells, -⟩ := hc.plain
  obtain ⟨b, _, _, hb, hsame, hbspells⟩ := hb.closed
  obtain ⟨o, _, ho, hospells, -⟩ := ho.plain
  refine ⟨[unnamed c, unnamed b, unnamed o], .three hc.rereads hb ho.rereads, ?_,
    ⟨.nowhere, ?_⟩, .inl rfl⟩
  · have := HasForm.alternative (part c) (part b) (part o)
    rw [hc.layout, ho.layout] at this
    rw [← hsame]
    exact this
  · simp only [Form.openEnded, controlLayout, List.append_assoc, List.cons_append,
      List.nil_append]
    exact .alternative hcspells hbspells hospells

theorem readsForm_whileLoop {condition body : Node} (hc : Renders condition)
    (hb : Renders body) :
    ∃ args', ReadsForm "while" [unnamed condition, unnamed body]
      (.openEnded (controlLayout .whileWord (fragment condition).layout (fragment body).layout))
      args' true := by
  obtain ⟨c, _, hc, hcspells, -⟩ := hc.plain
  obtain ⟨b, _, hb, hbspells, -⟩ := hb.plain
  refine ⟨[unnamed c, unnamed b], .two hc.rereads hb.rereads, ?_,
    ⟨.nowhere, .whileLoop hcspells hbspells⟩, .inl rfl⟩
  have := HasForm.whileLoop (part c) (part b)
  rw [hc.layout, hb.layout] at this
  exact this

theorem readsForm_forLoop {name : String} {p : Position} {sequence body : Node} (hname : name ≠ "")
    (hs : Renders sequence) (hb : Renders body) :
    ∃ args', ReadsForm "for" [unnamed (.symbol name p), unnamed sequence, unnamed body]
      (.openEnded
        (controlLayout .forWord
          ([.symbol name, .space, .keyword .inWord, .space] ++ (fragment sequence).layout)
          (fragment body).layout))
      args' true := by
  obtain ⟨s, _, hs, hsspells, -⟩ := hs.plain
  obtain ⟨b, _, hb, hbspells, -⟩ := hb.plain
  refine ⟨[unnamed (.symbol name .nowhere), unnamed s, unnamed b],
    .three (.plain .symbol) hs.rereads hb.rereads, ?_,
    ⟨.nowhere, .forLoop hname hsspells hbspells⟩, .inl rfl⟩
  have := HasForm.forLoop name .nowhere (fragment (.symbol name .nowhere)) (part s) (part b)
  rw [hs.layout, hb.layout] at this
  exact this

theorem readsForm_repeatLoop {body : Node} (hb : Renders body) :
    ∃ args', ReadsForm "repeat" [unnamed body]
      (.openEnded ([.keyword .repeatWord, .space] ++ (fragment body).layout)) args' true := by
  obtain ⟨b, _, hb, hbspells, -⟩ := hb.plain
  refine ⟨[unnamed b], .one hb.rereads, ?_, ⟨.nowhere, .repeatLoop hbspells⟩, .inl rfl⟩
  have := HasForm.repeatLoop (part b)
  rw [hb.layout] at this
  exact this

theorem readsForm_unary {name : String} {power : Nat} {operand : Node}
    (hp : Operator.prefix? name = some power) (h : Renders operand) :
    ∃ args', ReadsForm name [unnamed operand] (unaryForm name power (part operand)) args' true := by
  obtain ⟨-, hlimit, htail⟩ := prefix?_power hp
  have hneeds : power < atomPower := Nat.lt_trans hlimit postfixPower_lt_atomPower
  obtain ⟨l, isOpen, c, hc⟩ := h.operand hneeds operand.isStrict
  have hform : unaryForm name power (part operand) = ⟨.operator name :: l, power, isOpen⟩ := by
    have : (fragment operand).operand power (isCall operand && !isPrefixCall operand) =
        (l, isOpen) := hc.eq
    simp only [unaryForm, this]
  have hform' : unaryForm name power (part c) = ⟨.operator name :: l, power, isOpen⟩ := by
    have : (fragment c).operand power (isCall c && !isPrefixCall c) = (l, isOpen) :=
      hc.operand_self rfl
    simp only [unaryForm, this]
  obtain ⟨whole, power', hspells, hstrength⟩ := hc.spells
  refine ⟨[unnamed c], .one hc.rereads, ?_, ⟨.nowhere, ?_⟩, .inl rfl⟩
  · rw [hform, ← hform']
    exact .unary (part c) hp
  · rw [hform]
    refine .unary hp hspells ?_ ?_
    · rcases hstrength with ⟨-, hwhole⟩ | ⟨-, hlt, hnonstrict⟩
      · exact .inl hwhole
      · cases hs : operand.isStrict with
        | true => exact .inr (hlt hs)
        | false => exact hnonstrict hs
    · rcases hstrength with ⟨hopen, -⟩ | ⟨hle, -⟩
      · exact .inl hopen
      · refine .inr ?_
        rw [← htail]
        exact tailPower_mono hle

/-- A name or a text comes back as itself from its layout. -/
theorem member_spells {n : Node} (hmember : isMember n = true) (hwell : n.WellFormed) :
    ∃ u m, (fragment n).layout = [.lexeme u] ∧ u.IsReadable ∧
      Parser.memberNode? ⟨u, .nowhere⟩ = some m ∧ ComesBack n m ∧
      (fragment m).layout = (fragment n).layout := by
  cases n with
  | symbol name p => exact ⟨.symbol name, .symbol name .nowhere, rfl, hwell, rfl, .symbol, rfl⟩
  | constant a p =>
    cases a with
    | text s =>
      exact ⟨.text s, .constant (.text s) .nowhere, rfl, trivial, rfl,
        .constant rfl (beq_self_eq_true s), rfl⟩
    | _ => cases hmember
  | _ => cases hmember

/-- A member operator has a power of its own, which its left operand must have, too. -/
theorem member_tailPower {name : String} {b : Operator.Binding}
    (h : name ∈ Operator.members ∨ name ∈ Operator.qualifiers)
    (hb : Operator.binary? name = some b) :
    b = ⟨b.power, false⟩ ∧ b.power < atomPower ∧ tailPower b.power = b.power := by
  have table : ∀ s ∈ Operator.members ++ Operator.qualifiers, ∀ c ∈ Operator.binary? s,
      c = ⟨c.power, false⟩ ∧ c.power < atomPower ∧ tailPower c.power = c.power := by decide
  exact table name (List.mem_append.mpr h) b hb

theorem readsForm_selection {name : String} {b : Operator.Binding} {left right : Node}
    (hm : name ∈ Operator.members) (hb : Operator.binary? name = some b)
    (hmember : isMember right = true) (hwell : right.WellFormed) (hl : Renders left) :
    ∃ args', ReadsForm name [unnamed left, unnamed right]
      (memberForm name b.power ((fragment left).leftOperand b.power false)
        (fragment right).layout) args' false := by
  obtain ⟨hshape, hneeds, htail⟩ := member_tailPower (.inl hm) hb
  obtain ⟨c, hc⟩ := hl.leftOperand hneeds false
  obtain ⟨whole, power, hspells, hpower, -⟩ := hc.spells
  obtain ⟨u, m, hlayout, hu, hnode, hcomes, hsame⟩ := member_spells hmember hwell
  have hrereads : Rereads right m := .plain hcomes
  refine ⟨[unnamed c, unnamed m], .two hc.rereads hrereads, ?_, ⟨c.position, ?_⟩,
    .inr ⟨?_, fun _ _ => rfl⟩⟩
  · have := HasForm.selection (part c) (part m) hm hb (hrereads.isMember_eq.trans hmember)
    rw [hc.eq, hsame] at this
    exact this
  · have htakes : Parser.TakesMember name c := by
      rcases (by simpa [Operator.members] using hm : name = "$" ∨ name = "@") with h | h
      · exact .inl h
      · exact .inr (.inl h)
    rw [hshape] at hb
    simp only [memberForm, hlayout]
    exact .member hb htakes hu hnode hspells (htail ▸ tailPower_mono hpower)
  · exact Nat.ne_of_gt (binary?_power hb).1

theorem isNamespace_eq (n : Node) : Parser.isNamespace n = isMember n := by
  cases n with
  | constant a p => cases a with | _ => rfl
  | _ => rfl

/-- A name or a text needs no protection. -/
theorem member_form {n : Node} (h : isMember n = true) :
    (fragment n).power = atomPower ∧ (fragment n).isOpen = false := by
  cases n with
  | symbol => exact ⟨rfl, rfl⟩
  | constant a p =>
    cases a with
    | text => exact ⟨rfl, rfl⟩
    | _ => cases h
  | _ => cases h

theorem readsForm_qualified {name : String} {b : Operator.Binding} {left right : Node}
    (hq : name ∈ Operator.qualifiers) (hb : Operator.binary? name = some b)
    (hleft : isMember left = true) (hright : isMember right = true) (hwell : right.WellFormed)
    (hl : Renders left) :
    ∃ args', ReadsForm name [unnamed left, unnamed right]
      (memberForm name b.power (fragment left).layout (fragment right).layout) args' false := by
  obtain ⟨hshape, hneeds, htail⟩ := member_tailPower (.inr hq) hb
  obtain ⟨c, whole, hc, hspells, -⟩ := hl.plain
  obtain ⟨hpower, hopen⟩ := member_form hleft
  obtain ⟨u, m, hlayout, hu, hnode, hcomes, hsame⟩ := member_spells hright hwell
  have hrereads : Rereads right m := .plain hcomes
  have hmember : isMember c = true := hc.rereads.isMember_eq.trans hleft
  rw [hpower, hopen] at hspells
  refine ⟨[unnamed c, unnamed m], .two hc.rereads hrereads, ?_, ⟨c.position, ?_⟩,
    .inr ⟨?_, fun _ _ => rfl⟩⟩
  · have := HasForm.qualified (part c) (part m) hq hb hmember
      (hrereads.isMember_eq.trans hright)
    rw [hc.layout, hsame] at this
    exact this
  · have htakes : Parser.TakesMember name c := by
      refine .inr (.inr ⟨?_, (isNamespace_eq c).trans hmember⟩)
      simpa [Operator.qualifiers] using hq
    rw [hshape] at hb
    simp only [memberForm, hlayout]
    exact .member hb htakes hu hnode hspells (htail ▸ tailPower_mono (Nat.le_of_lt hneeds))
  · exact Nat.ne_of_gt (binary?_power hb).1

theorem ofSpelling?_of_table {name : String} {b : Operator.Binding}
    (h : (name, b) ∈ Operator.binaryTable) : Operator.ofSpelling? name = some name := by
  have table : ∀ e ∈ Operator.binaryTable, Operator.ofSpelling? e.1 = some e.1 := by decide
  exact table (name, b) h

theorem readsForm_binary {name : String} {b : Operator.Binding} {left right : Node}
    (hb : Operator.binary? name = some b) (hm : name ∉ Operator.members)
    (hq : name ∉ Operator.qualifiers) (hn : name ∉ notInfix)
    (hname : Operator.isSpecial name = true →
      ∀ c ∈ Operator.inner name, c ≠ '%' ∧ c ≠ '\n')
    (hl : Renders left) (hr : Renders right) :
    ∃ args', ReadsForm name [unnamed left, unnamed right]
      (binaryForm name b (part left) (part right)) args' false := by
  obtain ⟨hpos, htail, hright, hassoc⟩ := binary?_power hb
  have hneeds : b.power < atomPower :=
    Nat.lt_trans (rightPower_lt hb hm hq) postfixPower_lt_atomPower
  obtain ⟨c, hc⟩ := hl.leftOperand hneeds b.rightAssociative
  obtain ⟨whole, power, hspells, hpower, hstrict⟩ := hc.spells
  obtain ⟨l, isOpen, d, hd⟩ := hr.operand hneeds (!b.rightAssociative)
  obtain ⟨whole', power', hspells', hstrength⟩ := hd.spells
  have hreadable : Operator.IsReadable name := by
    rcases binary?_cases hb with htable | ⟨hspecial, -⟩
    · exact .inl (ofSpelling?_of_table htable)
    · exact .inr ⟨hspecial, hname hspecial⟩
  have hplain : name ∉ ["->", "->>", "|>"] := by
    intro h
    refine hn ?_
    simp only [notInfix, List.mem_cons, List.not_mem_nil, or_false] at h ⊢
    rcases h with rfl | rfl | rfl <;> simp
  -- an operand of the same power stands only on the side to which the operator associates
  have hleftTail : b.power ≤ tailPower power := by
    cases hra : b.rightAssociative with
    | true =>
      have := hstrict hra
      unfold tailPower
      split <;> omega
    | false =>
      have hself : b.power = tailPower b.power := by
        rw [tailPower, if_neg fun h => Bool.noConfusion (hra.symm.trans (hassoc.mpr h))]
      rw [hself]
      exact tailPower_mono hpower
  have hstart : whole' = true ∨ Parser.rightPower b < power' := by
    rcases hstrength with ⟨-, hwhole⟩ | ⟨hle, hlt, -⟩
    · exact .inl hwhole
    · refine .inr ?_
      cases hra : b.rightAssociative with
      | true =>
        have hpowers := hassoc.mp hra
        rw [← htail, tailPower, if_pos hpowers]
        omega
      | false =>
        have := hlt (by rw [hra]; rfl)
        omega
  have hrightTail : isOpen = true ∨ Parser.rightPower b ≤ tailPower power' := by
    rcases hstrength with ⟨hopen, -⟩ | ⟨hle, -⟩
    · exact .inl hopen
    · exact .inr (htail ▸ tailPower_mono hle)
  refine ⟨[unnamed c, unnamed d], .two hc.rereads hd.rereads, ?_, ⟨c.position, ?_⟩,
    .inr ⟨Nat.ne_of_gt hpos, fun _ _ => rfl⟩⟩
  · have := HasForm.binary (part c) (part d) hb hm hq hn
    have hsame : binaryForm name b (part c) (part d) = binaryForm name b (part left) (part right) := by
      simp only [binaryForm, hc.eq, hd.eq, hd.operand]
    rw [hsame] at this
    exact this
  · have := Spells.binary hb hreadable hm hq hplain hspells hleftTail hspells' hstart hrightTail
    have hlayout : (binaryForm name b (part left) (part right)) =
        ⟨(fragment left).leftOperand b.power b.rightAssociative ++
          (gap name ++ .operator name :: (gap name ++ l)), b.power, isOpen⟩ := by
      simp only [binaryForm, hd.eq, gap, List.append_assoc, List.cons_append]
    rw [hlayout]
    exact this

theorem readsForm_jump {k : Keyword} {form : Form}
    (hform : HasForm k.spelling [] form) (hlayout : form = .atom [.keyword k])
    (hspells : Spells (.expression true atomPower false) [.keyword k]
      (.node (callOf k.spelling []))) :
    ∃ args', ReadsForm k.spelling [] form args' true := by
  subst hlayout
  exact ⟨[], .nil, hform, ⟨.nowhere, hspells⟩, .inl rfl⟩

/-- The form of a call that is no function definition is a spelling of a call of the same form. -/
theorem exists_readsForm {name : String} {p : Position} {args : List (Arg Node)} {form : Form}
    (h : HasForm name (fragmentArgs args) form)
    (hname : IsOperatorName (.symbol name p) args)
    (hargs : ∀ a ∈ args,
      a.name ≠ some "" ∧ a.value.isParams = false ∧ a.value.WellFormed ∧ Renders a.value) :
    ∃ args' whole, ReadsForm name args form args' whole := by
  have hrenders : ∀ a ∈ args, Renders a.value := fun a ha => (hargs a ha).2.2.2
  generalize hfragments : fragmentArgs args = parts at h
  cases h with
  | index target rest =>
    obtain ⟨n, args, rfl, rfl, rfl⟩ := fragmentArgs_cons_inv hfragments.symm
    obtain ⟨hn, hrest⟩ := List.forall_mem_cons.mp hargs
    obtain ⟨args', hreads⟩ := readsForm_index hn.2.2.2
      fun a ha => ⟨(hrest a ha).1, (hrest a ha).2.2.2⟩
    exact ⟨args', false, hreads⟩
  | doubleIndex target rest =>
    obtain ⟨n, args, rfl, rfl, rfl⟩ := fragmentArgs_cons_inv hfragments.symm
    obtain ⟨hn, hrest⟩ := List.forall_mem_cons.mp hargs
    obtain ⟨args', hreads⟩ := readsForm_doubleIndex hn.2.2.2
      fun a ha => ⟨(hrest a ha).1, (hrest a ha).2.2.2⟩
    exact ⟨args', false, hreads⟩
  | block statements =>
    obtain ⟨ns, rfl, rfl⟩ := fragmentArgs_map_inv hfragments.symm
    obtain ⟨args', hreads⟩ := readsForm_block fun n hn =>
      hrenders (unnamed n) (List.mem_map_of_mem hn)
    exact ⟨args', true, hreads⟩
  | group inner =>
    obtain ⟨n, rfl, rfl⟩ := fragmentArgs_one_inv hfragments.symm
    obtain ⟨args', hreads⟩ := readsForm_group (hrenders (unnamed n) (by simp))
    exact ⟨args', true, hreads⟩
  | conditional condition body =>
    obtain ⟨n₁, n₂, rfl, rfl, rfl⟩ := fragmentArgs_two_inv hfragments.symm
    obtain ⟨args', hreads⟩ := readsForm_conditional (hrenders (unnamed n₁) (by simp))
      (hrenders (unnamed n₂) (by simp))
    exact ⟨args', true, hreads⟩
  | alternative condition body other =>
    obtain ⟨n₁, n₂, n₃, rfl, rfl, rfl, rfl⟩ := fragmentArgs_three_inv hfragments.symm
    obtain ⟨args', hreads⟩ := readsForm_alternative (hrenders (unnamed n₁) (by simp))
      (hrenders (unnamed n₂) (by simp)) (hrenders (unnamed n₃) (by simp))
    exact ⟨args', true, hreads⟩
  | forLoop variableName q f sequence body =>
    obtain ⟨n₁, n₂, n₃, rfl, hvariable, rfl, rfl⟩ := fragmentArgs_three_inv hfragments.symm
    obtain ⟨rfl, -⟩ := Prod.mk.inj hvariable
    obtain ⟨-, -, hwell, -⟩ := hargs (unnamed (.symbol variableName q)) (by simp)
    obtain ⟨args', hreads⟩ := readsForm_forLoop (p := q) hwell (hrenders (unnamed n₂) (by simp))
      (hrenders (unnamed n₃) (by simp))
    exact ⟨args', true, hreads⟩
  | whileLoop condition body =>
    obtain ⟨n₁, n₂, rfl, rfl, rfl⟩ := fragmentArgs_two_inv hfragments.symm
    obtain ⟨args', hreads⟩ := readsForm_whileLoop (hrenders (unnamed n₁) (by simp))
      (hrenders (unnamed n₂) (by simp))
    exact ⟨args', true, hreads⟩
  | repeatLoop body =>
    obtain ⟨n, rfl, rfl⟩ := fragmentArgs_one_inv hfragments.symm
    obtain ⟨args', hreads⟩ := readsForm_repeatLoop (hrenders (unnamed n) (by simp))
    exact ⟨args', true, hreads⟩
  | definition items q f body =>
    obtain ⟨n₁, n₂, rfl, hitems, -⟩ := fragmentArgs_two_inv hfragments.symm
    obtain ⟨rfl, -⟩ := Prod.mk.inj hitems
    obtain ⟨-, hparams, -⟩ := hargs (unnamed (.params items q)) (by simp)
    cases hparams
  | breakJump =>
    obtain rfl := fragmentArgs_nil_inv hfragments.symm
    obtain ⟨args', hreads⟩ := readsForm_jump (k := .breakWord) .breakJump rfl .breakJump
    exact ⟨args', true, hreads⟩
  | nextJump =>
    obtain rfl := fragmentArgs_nil_inv hfragments.symm
    obtain ⟨args', hreads⟩ := readsForm_jump (k := .nextWord) .nextJump rfl .nextJump
    exact ⟨args', true, hreads⟩
  | unary operand hp =>
    obtain ⟨n, rfl, rfl⟩ := fragmentArgs_one_inv hfragments.symm
    obtain ⟨args', hreads⟩ := readsForm_unary hp (hrenders (unnamed n) (by simp))
    exact ⟨args', true, hreads⟩
  | selection left right hm hb hright =>
    obtain ⟨n₁, n₂, rfl, rfl, rfl⟩ := fragmentArgs_two_inv hfragments.symm
    obtain ⟨-, -, hwell, -⟩ := hargs (unnamed n₂) (by simp)
    obtain ⟨args', hreads⟩ := readsForm_selection hm hb hright hwell
      (hrenders (unnamed n₁) (by simp))
    exact ⟨args', false, hreads⟩
  | qualified left right hq hb hleft hright =>
    obtain ⟨n₁, n₂, rfl, rfl, rfl⟩ := fragmentArgs_two_inv hfragments.symm
    obtain ⟨-, -, hwell, -⟩ := hargs (unnamed n₂) (by simp)
    obtain ⟨args', hreads⟩ := readsForm_qualified hq hb hleft hright hwell
      (hrenders (unnamed n₁) (by simp))
    exact ⟨args', false, hreads⟩
  | binary left right hb hm hq hn =>
    obtain ⟨n₁, n₂, rfl, rfl, rfl⟩ := fragmentArgs_two_inv hfragments.symm
    obtain ⟨args', hreads⟩ := readsForm_binary hb hm hq hn (hname name p n₁ n₂ rfl rfl)
      (hrenders (unnamed n₁) (by simp)) (hrenders (unnamed n₂) (by simp))
    exact ⟨args', false, hreads⟩

end RCode.Printer
