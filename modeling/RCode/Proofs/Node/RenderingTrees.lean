import RCode.Proofs.Double.Bits
import RCode.Proofs.Node.RenderingForms

/-!
# Writable trees are rendered

The layouts of every writable tree are spellings of trees that are laid out the same (`renders`), by
induction on the tree. A call of a name is guarded by writing the name first; a function definition
and a number below zero are guarded by round brackets.
-/

set_option autoImplicit false

namespace RCode.Printer

open Grammar Node

/-! ## Calls -/

/-- The form of a call of a name: its own, or that of any call. -/
def nameForm (name : String) (args : List (Arg Part)) : Form :=
  (specialForm? name args).getD (.atom ([.symbol name] ++ (argumentRow args).inParens))

theorem fragment_toForm_call (name : String) (args : List (Arg Node)) (p q : Position) :
    (fragment (.call (.symbol name p) args q)).toForm = nameForm name (fragmentArgs args) := by
  simp only [fragment, callFragment, prefixForm]
  split <;> rfl

/-- A form that needs no protection is guarded already. -/
theorem guarded_atom (l : Layout) : (Form.atom l).fragment.guarded = l := by
  have hbracketed : (Form.atom l).bracketed = l :=
    if_neg fun h => h.elim (Nat.lt_irrefl _) Bool.noConfusion
  exact hbracketed

/-- A call of a name is guarded by being written with the name first, unless it is a function
definition. -/
theorem fragment_guarded_call {name : String} {args : List (Arg Node)}
    (h : name = "function" → specialForm? name (fragmentArgs args) = none) (p q : Position) :
    (fragment (.call (.symbol name p) args q)).guarded =
      [.symbol name] ++ (argumentRow (fragmentArgs args)).inParens := by
  simp only [fragment, callFragment, prefixForm]
  split
  · next hname =>
    rw [h hname]
    exact guarded_atom _
  · rfl

/-- Only calls with a parameter list have the form of a function definition. -/
theorem HasForm.params_of_function {args : List (Arg Part)} {form : Form}
    (h : HasForm "function" args form) :
    ∃ items p f body, args = [unnamed (.params items p, f), unnamed body] := by
  generalize hname : "function" = name at h
  cases h with
  | definition items p f body => exact ⟨items, p, f, body, rfl⟩
  | unary operand hp => subst hname; cases hp
  | selection left right hm => subst hname; exact absurd hm (by decide)
  | qualified left right hq => subst hname; exact absurd hq (by decide)
  | binary left right hb =>
    subst hname
    exact absurd hb (by rw [show Operator.binary? "function" = none by decide]; simp)
  | _ => exact absurd hname (by decide)

/-- A call without parameters has no form of a function definition. -/
theorem specialForm?_function {name : String} {args : List (Arg Node)}
    (h : ∀ a ∈ args, a.value.isParams = false) (hname : name = "function") :
    specialForm? name (fragmentArgs args) = none := by
  subst hname
  cases hform : specialForm? "function" (fragmentArgs args) with
  | none => rfl
  | some form =>
    obtain ⟨items, p, f, body, hargs⟩ := (specialForm?_eq_some.mp hform).params_of_function
    obtain ⟨n₁, n₂, rfl, hitems, -⟩ := fragmentArgs_two_inv hargs.symm
    obtain ⟨rfl, -⟩ := Prod.mk.inj hitems
    cases h (unnamed (.params items p)) (by simp)

theorem nameForm_of_hasForm {name : String} {args : List (Arg Part)} {form : Form}
    (h : HasForm name args form) : nameForm name args = form := by
  rw [nameForm, specialForm?_eq_some.mpr h]
  rfl

/-- Calls of parts that are treated alike are written with forms of the same power. -/
theorem nameForm_alike (name : String) {args args' : List (Arg Part)} (h : AlikeArgs args args') :
    (nameForm name args').power = (nameForm name args).power ∧
      (nameForm name args').isOpen = (nameForm name args).isOpen := by
  cases hform : specialForm? name args with
  | none =>
    rw [nameForm, nameForm, hform, specialForm?_eq_none_of_alike h hform]
    exact ⟨rfl, rfl⟩
  | some form =>
    obtain ⟨form', hform', hpower, hopen⟩ := (specialForm?_eq_some.mp hform).alike h
    rw [nameForm_of_hasForm hform', nameForm, hform]
    exact ⟨hpower, hopen⟩

/-- A call without a form of its own is no call of a prefix operator. -/
theorem isPrefixCall_of_specialForm?_eq_none {name : String} {args : List (Arg Node)}
    {p q : Position} (h : specialForm? name (fragmentArgs args) = none) :
    isPrefixCall (.call (.symbol name p) args q) = false := by
  unfold isPrefixCall
  split
  · next operand _ heq =>
    obtain ⟨hsymbol, rfl, -⟩ := Node.call.inj heq
    obtain ⟨rfl, -⟩ := Node.symbol.inj hsymbol
    cases hp : Operator.prefix? name with
    | none => rfl
    | some power =>
      have := specialForm?_eq_some.mpr (HasForm.unary (part operand) hp)
      exact absurd (h.symm.trans this) (by simp)
  · rfl

/-- The call written with its name first is a spelling of a call that is written the same so. -/
theorem exists_prefix_call {name : String} {args : List (Arg Node)} (hname : name ≠ "")
    (hargs : ∀ a ∈ args, a.name ≠ some "" ∧ Renders a.value) :
    ∃ args', ReadsArguments args args' ∧ ∃ p,
      Spells (.expression false atomPower false)
        ([.symbol name] ++ (argumentRow (fragmentArgs args)).inParens)
        (.node (.call (.symbol name .nowhere) args' p)) := by
  obtain ⟨rows, hlayout, hspells, hreads⟩ := exists_argument_rows hargs
  refine ⟨rows.map Prod.snd, hreads, .nowhere, ?_⟩
  rw [← hlayout]
  exact .application (.symbol hname) (by decide) hspells

/-- A call of a name that is no function definition is rendered. -/
theorem renders_call_name {name : String} {args : List (Arg Node)} {p q : Position}
    (hempty : name ≠ "")
    (hname : IsOperatorName (.symbol name p) args)
    (hargs : ∀ a ∈ args,
      a.name ≠ some "" ∧ a.value.isParams = false ∧ a.value.WellFormed ∧ Renders a.value) :
    Renders (.call (.symbol name p) args q) := by
  have hhead : Rereads (.symbol name p) (.symbol name .nowhere) := .plain .symbol
  obtain ⟨args', hreads, r, hspells⟩ := exists_prefix_call hempty
    fun a ha => ⟨(hargs a ha).1, (hargs a ha).2.2.2⟩
  obtain ⟨hpower, hopen⟩ := nameForm_alike name hreads.alike
  have hfunction : name = "function" → specialForm? name (fragmentArgs args) = none :=
    specialForm?_function fun a ha => (hargs a ha).2.1
  have hfunction' : name = "function" → specialForm? name (fragmentArgs args') = none :=
    fun h => specialForm?_eq_none_of_alike hreads.alike (hfunction h)
  have hguarded : ReadsGuarded (.call (.symbol name p) args q)
      (.call (.symbol name .nowhere) args' r) := by
    refine .call (.call hhead hreads.rereads) ?_ ?_ ?_
    · rw [fragment_toForm_call, fragment_toForm_call]
      exact hpower
    · rw [fragment_toForm_call, fragment_toForm_call]
      exact hopen
    · rw [fragment_guarded_call hfunction, fragment_guarded_call hfunction', hreads.row]
  refine ⟨?_, _, false, hguarded, by rw [fragment_guarded_call hfunction]; exact hspells⟩
  rw [fragment_toForm_call]
  cases hform : specialForm? name (fragmentArgs args) with
  | none =>
    have hatom : nameForm name (fragmentArgs args) =
        .atom ([.symbol name] ++ (argumentRow (fragmentArgs args)).inParens) := by
      rw [nameForm, hform]
      rfl
    rw [hatom]
    refine ⟨_, false, ⟨.call hhead hreads.rereads, ?_⟩, hspells, ?_⟩
    · rw [fragment_toForm_call, fragment_toForm_call, hatom, nameForm,
        specialForm?_eq_none_of_alike hreads.alike hform, hreads.row]
      rfl
    · have hstrict : (Node.call (.symbol name p) args q).isStrict = true := by
        rw [isStrict, isPrefixCall_of_specialForm?_eq_none hform]
        rfl
      rintro (hnot | hzero)
      · exact absurd hstrict (by rw [hnot]; decide)
      · exact absurd hzero (atom_power_ne_zero [])
  | some form =>
    have hhas := specialForm?_eq_some.mp hform
    obtain ⟨args', whole, hreads⟩ := exists_readsForm hhas hname hargs
    obtain ⟨r, hspells⟩ := hreads.spells
    rw [nameForm_of_hasForm hhas]
    refine ⟨_, whole, ⟨.call hhead hreads.rereads, ?_⟩, hspells, ?_⟩
    · rw [fragment_toForm_call, fragment_toForm_call, nameForm_of_hasForm hhas,
        nameForm_of_hasForm hreads.hasForm]
    · rcases hreads.whole with hwhole | ⟨hpower, hprefix⟩
      · exact fun _ => hwhole
      · rintro (hstrict | hzero)
        · rw [isStrict, hprefix p q] at hstrict
          cases hstrict
        · exact absurd hzero hpower

/-- A call whose head is no name is rendered. -/
theorem renders_call_other {head : Node} {args : List (Arg Node)} {p : Position}
    (hhead : head.name? = none) (h : Renders head)
    (hargs : ∀ a ∈ args, a.name ≠ some "" ∧ Renders a.value) :
    Renders (.call head args p) := by
  have hform : ∀ {c : Node}, c.name? = none → ∀ (args : List (Arg Node)) (q : Position),
      fragment (.call c args q) = (Form.atom ((fragment c).leftOperand Operator.postfixPower false ++
        (argumentRow (fragmentArgs args)).inParens)).fragment := by
    intro c hc args q
    cases c with
    | symbol name r => cases hc
    | _ => rfl
  obtain ⟨c, hc⟩ := h.leftOperand postfixPower_lt_atomPower false
  obtain ⟨whole, power, hspells, hpower, -⟩ := hc.spells
  obtain ⟨rows, hlayout, hrows, hreads⟩ := exists_argument_rows hargs
  have hcomes : ComesBack (.call head args p) (.call c (rows.map Prod.snd) c.position) :=
    .call hc.rereads hreads.rereads
  have hsame : fragment (.call c (rows.map Prod.snd) c.position) = fragment (.call head args p) := by
    rw [hform hhead, hform (hc.rereads.name?_eq.trans hhead), hc.eq, hreads.row]
  have hspelled := Spells.application hspells hpower hrows
  rw [hlayout] at hspelled
  have hstrict : (Node.call head args p).isStrict = true := by
    cases head with
    | symbol name r => cases hhead
    | _ => rfl
  refine ⟨⟨_, false, ⟨hcomes, congrArg Fragment.toForm hsame⟩, ?_, ?_⟩, _, false,
    .call hcomes (by rw [hsame]) (by rw [hsame]) (by rw [hsame]), ?_⟩
  · rw [hform hhead]
    exact hspelled
  · rintro (hnot | hzero)
    · exact absurd hstrict (by rw [hnot]; decide)
    · rw [hform hhead] at hzero
      exact absurd hzero (atom_power_ne_zero [])
  · rw [hform hhead]
    rw [guarded_atom]
    exact hspelled

/-- A function definition is rendered. -/
theorem renders_definition {items : List (Param Node)} {body : Node} {p q r : Position}
    (hnames : (items.map Param.name).Nodup)
    (hitems : ∀ i ∈ items, i.name ≠ "" ∧ (i.default.isMissing = false → Renders i.default))
    (hbody : Renders body) :
    Renders (.call (.symbol "function" p) [unnamed (.params items q), unnamed body] r) := by
  have hform : ∀ (items : List (Param Node)) (body : Node) (p q r : Position),
      fragment (.call (.symbol "function" p) [unnamed (.params items q), unnamed body] r) =
        (Form.openEnded (.keyword .functionWord ::
          ((parameterRow (fragmentParams items)).inParens ++
            .space :: (fragment body).layout))).fragment := fun _ _ _ _ _ => rfl
  obtain ⟨rows, hlayout, hrows, hsame, hrereads, hrow⟩ := exists_parameter_rows hitems
  obtain ⟨b, _, hb, hbspells, -⟩ := hbody.plain
  have hcomes : ComesBack
      (.call (.symbol "function" p) [unnamed (.params items q), unnamed body] r)
      (callOf "function" [.params (rows.map Prod.snd) .nowhere, b]) :=
    .call (.plain .symbol) (.two (.plain (.params hrereads)) hb.rereads)
  have heq : fragment (callOf "function" [.params (rows.map Prod.snd) .nowhere, b]) =
      fragment (.call (.symbol "function" p) [unnamed (.params items q), unnamed body] r) := by
    rw [hform, ← hb.layout, ← hrow]
    rfl
  have hspells := Spells.definition hrows (by rw [hsame]; exact hnames) hbspells
  rw [hlayout] at hspells
  refine ⟨⟨_, true, ⟨hcomes, congrArg Fragment.toForm heq⟩, hspells, fun _ => rfl⟩, _, true,
    .inParens (.inParens (.inr (.intro items body p q r)) hcomes) ?_ (.inl rfl), .group hspells⟩
  rw [← heq]
  rfl

/-! ## Leaves -/

/-- A literal without a sign is rendered. -/
theorem renders_literal {a : Atom} {l : Lexeme} (p : Position) (hform : atomForm a = .atom [.lexeme l])
    (hliteral : Parser.isLiteral l = true) (hreadable : l.IsReadable)
    (hbelow : a.isBelowZero = false) (hsame : a.same l.value = true)
    (hagain : atomForm l.value = .atom [.lexeme l]) : Renders (.constant a p) := by
  have hcomes : ComesBack (.constant a p) (.constant l.value .nowhere) := .constant hbelow hsame
  have heq : fragment (.constant a p) = (Form.atom [.lexeme l]).fragment := by
    rw [fragment, hform]
  have heq' : fragment (.constant l.value .nowhere) = (Form.atom [.lexeme l]).fragment := by
    rw [fragment, hagain]
  have hspells := Spells.literal hliteral hreadable
  refine ⟨⟨_, true, ⟨hcomes, by rw [heq, heq']⟩, ?_, fun _ => rfl⟩, _, true,
    .call hcomes (by rw [heq, heq']) (by rw [heq, heq']) (by rw [heq, heq']), ?_⟩
  · rw [heq]
    exact hspells
  · rw [heq, guarded_atom]
    exact hspells

/-- A number below zero is rendered: it is written as a call of the minus. -/
theorem renders_belowZero {a : Atom} {l : Lexeme} (p : Position)
    (hform : atomForm a = numberForm true l)
    (hliteral : Parser.isLiteral l = true) (hreadable : l.IsReadable)
    (hbelow : a.isBelowZero = true) (hvalue : l.value = a.absolute)
    (hagain : atomForm a.absolute = .atom [.lexeme l]) : Renders (.constant a p) := by
  obtain ⟨power, hminus, hpower⟩ :
      ∃ power, Operator.prefix? "-" = some power ∧ Operator.assignPower < power :=
    ⟨140, by decide, by decide⟩
  obtain ⟨-, hlimit, htail⟩ := prefix?_power hminus
  have hbelow_atom : power < atomPower := Nat.lt_trans hlimit postfixPower_lt_atomPower
  have hcomes : ComesBack (.constant a p) (callOf "-" [.constant a.absolute .nowhere]) :=
    .belowZero hbelow
  have heq : fragment (.constant a p) =
      Form.fragment ⟨[.operator "-", .lexeme l], power, false⟩ := by
    rw [fragment, hform, numberForm, if_pos rfl, hminus, Option.getD_some]
  have hguarded : (fragment (.constant a p)).guarded =
      Layout.inParens [.operator "-", .lexeme l] := by
    rw [heq]
    exact if_pos (.inl hbelow_atom)
  have hoperand : fragment (.constant a.absolute .nowhere) = (Form.atom [.lexeme l]).fragment := by
    rw [fragment, hagain]
  have hsame : (fragment (callOf "-" [.constant a.absolute .nowhere])).toForm =
      ⟨[.operator "-", .lexeme l], power, false⟩ := by
    refine (fragment_toForm_call _ _ _ _).trans
      ((nameForm_of_hasForm (.unary (part (.constant a.absolute .nowhere)) hminus)).trans ?_)
    have hatom : (fragment (.constant a.absolute .nowhere)).toForm = .atom [.lexeme l] := by
      rw [hoperand]
      rfl
    simp only [unaryForm, operand_atom hatom hbelow_atom]
  have hspells : Spells (.expression true power false) [.operator "-", .lexeme l]
      (.node (callOf "-" [.constant a.absolute .nowhere])) := by
    have := Spells.literal hliteral hreadable
    rw [hvalue] at this
    exact .unary hminus this (.inl rfl)
      (.inr (htail ▸ tailPower_mono (Nat.le_of_lt hbelow_atom)))
  refine ⟨⟨_, true, ⟨hcomes, by rw [hsame, heq]; rfl⟩, ?_, fun _ => rfl⟩,
    callOf "(" [callOf "-" [.constant a.absolute .nowhere]], true,
    .inParens (.inParens (.inl hbelow) hcomes) ?_ ?_, ?_⟩
  · rw [heq]
    exact hspells
  · have := nameForm_of_hasForm
      (.group (part (callOf "-" [.constant a.absolute .nowhere])))
    refine (fragment_toForm_call _ _ _ _).trans (this.trans ?_)
    rw [hguarded, hsame]
  · rw [heq]
    exact .inr hpower
  · rw [hguarded]
    exact .group hspells

/-- The literal of a double. -/
def doubleLexeme (x : Float) : Lexeme :=
  if Double.isInfinite x then .constant .infinity else .double (Double.absolute x)

theorem doubleLexeme_spec {x : Float} (h : Double.isNaN x = false) :
    Parser.isLiteral (doubleLexeme x) = true ∧ (doubleLexeme x).IsReadable ∧
      (doubleLexeme x).value = .double (Double.absolute x) := by
  unfold doubleLexeme
  split
  · next hinfinite =>
    have habsolute := (Double.absolute_of_isInfinite hinfinite).symm
    exact ⟨rfl, trivial, congrArg Atom.double habsolute⟩
  · next hfinite =>
    refine ⟨rfl, ⟨?_, Double.isNegative_absolute h⟩, rfl⟩
    rw [Double.isFinite_absolute h]
    exact Double.isFinite_of_not_isInfinite h (eq_false_of_ne_true hfinite)

theorem doubleForm_eq {x : Float} (h : Double.isNaN x = false) :
    doubleForm x = numberForm (Double.isNegative x && !Double.isZero x) (doubleLexeme x) := by
  rw [doubleForm, h]
  rfl

theorem doubleForm_absolute {x : Float} (h : Double.isNaN x = false) :
    doubleForm (Double.absolute x) = .atom [.lexeme (doubleLexeme x)] := by
  rw [doubleForm_eq (Double.isNaN_absolute h), Double.isNegative_absolute h, doubleLexeme,
    Double.isInfinite_absolute h, Double.absolute_absolute h]
  rfl

theorem renders_double (x : Float) (p : Position) : Renders (.constant (.double x) p) := by
  cases hnan : Double.isNaN x with
  | true =>
    have hform : ∀ y, Double.isNaN y = true →
        atomForm (.double y) = .atom [.lexeme (.constant .notANumber)] := fun y h => if_pos h
    refine renders_literal p (hform x hnan) rfl trivial ?_ ?_ (hform _ Double.isNaN_nan)
    · rw [Atom.isBelowZero, hnan]
      rfl
    · have : Double.same x Double.nan = true := by
        rw [Double.same, if_pos hnan]
        exact Double.isNaN_nan
      exact this
  | false =>
    obtain ⟨hliteral, hreadable, hvalue⟩ := doubleLexeme_spec hnan
    have hform := doubleForm_eq hnan
    have hagain := doubleForm_absolute hnan
    cases hsign : Double.isNegative x && !Double.isZero x with
    | true =>
      rw [hsign] at hform
      refine renders_belowZero p hform hliteral hreadable ?_ hvalue hagain
      rw [Atom.isBelowZero, hnan, hsign]
      rfl
    | false =>
      rw [hsign] at hform
      refine renders_literal p hform hliteral hreadable ?_ ?_ ?_
      · rw [Atom.isBelowZero, hnan, hsign]
        rfl
      · rw [hvalue]
        exact Double.same_absolute hnan hsign
      · rw [hvalue]
        exact hagain

theorem renders_integer {n : Int} (h : n.natAbs ≤ Atom.integerLimit) (p : Position) :
    Renders (.constant (.integer n) p) := by
  have hnatural : ∀ m : Nat, atomForm (.integer m) = .atom [.lexeme (.integer m)] := by
    intro m
    rw [atomForm, Int.natAbs_natCast, decide_eq_false (by omega)]
    rfl
  by_cases hneg : n < 0
  · refine renders_belowZero (l := .integer n.natAbs) p ?_ rfl h (decide_eq_true hneg) rfl
      (hnatural n.natAbs)
    rw [atomForm, decide_eq_true hneg]
  · obtain ⟨m, rfl⟩ := Int.eq_ofNat_of_zero_le (Int.not_lt.mp hneg)
    rw [Int.natAbs_natCast] at h
    exact renders_literal p (hnatural m) rfl h (decide_eq_false hneg) (beq_self_eq_true _)
      (hnatural m)

theorem renders_constant {a : Atom} (h : a.isLiteral = true) (p : Position) :
    Renders (.constant a p) := by
  cases a with
  | null => exact renders_literal (l := .constant .null) p rfl rfl trivial rfl rfl rfl
  | logical b =>
    cases b with
    | true => exact renders_literal (l := .constant .yes) p rfl rfl trivial rfl rfl rfl
    | false => exact renders_literal (l := .constant .no) p rfl rfl trivial rfl rfl rfl
  | integer n => exact renders_integer (of_decide_eq_true h) p
  | double x => exact renders_double x p
  | nan i =>
    exact renders_literal (l := .constant .notANumber) p rfl rfl trivial rfl Double.isNaN_nan rfl
  | text s =>
    exact renders_literal (l := .text s) p rfl rfl trivial rfl (beq_self_eq_true s) rfl

theorem renders_symbol {name : String} (h : name ≠ "") (p : Position) :
    Renders (.symbol name p) := by
  have hspells := Spells.symbol h
  refine ⟨⟨.symbol name .nowhere, true, ⟨.symbol, rfl⟩, hspells, fun _ => rfl⟩,
    .symbol name .nowhere, true, .call .symbol rfl rfl rfl, ?_⟩
  have : (fragment (.symbol name p)).guarded = [.symbol name] := guarded_atom _
  rw [this]
  exact hspells

/-! ## All trees -/

/-- The layouts of a writable tree are spellings of trees that are laid out the same. -/
theorem renders {n : Node} (hwell : n.WellFormed) (h : n.Writable) : Renders n := by
  induction h with
  | constant a p => exact renders_constant hwell p
  | symbol name p => exact renders_symbol hwell p
  | @call head args p hhead hargs hname ihhead ihargs =>
    obtain ⟨-, -, hwellHead, hwellArgs⟩ := hwell
    have hall : ∀ a ∈ args,
        a.name ≠ some "" ∧ a.value.isParams = false ∧ a.value.WellFormed ∧ Renders a.value := by
      intro a ha
      obtain ⟨hname, -, hvalue⟩ := wellFormed_arg hwellArgs ha
      exact ⟨hname, (hargs a ha).isParams_eq, hvalue, ihargs a ha hvalue⟩
    cases hsymbol : head.name? with
    | none =>
      exact renders_call_other hsymbol (ihhead hwellHead)
        fun a ha => ⟨(hall a ha).1, (hall a ha).2.2.2⟩
    | some name =>
      cases head with
      | symbol s q => exact renders_call_name hwellHead hname hall
      | _ => cases hsymbol
  | @definition items body p q r hdefaults hbody ihdefaults ihbody =>
    obtain ⟨-, -, -, -, -, ⟨hnames, hitems⟩, -, -, hwellBody, -⟩ := hwell
    exact renders_definition hnames
      (fun i hi => ⟨(wellFormed_param hitems hi).1,
        fun hmissing => ihdefaults i hi hmissing (wellFormed_param hitems hi).2⟩)
      (ihbody hwellBody)

end RCode.Printer
