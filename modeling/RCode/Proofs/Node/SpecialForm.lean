import RCode.Node.Printer

/-!
# The forms of calls

Which calls have a syntax of their own, and how it looks, is decided by `Printer.specialForm?`
through the name and the arguments. `HasForm` lists the possibilities one by one, each with the
shape of its arguments; `specialForm?_eq_some` says that the list is complete and correct, so that a
property of the forms is a case analysis.
-/

set_option autoImplicit false

namespace RCode.Printer

/-- An argument without a name. -/
abbrev unnamed {α : Type} (value : α) : Arg α := ⟨none, value⟩

/-- The calls with a form of their own: a name, the arguments and the form. -/
inductive HasForm : String → List (Arg Part) → Form → Prop
  | index (target : Part) (rest : List (Arg Part)) :
      HasForm "[" (unnamed target :: rest)
        (.atom (target.2.leftOperand Operator.postfixPower false ++
          .lexeme .leftBracket :: (argumentRow rest ++ [.lexeme .rightBracket])))
  | doubleIndex (target : Part) (rest : List (Arg Part)) :
      HasForm "[[" (unnamed target :: rest)
        (.atom (target.2.leftOperand Operator.postfixPower false ++
          .lexeme .leftDouble ::
            (argumentRow rest ++ [.lexeme .rightBracket, .lexeme .rightBracket])))
  | block (statements : List Part) :
      HasForm "\x7b" (statements.map unnamed) (.atom (blockLayout (statements.map Prod.snd)))
  | group (inner : Part) : HasForm "(" [unnamed inner] (.atom inner.2.layout.inParens)
  | conditional (condition body : Part) :
      HasForm "if" [unnamed condition, unnamed body]
        (.openEnded (controlLayout .ifWord condition.2.layout body.2.layout))
  | alternative (condition body other : Part) :
      HasForm "if" [unnamed condition, unnamed body, unnamed other]
        (.openEnded
          (controlLayout .ifWord condition.2.layout
              (if body.2.isOpen then body.2.guarded else body.2.layout) ++
            [.space, .keyword .elseWord, .space] ++ other.2.layout))
  | forLoop (name : String) (p : Position) (f : Fragment) (sequence body : Part) :
      HasForm "for" [unnamed (.symbol name p, f), unnamed sequence, unnamed body]
        (.openEnded
          (controlLayout .forWord
            ([.symbol name, .space, .keyword .inWord, .space] ++ sequence.2.layout)
            body.2.layout))
  | whileLoop (condition body : Part) :
      HasForm "while" [unnamed condition, unnamed body]
        (.openEnded (controlLayout .whileWord condition.2.layout body.2.layout))
  | repeatLoop (body : Part) :
      HasForm "repeat" [unnamed body]
        (.openEnded ([.keyword .repeatWord, .space] ++ body.2.layout))
  | definition (items : List (Param Node)) (p : Position) (f : Fragment) (body : Part) :
      HasForm "function" [unnamed (.params items p, f), unnamed body]
        (.openEnded (.keyword .functionWord :: f.layout.inParens ++ .space :: body.2.layout))
  | breakJump : HasForm "break" [] (.atom [.keyword .breakWord])
  | nextJump : HasForm "next" [] (.atom [.keyword .nextWord])
  | unary {name : String} {power : Nat} (operand : Part) :
      Operator.prefix? name = some power →
      HasForm name [unnamed operand] (unaryForm name power operand)
  | selection {name : String} {b : Operator.Binding} (left right : Part) :
      name ∈ Operator.members → Operator.binary? name = some b → isMember right.1 = true →
      HasForm name [unnamed left, unnamed right]
        (memberForm name b.power (left.2.leftOperand b.power false) right.2.layout)
  | qualified {name : String} {b : Operator.Binding} (left right : Part) :
      name ∈ Operator.qualifiers → Operator.binary? name = some b →
      isMember left.1 = true → isMember right.1 = true →
      HasForm name [unnamed left, unnamed right]
        (memberForm name b.power left.2.layout right.2.layout)
  | binary {name : String} {b : Operator.Binding} (left right : Part) :
      Operator.binary? name = some b → name ∉ Operator.members → name ∉ Operator.qualifiers →
      name ∉ notInfix →
      HasForm name [unnamed left, unnamed right] (binaryForm name b left right)

/-! ## Names -/

/-- A name that is spelled like a keyword is that keyword's spelling. -/
theorem eq_spelling_of_ofWord? {name : String} {k : Keyword} (h : Keyword.ofWord? name = some k) :
    name = k.spelling := by
  have := List.find?_some h
  exact (beq_iff_eq.mp this).symm

/-- The names with a syntax of their own that is no operator's. -/
def wordForms : List String :=
  ["[", "[[", "\x7b", "("] ++ Keyword.all.map Keyword.spelling

theorem ofWord?_mem {name : String} {k : Keyword} (h : Keyword.ofWord? name = some k) :
    name ∈ wordForms := by
  rw [eq_spelling_of_ofWord? h]
  cases k <;> decide

/-- No operator is spelled like a word or a bracket. -/
theorem notMem_wordForms {name : String}
    (h : (Operator.binary? name).isSome ∨ (Operator.prefix? name).isSome) : name ∉ wordForms := by
  have none : ∀ s ∈ wordForms, Operator.binary? s = none ∧ Operator.prefix? s = none := by decide
  intro hmem
  obtain ⟨hb, hp⟩ := none name hmem
  rw [hb, hp] at h
  simp at h

theorem ofWord?_eq_none {name : String} (h : name ∉ wordForms) : Keyword.ofWord? name = none := by
  cases hk : Keyword.ofWord? name with
  | none => rfl
  | some k => exact absurd (ofWord?_mem hk) h

/-! ## Calls of operators -/

/-- A name that is no word and no bracket has the form of an operator, if any. -/
theorem specialForm?_of_notMem {name : String} (hname : name ∉ wordForms)
    {args : List (Arg Part)} :
    specialForm? name args =
      if args.all (fun a => a.name.isNone) then operatorForm? name (args.map Arg.value)
      else none := by
  have hword := ofWord?_eq_none hname
  simp only [wordForms, List.cons_append, List.mem_cons, List.nil_append, not_or] at hname
  obtain ⟨h₁, h₂, h₃, h₄, -⟩ := hname
  unfold specialForm?
  by_cases hall : args.all (fun a => a.name.isNone) = true
  · simp only [h₁, h₂, h₃, h₄, or_self, if_false, hall, Bool.not_true, Bool.false_eq_true, hword,
      if_true]
  · simp only [h₁, h₂, or_self, if_false, hall, Bool.not_false, if_true, Bool.false_eq_true]

/-- Member operators and qualifiers bind what stands before them. -/
theorem binary?_of_member {name : String}
    (h : name ∈ Operator.members ∨ name ∈ Operator.qualifiers) :
    ∃ p, Operator.binary? name = some ⟨p, false⟩ := by
  have table : ∀ s ∈ Operator.members ++ Operator.qualifiers,
      Operator.binary? s = some ⟨170, false⟩ ∨ Operator.binary? s = some ⟨180, false⟩ := by decide
  rcases table name (List.mem_append.mpr h) with h | h
  · exact ⟨170, h⟩
  · exact ⟨180, h⟩

theorem hasForm_of_operatorForm? {name : String} {parts : List Part} {form : Form}
    (h : operatorForm? name parts = some form) : HasForm name (parts.map unnamed) form := by
  unfold operatorForm? at h
  split at h
  · next operand =>
    obtain ⟨power, hp, rfl⟩ := Option.map_eq_some_iff.mp h
    exact .unary operand hp
  · next left right =>
    split at h
    · next hm =>
      obtain ⟨p, hb⟩ := binary?_of_member (.inl hm)
      split at h
      · next hright =>
        rw [hb] at h
        cases h
        exact .selection left right hm hb hright
      · cases h
    · next hm =>
      split at h
      · next hq =>
        obtain ⟨p, hb⟩ := binary?_of_member (.inr hq)
        split at h
        · next hboth =>
          obtain ⟨hleft, hright⟩ := Bool.and_eq_true_iff.mp hboth
          rw [hb] at h
          cases h
          exact .qualified left right hq hb hleft hright
        · cases h
      · next hq =>
        split at h
        · cases h
        · next hn =>
          obtain ⟨b, hb, rfl⟩ := Option.map_eq_some_iff.mp h
          exact .binary left right hb hm hq hn
  · cases h

theorem hasForm_of_keywordForm? {k : Keyword} {parts : List Part} {form : Form}
    (h : keywordForm? k parts = some form) : HasForm k.spelling (parts.map unnamed) form := by
  unfold keywordForm? at h
  split at h
  · cases h; exact .conditional _ _
  · cases h; exact .alternative _ _ _
  · cases h; exact .forLoop _ _ _ _ _
  · cases h; exact .whileLoop _ _
  · cases h; exact .repeatLoop _
  · cases h; exact .definition _ _ _ _
  · cases h; exact .breakJump
  · cases h; exact .nextJump
  · cases h

/-! ## All calls -/

/-- Arguments without names are their values. -/
theorem eq_map_unnamed {α : Type} {args : List (Arg α)}
    (h : args.all (fun a => a.name.isNone) = true) : args = (args.map Arg.value).map unnamed := by
  induction args with
  | nil => rfl
  | cons a args ih =>
    obtain ⟨name, value⟩ := a
    obtain ⟨hname, hrest⟩ := Bool.and_eq_true_iff.mp h
    obtain rfl := Option.isNone_iff_eq_none.mp hname
    rw [List.map_cons, List.map_cons, ← ih hrest]

theorem all_unnamed {α : Type} (values : List α) :
    (values.map unnamed).all (fun a => a.name.isNone) = true := by
  rw [List.all_eq_true]
  intro a ha
  obtain ⟨value, -, rfl⟩ := List.mem_map.mp ha
  rfl

theorem map_value_unnamed {α : Type} (values : List α) :
    (values.map unnamed).map Arg.value = values := by
  rw [List.map_map]
  exact List.map_id values

theorem hasForm_of_specialForm? {name : String} {args : List (Arg Part)} {form : Form}
    (h : specialForm? name args = some form) : HasForm name args form := by
  unfold specialForm? at h
  dsimp only at h
  split at h
  · next hbracket =>
    split at h
    · next target rest =>
      rcases hbracket with rfl | rfl
      · cases h; exact .index target rest
      · cases h; exact .doubleIndex target rest
    · cases h
  · split at h
    · cases h
    · next hall =>
      have hargs := eq_map_unnamed (by simpa using hall)
      rw [hargs]
      generalize args.map Arg.value = parts at h
      split at h
      · next hbrace => subst hbrace; cases h; exact .block parts
      · split at h
        · next hparen =>
          subst hparen
          split at h
          · next inner => cases h; exact .group inner
          · cases h
        · split at h
          · next k hk =>
            rw [eq_spelling_of_ofWord? hk]
            exact hasForm_of_keywordForm? h
          · exact hasForm_of_operatorForm? h

theorem specialForm?_operator {name : String} (parts : List Part)
    (hname : (Operator.binary? name).isSome ∨ (Operator.prefix? name).isSome) :
    specialForm? name (parts.map unnamed) = operatorForm? name parts := by
  rw [specialForm?_of_notMem (notMem_wordForms hname), all_unnamed, if_pos rfl, map_value_unnamed]

theorem specialForm?_of_hasForm {name : String} {args : List (Arg Part)} {form : Form}
    (h : HasForm name args form) : specialForm? name args = some form := by
  cases h with
  | index target rest => simp [specialForm?]
  | doubleIndex target rest => simp [specialForm?]
  | block statements =>
    simp only [specialForm?, all_unnamed, map_value_unnamed]
    rfl
  | group inner => rfl
  | conditional condition body => rfl
  | alternative condition body other => rfl
  | forLoop name p f sequence body => rfl
  | whileLoop condition body => rfl
  | repeatLoop body => rfl
  | definition items p f body => rfl
  | breakJump => rfl
  | nextJump => rfl
  | @unary name power operand hp =>
    refine (specialForm?_operator [operand] (.inr (hp ▸ rfl))).trans ?_
    simp only [operatorForm?, hp, Option.map_some]
  | @selection name b left right hm hb hright =>
    refine (specialForm?_operator [left, right] (.inl (hb ▸ rfl))).trans ?_
    simp only [operatorForm?, if_pos hm, if_pos hright, hb, Option.elim_some]
  | @qualified name b left right hq hb hleft hright =>
    have hm : name ∉ Operator.members := by
      intro hm
      simp only [Operator.qualifiers, Operator.members, List.mem_cons, List.not_mem_nil,
        or_false] at hq hm
      rcases hq with rfl | rfl <;> simp at hm
    refine (specialForm?_operator [left, right] (.inl (hb ▸ rfl))).trans ?_
    simp only [operatorForm?, if_neg hm, if_pos hq, hleft, hright, hb, Bool.and_self, if_true,
      Option.elim_some]
  | @binary name b left right hb hm hq hn =>
    refine (specialForm?_operator [left, right] (.inl (hb ▸ rfl))).trans ?_
    simp only [operatorForm?, if_neg hm, if_neg hq, if_neg hn, hb, Option.map_some]

/-- The forms of calls are the listed ones. -/
theorem specialForm?_eq_some {name : String} {args : List (Arg Part)} {form : Form} :
    specialForm? name args = some form ↔ HasForm name args form :=
  ⟨hasForm_of_specialForm?, specialForm?_of_hasForm⟩

end RCode.Printer
