import RCode.Proofs.Node.Widening

/-!
# Between the closing brackets of a `[[`

A `[[` outside of round and square brackets is closed by two brackets on the same line: the tokens of a
program have no line break between them (`ReadsProgram.passes`).
-/

set_option autoImplicit false

namespace RCode.Parser

namespace Bracket

/-- Of a `[[` outside of round and square brackets one closing bracket has come. -/
def HalfOpen (stack : List Bracket) : Prop :=
  stack.head? = some .halfDouble ∧ region stack ≠ .bracket

theorem not_halfOpen {stack : List Bracket} (h : region stack = .bracket) : ¬ HalfOpen stack :=
  fun hopen => hopen.2 h

theorem not_halfOpen_brace (stack : List Bracket) : ¬ HalfOpen (.brace :: stack) := by
  rintro ⟨⟨⟩, -⟩

end Bracket

open RCode.Parser.Bracket (after not_halfOpen not_halfOpen_brace)

/-- On the way from the first tokens to the second ones, with the brackets that are open there, no
line break stands between the closing brackets of a `[[`. -/
inductive Passes : List Bracket → Tokens → List Bracket → Tokens → Prop where
  | refl (stack : List Bracket) (ts : Tokens) : Passes stack ts stack ts
  | step {stack stack' : List Bracket} {t : Token} {ts rest : Tokens} :
      (t.lexeme = .newline → ¬ Bracket.HalfOpen stack) →
        Passes (after stack t.lexeme) ts stack' rest → Passes stack (t :: ts) stack' rest

namespace Passes

variable {stack stack₁ stack₂ : List Bracket} {ts ts₁ ts₂ : Tokens}

theorem trans (h : Passes stack ts stack₁ ts₁) (h' : Passes stack₁ ts₁ stack₂ ts₂) :
    Passes stack ts stack₂ ts₂ := by
  induction h with
  | refl => exact h'
  | step hbreak _ ih => exact .step hbreak (ih h')

theorem skipBreaks (ts : Tokens) (hstack : ¬ Bracket.HalfOpen stack) :
    Passes stack ts stack (skipBreaks ts) := by
  fun_induction Parser.skipBreaks ts with
  | case1 p rest ih => exact .step (fun _ => hstack) ih
  | case2 => exact .refl _ _

theorem skipSeparators (ts : Tokens) (hstack : ¬ Bracket.HalfOpen stack) :
    Passes stack ts stack (skipSeparators ts) := by
  fun_induction Parser.skipSeparators ts with
  | case1 p rest ih => exact .step (fun _ => hstack) ih
  | case2 p rest ih => exact .step (fun _ => hstack) ih
  | case3 => exact .refl _ _

theorem to_skipSeparators {t : Token} (hskip : Parser.skipSeparators ts = t :: ts₁)
    (hstack : ¬ Bracket.HalfOpen stack) : Passes stack ts stack (t :: ts₁) :=
  hskip ▸ skipSeparators ts hstack

/-- What a region does not see are line breaks in brackets. -/
theorem visible {region : Region} (ts : Tokens) (hregion : Bracket.region stack = region) :
    Passes stack ts stack (visible region ts) := by
  cases region with
  | top | block => exact .refl _ _
  | bracket => exact skipBreaks ts (not_halfOpen hregion)

theorem of_visible {region : Region} {t : Token} (stack : List Bracket)
    (hregion : Bracket.region stack = region) (hv : Parser.visible region ts = t :: ts₁)
    (ht : t.lexeme = .newline → ¬ Bracket.HalfOpen stack) :
    Passes stack ts (after stack t.lexeme) ts₁ := by
  have h := visible ts hregion
  rw [hv] at h
  exact h.trans (.step ht (.refl _ _))

theorem in_brackets {t : Token} (stack : List Bracket) (hregion : Bracket.region stack = .bracket)
    (hv : Parser.visible .bracket ts = t :: ts₁) : Passes stack ts (after stack t.lexeme) ts₁ :=
  of_visible stack hregion hv fun _ => not_halfOpen hregion

theorem of_skipBreaks {t : Token} (hv : Parser.skipBreaks ts = t :: ts₁)
    (hstack : ¬ Bracket.HalfOpen stack) : Passes stack ts (after stack t.lexeme) ts₁ := by
  have h := skipBreaks ts hstack
  rw [hv] at h
  exact h.trans (.step (fun _ => hstack) (.refl _ _))

theorem of_afterElse {region : Region} (ha : afterElse? region ts = some ts₁)
    (hstack : ¬ Bracket.HalfOpen stack) : Passes stack ts stack ts₁ := by
  obtain ⟨p, hp⟩ := afterElse?_eq_some.mp ha
  have h : Passes stack ts stack (beforeElse region ts) := by
    unfold beforeElse
    split
    · exact .refl _ _
    · exact skipBreaks ts hstack
  rw [hp] at h
  exact h.trans (.step (fun _ => hstack) (.refl _ _))

theorem of_afterName {t : Token} {name : String} (hregion : Bracket.region stack = .bracket)
    (hv : Parser.visible .bracket ts = t :: ts₁) (hname : afterName? t ts₁ = some (name, ts₂)) :
    Passes stack ts stack ts₂ := by
  obtain ⟨-, p, hp⟩ := afterName?_eq_some.mp hname
  have hfirst := in_brackets stack hregion hv
  rw [after_name hname] at hfirst
  exact hfirst.trans (of_skipBreaks hp (not_halfOpen hregion))

end Passes

/-- A line break between the closing brackets of a `[[` is never read over. Only the goals of arguments
can end between these brackets, and they start inside of brackets. -/
theorem Reads.passes {g : Goal} {ts rest : Tokens} {r : Phrase} (h : Reads g ts r rest) :
    ∀ {stack stack' : List Bracket}, g.Spans stack stack' →
      ¬ Bracket.HalfOpen stack' ∨ Bracket.region stack = .bracket → Passes stack ts stack' rest := by
  -- the parts of a goal that ends where it starts end there too, and either alternative says that a
  -- line break is allowed at these places
  induction h with
  | expression hv _ _ iho ihr =>
    rintro stack _ ⟨⟩ hstack
    have hstack := hstack.elim id not_halfOpen
    exact (Passes.of_visible stack rfl hv fun _ => hstack).trans
      ((iho (.operand _ _) (.inl hstack)).trans (ihr (.operators _) (.inl hstack)))
  | done =>
    rintro stack _ ⟨⟩ -
    exact .visible _ rfl
  | more hv _ _ _ ihf iho =>
    rintro stack _ ⟨⟩ hstack
    have hstack := hstack.elim id not_halfOpen
    exact (Passes.of_visible stack rfl hv fun _ => hstack).trans
      ((ihf (.operatorForm _ _) (.inl hstack)).trans (iho (.operators _) (.inl hstack)))
  | literal hl =>
    rintro _ stack ⟨⟩ -
    rw [after_literal hl]
    exact .refl _ _
  | symbol ht | breakJump ht | nextJump ht =>
    rintro _ stack ⟨⟩ -
    rw [ht]
    exact .refl _ _
  | prefixed ht _ _ ih =>
    rintro _ stack ⟨⟩ hstack
    rw [ht] at hstack ⊢
    have hstack := hstack.elim id not_halfOpen
    exact (Passes.skipBreaks _ hstack).trans (ih (.expression stack) (.inl hstack))
  | group ht _ hclose ih =>
    rintro _ stack ⟨⟩ -
    rw [ht]
    exact (ih (.expression (.round :: stack)) (.inr rfl)).trans (.in_brackets _ rfl hclose)
  | block ht _ ih =>
    rintro _ stack ⟨⟩ hstack
    rw [ht] at hstack ⊢
    exact ih (.statements stack) hstack
  | conditional ht _ _ _ ihc ihb =>
    rintro _ stack ⟨⟩ hstack
    rw [ht] at hstack ⊢
    have hstack := hstack.elim id not_halfOpen
    exact (ihc (.condition stack) (.inl hstack)).trans
      ((Passes.skipBreaks _ hstack).trans (ihb (.expression stack) (.inl hstack)))
  | alternative ht _ _ helse _ ihc ihb iho =>
    rintro _ stack ⟨⟩ hstack
    rw [ht] at hstack ⊢
    have hstack := hstack.elim id not_halfOpen
    have hbody := (ihc (.condition stack) (.inl hstack)).trans
      ((Passes.skipBreaks _ hstack).trans (ihb (.expression stack) (.inl hstack)))
    exact hbody.trans ((Passes.of_afterElse helse hstack).trans
      ((Passes.skipBreaks _ hstack).trans (iho (.expression stack) (.inl hstack))))
  | whileLoop ht _ _ ihc ihb =>
    rintro _ stack ⟨⟩ hstack
    rw [ht] at hstack ⊢
    have hstack := hstack.elim id not_halfOpen
    exact (ihc (.condition stack) (.inl hstack)).trans
      ((Passes.skipBreaks _ hstack).trans (ihb (.expression stack) (.inl hstack)))
  | forLoop ht hopen hname hin _ hclose _ ihs ihb =>
    rintro _ stack ⟨⟩ hstack
    rw [ht] at hstack ⊢
    have hstack := hstack.elim id not_halfOpen
    have hhead := (Passes.of_visible stack rfl hopen nofun).trans
      ((Passes.in_brackets (.round :: stack) rfl hname).trans (.in_brackets (.round :: stack) rfl hin))
    have hsequence := (ihs (.expression (.round :: stack)) (.inr rfl)).trans
      (.in_brackets _ rfl hclose)
    exact hhead.trans (hsequence.trans
      ((Passes.skipBreaks _ hstack).trans (ihb (.expression stack) (.inl hstack))))
  | repeatLoop ht _ ih =>
    rintro _ stack ⟨⟩ hstack
    rw [ht] at hstack ⊢
    have hstack := hstack.elim id not_halfOpen
    exact (Passes.skipBreaks _ hstack).trans (ih (.expression stack) (.inl hstack))
  | definition ht hopen _ _ ihp ihb =>
    rintro _ stack ⟨⟩ hstack
    rw [ht] at hstack ⊢
    have hstack := hstack.elim id not_halfOpen
    have hparameters := (Passes.of_visible stack rfl hopen nofun).trans (ihp (.parameters stack) (.inr rfl))
    exact hparameters.trans
      ((Passes.skipBreaks _ hstack).trans (ihb (.expression stack) (.inl hstack)))
  | condition hopen _ hclose ih =>
    rintro stack _ ⟨⟩ -
    exact (Passes.of_visible stack rfl hopen nofun).trans
      ((ih (.expression (.round :: stack)) (.inr rfl)).trans (.in_brackets _ rfl hclose))
  | blockEnd hskip =>
    rintro _ stack ⟨⟩ -
    have hseparators := Passes.to_skipSeparators hskip (not_halfOpen_brace stack)
    exact hseparators.trans (.step nofun (.refl _ _))
  | statement hskip _ _ _ _ ihn ihm =>
    rintro _ stack ⟨⟩ hstack
    have hseparators := Passes.to_skipSeparators hskip (not_halfOpen_brace stack)
    have hstatement := ihn (.expression (.brace :: stack)) (.inl (not_halfOpen_brace stack))
    exact hseparators.trans (hstatement.trans (ihm (.statements stack) hstack))
  | noParameters hclose =>
    rintro _ stack ⟨⟩ -
    exact .in_brackets _ rfl hclose
  | someParameters _ _ ih =>
    rintro _ stack ⟨⟩ hstack
    exact ih (.parameterList stack) hstack
  | lastParameter hname _ _ hclose ih =>
    rintro _ stack ⟨⟩ -
    exact (Passes.in_brackets (.round :: stack) rfl hname).trans
      ((ih (.parameterDefault stack) (.inr rfl)).trans (.in_brackets _ rfl hclose))
  | parameter hname _ _ hcomma _ ihd ihm =>
    rintro _ stack ⟨⟩ hstack
    have hfirst := (Passes.in_brackets (.round :: stack) rfl hname).trans
      ((ihd (.parameterDefault stack) (.inr rfl)).trans (.in_brackets _ rfl hcomma))
    exact hfirst.trans (ihm (.parameterList stack) hstack)
  | withDefault hassign _ ih =>
    rintro _ _ hspans -
    cases hspans with
    | parameterDefault stack =>
      exact (Passes.in_brackets (.round :: stack) rfl hassign).trans
        (ih (.expression (.round :: stack)) (.inr rfl))
  | noDefault =>
    rintro _ _ ⟨⟩ -
    exact .refl _ _
  | application ht _ ih =>
    rintro _ stack ⟨⟩ -
    rw [ht]
    exact ih (.arguments rfl) (.inr rfl)
  | index ht _ ih =>
    rintro _ stack ⟨⟩ -
    rw [ht]
    exact ih (.arguments rfl) (.inr rfl)
  | doubleIndex ht _ hclose ih =>
    rintro _ stack ⟨⟩ -
    rw [ht]
    -- behind the arguments one closing bracket has come, and the region is that of the operator
    have harguments := @ih (.double :: stack) _ (.arguments rfl) (.inr rfl)
    exact harguments.trans (.of_visible (.halfDouble :: stack) rfl hclose nofun)
  | member ht _ hskip hmember =>
    rintro _ stack ⟨⟩ hstack
    rw [ht] at hstack ⊢
    have h := Passes.of_skipBreaks hskip (hstack.elim id not_halfOpen)
    rwa [after_member hmember] at h
  | binary ht _ _ _ _ _ ih =>
    rintro _ stack ⟨⟩ hstack
    rw [ht] at hstack ⊢
    have hstack := hstack.elim id not_halfOpen
    exact (Passes.skipBreaks _ hstack).trans (ih (.expression stack) (.inl hstack))
  | noArguments hv hclose =>
    rintro stack _ hspans -
    cases hspans with
    | arguments hregion =>
      rw [← Closing.eq_lexeme hclose]
      exact .in_brackets stack hregion hv
  | someArguments _ _ _ ih =>
    rintro stack _ hspans hstack
    cases hspans with
    | arguments hregion => exact ih (.argumentList hregion) hstack
  | lastArgument _ hv hclose ih =>
    rintro stack _ hspans -
    cases hspans with
    | argumentList hregion =>
      rw [← Closing.eq_lexeme hclose]
      exact (ih (.argument hregion) (.inr hregion)).trans (.in_brackets stack hregion hv)
  | argument _ hcomma _ iha ihm =>
    rintro stack _ hspans hstack
    cases hspans with
    | argumentList hregion =>
      have hfirst := (iha (.argument hregion) (.inr hregion)).trans
        (.in_brackets stack hregion hcomma)
      exact hfirst.trans (ihm (.argumentList hregion) hstack)
  | unnamed _ _ _ _ ih =>
    rintro stack _ hspans hstack
    cases hspans with
    | argument hregion => exact ih (hregion ▸ .expression stack) hstack
  | named hv _ hname _ _ _ ih =>
    rintro stack _ hspans hstack
    cases hspans with
    | argument hregion =>
      have hvalue := ih (hregion ▸ .expression stack) hstack
      exact (Passes.of_afterName hregion hv hname).trans hvalue

/-- A program has no line break between the closing brackets of a `[[` outside of brackets. -/
theorem ReadsProgram.passes {ts : Tokens} {ns : List Node} (h : ReadsProgram ts ns) :
    Passes [] ts [] [] := by
  have htop : ¬ Bracket.HalfOpen [] := by rintro ⟨⟨⟩, -⟩
  induction h with
  | nil hskip => exact hskip ▸ Passes.skipSeparators _ htop
  | cons hskip hexpression _ _ ih =>
    have hfirst := hexpression.passes (.expression []) (.inl htop)
    exact (Passes.to_skipSeparators hskip htop).trans (hfirst.trans ih)

end RCode.Parser
