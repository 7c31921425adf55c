import RCode.Proofs.Node.Positions

/-!
# Open brackets and line breaks

The brackets that are open before a token say which region the token stands in, and so whether a line
break before it means anything. Outside of round and square brackets a `[[` needs both of its closing
brackets on the same line: after the first of them the region is again the one in which the `[[` stands.

`Widened wide open ts us` says that `us` are the tokens `ts` up to positions, where line breaks may have
been put in if the text is `wide`, in brackets only. What the parser sees at a place is then the same
(`Widened.visible`).
-/

set_option autoImplicit false

namespace RCode.Parser

/-- An open bracket. -/
inductive Bracket where
  | round
  | square
  | double
  /-- A `[[` of whose two closing brackets one has come. -/
  | halfDouble
  | brace
deriving DecidableEq, Repr

namespace Bracket

/-- The brackets open after a lexeme, the innermost one first. -/
def after (stack : List Bracket) : Lexeme → List Bracket
  | .leftParen => .round :: stack
  | .leftBracket => .square :: stack
  | .leftDouble => .double :: stack
  | .leftBrace => .brace :: stack
  | .rightParen => stack.tail
  | .rightBrace => stack.tail
  | .rightBracket =>
    match stack with
    | .double :: outer => .halfDouble :: outer
    | _ => stack.tail
  | _ => stack

/-- The brackets open after some tokens. -/
def afterAll (stack : List Bracket) (ts : Tokens) : List Bracket :=
  ts.foldl (fun stack t => after stack t.lexeme) stack

/-- The region between the brackets. -/
def region : List Bracket → Region
  | [] => .top
  | .brace :: _ => .block
  | .halfDouble :: outer => region outer
  | _ => .bracket

/-- Brackets between which there is a region. -/
theorem exists_region (r : Region) : ∃ stack, region stack = r := by
  cases r with
  | top => exact ⟨[], rfl⟩
  | block => exact ⟨[.brace], rfl⟩
  | bracket => exact ⟨[.round], rfl⟩

end Bracket

open RCode.Parser.Bracket (after)

/-- The same lexemes, with further line breaks in brackets if the text is `wide`. -/
inductive Widened (wide : Prop) : List Bracket → Tokens → Tokens → Prop where
  | nil (stack : List Bracket) : Widened wide stack [] []
  | cons {stack : List Bracket} {t u : Token} {ts us : Tokens} : u.lexeme = t.lexeme →
      Widened wide (after stack t.lexeme) ts us → Widened wide stack (t :: ts) (u :: us)
  | lineBreak {stack : List Bracket} {ts us : Tokens} (p : Position) : wide →
      Bracket.region stack = .bracket → Widened wide stack ts us →
        Widened wide stack ts (⟨.newline, p⟩ :: us)

/-- The lists start with the same lexeme, or both are empty. -/
inductive Aligned (wide : Prop) (stack : List Bracket) : Tokens → Tokens → Prop where
  | nil : Aligned wide stack [] []
  | cons {t u : Token} {ts us : Tokens} : u.lexeme = t.lexeme →
      Widened wide (after stack t.lexeme) ts us → Aligned wide stack (t :: ts) (u :: us)

variable {wide : Prop} {stack : List Bracket} {ts us : Tokens}

namespace Aligned

theorem widened (h : Aligned wide stack ts us) : Widened wide stack ts us := by
  cases h with
  | nil => exact .nil stack
  | cons ht hts => exact .cons ht hts

theorem found_eq (h : Aligned wide stack ts us) : found us = found ts := by
  cases h with
  | nil => rfl
  | cons ht _ => exact congrArg some ht

theorem endsStatement_eq (h : Aligned wide stack ts us) : endsStatement us = endsStatement ts := by
  cases h with
  | nil => rfl
  | cons ht _ => simp only [endsStatement, ht]

theorem endsExpression_eq (h : Aligned wide stack ts us) :
    endsExpression us = endsExpression ts := by
  cases h with
  | nil => rfl
  | cons ht _ => simp only [endsExpression, ht]

theorem of_eq {ts₁ : Tokens} {t : Token} (h : Aligned wide stack ts us) (heq : ts = t :: ts₁) :
    ∃ u us₁, us = u :: us₁ ∧ u.lexeme = t.lexeme ∧ Widened wide (after stack t.lexeme) ts₁ us₁ := by
  subst heq
  cases h with
  | cons ht hts => exact ⟨_, _, rfl, ht, hts⟩

theorem of_eq_lexeme {ts₁ : Tokens} {l : Lexeme} {p : Position} (h : Aligned wide stack ts us)
    (heq : ts = ⟨l, p⟩ :: ts₁) :
    ∃ q us₁, us = ⟨l, q⟩ :: us₁ ∧ Widened wide (after stack l) ts₁ us₁ := by
  obtain ⟨⟨l', q⟩, us₁, hus, rfl, hrest⟩ := h.of_eq heq
  exact ⟨q, us₁, hus, hrest⟩

/-- A lexeme that the one list does not start with is no start of the other one. -/
theorem ne {l : Lexeme} (h : Aligned wide stack ts us) (hne : ∀ p rest, ts ≠ ⟨l, p⟩ :: rest) :
    ∀ p rest, us ≠ ⟨l, p⟩ :: rest := by
  rintro p rest rfl
  cases h with
  | @cons t _ ts _ ht _ => exact hne t.position ts (by rw [show l = t.lexeme from ht])

end Aligned

/-- The name of an argument is no bracket. -/
theorem after_name {t : Token} {ts₁ : Tokens} {name : String}
    (h : afterName? t ts = some (name, ts₁)) (stack : List Bracket) : after stack t.lexeme = stack := by
  obtain ⟨hname, -⟩ := afterName?_eq_some.mp h
  rcases hname with hname | hname
  · rw [hname]; rfl
  · rw [hname]; rfl

namespace Widened

theorem skipBreaks (h : Widened wide stack ts us) :
    Aligned wide stack (skipBreaks ts) (skipBreaks us) := by
  -- a line break is skipped whether it was put in or is in both lists
  induction h with
  | nil => exact .nil
  | lineBreak p _ _ _ ih => exact ih
  | @cons stack t u ts us ht hts ih =>
    obtain ⟨l, p⟩ := t
    obtain ⟨l', q⟩ := u
    obtain rfl : l' = l := ht
    cases l' with
    | newline => exact ih
    | _ => exact .cons rfl hts

theorem skipSeparators (h : Widened wide stack ts us) :
    Aligned wide stack (skipSeparators ts) (skipSeparators us) := by
  induction h with
  | nil => exact .nil
  | lineBreak p _ _ _ ih => exact ih
  | @cons stack t u ts us ht hts ih =>
    obtain ⟨l, p⟩ := t
    obtain ⟨l', q⟩ := u
    obtain rfl : l' = l := ht
    cases l' with
    | newline | semicolon => exact ih
    | _ => exact .cons rfl hts

/-- Outside of brackets no line break is put in. -/
theorem aligned (h : Widened wide stack ts us) (hstack : Bracket.region stack ≠ .bracket) :
    Aligned wide stack ts us := by
  cases h with
  | nil => exact .nil
  | cons ht hts => exact .cons ht hts
  | lineBreak _ _ hbracket => exact absurd hbracket hstack

/-- What a region sees of the tokens is the same. -/
theorem visible {region : Region} (h : Widened wide stack ts us)
    (hregion : Bracket.region stack = region) :
    Aligned wide stack (visible region ts) (visible region us) := by
  cases region with
  | bracket => exact h.skipBreaks
  | top | block => exact h.aligned (by rw [hregion]; exact Region.noConfusion)

theorem of_visible {region : Region} {t : Token} {ts₁ : Tokens} (h : Widened wide stack ts us)
    (hregion : Bracket.region stack = region) (hv : Parser.visible region ts = t :: ts₁) :
    ∃ u us₁, Parser.visible region us = u :: us₁ ∧ u.lexeme = t.lexeme ∧
      Widened wide (after stack t.lexeme) ts₁ us₁ :=
  (h.visible hregion).of_eq hv

theorem of_visible_lexeme {region : Region} {l : Lexeme} {p : Position} {ts₁ : Tokens}
    (h : Widened wide stack ts us) (hregion : Bracket.region stack = region)
    (hv : Parser.visible region ts = ⟨l, p⟩ :: ts₁) :
    ∃ q us₁, Parser.visible region us = ⟨l, q⟩ :: us₁ ∧ Widened wide (after stack l) ts₁ us₁ :=
  (h.visible hregion).of_eq_lexeme hv

/-! ## Alternatives and names -/

theorem beforeElse {region : Region} (h : Widened wide stack ts us)
    (hregion : Bracket.region stack = region) :
    Aligned wide stack (beforeElse region ts) (beforeElse region us) := by
  unfold Parser.beforeElse
  split
  · next htop =>
    rw [htop] at hregion
    exact h.aligned (by rw [hregion]; exact Region.noConfusion)
  · exact h.skipBreaks

theorem afterElse {region : Region} {ts₁ : Tokens} (h : Widened wide stack ts us)
    (hregion : Bracket.region stack = region) (ha : afterElse? region ts = some ts₁) :
    ∃ us₁, afterElse? region us = some us₁ ∧ Widened wide stack ts₁ us₁ := by
  obtain ⟨p, hp⟩ := afterElse?_eq_some.mp ha
  obtain ⟨q, us₁, hq, hrest⟩ := (h.beforeElse hregion).of_eq_lexeme hp
  exact ⟨us₁, afterElse?_eq_some.mpr ⟨q, hq⟩, hrest⟩

theorem afterElse_none {region : Region} (h : Widened wide stack ts us)
    (hregion : Bracket.region stack = region) (ha : afterElse? region ts = none) :
    afterElse? region us = none := by
  have hne : ∀ p rest, Parser.beforeElse region ts ≠ ⟨.keyword .elseWord, p⟩ :: rest := by
    intro p rest hp
    rw [afterElse?_eq_some.mpr ⟨p, hp⟩] at ha
    cases ha
  refine Option.eq_none_iff_forall_ne_some.mpr fun us₁ hus₁ => ?_
  obtain ⟨q, hq⟩ := afterElse?_eq_some.mp hus₁
  exact (h.beforeElse hregion).ne hne q us₁ hq

theorem afterName {t u : Token} {ts₁ : Tokens} {name : String} (ht : u.lexeme = t.lexeme)
    (h : Widened wide (after stack t.lexeme) ts us) (ha : afterName? t ts = some (name, ts₁)) :
    ∃ us₁, afterName? u us = some (name, us₁) ∧ Widened wide stack ts₁ us₁ := by
  obtain ⟨hname, p, hp⟩ := afterName?_eq_some.mp ha
  obtain ⟨q, us₁, hq, hrest⟩ := h.skipBreaks.of_eq_lexeme hp
  have hstack : after (after stack t.lexeme) (.operator "=") = stack := after_name ha stack
  rw [← ht] at hname
  exact ⟨us₁, afterName?_eq_some.mpr ⟨hname, q, hq⟩, hstack ▸ hrest⟩

theorem afterName_none {t u : Token} (ht : u.lexeme = t.lexeme)
    (h : Widened wide (after stack t.lexeme) ts us) (ha : afterName? t ts = none) :
    afterName? u us = none := by
  refine Option.eq_none_iff_forall_ne_some.mpr fun ⟨name, us₁⟩ hus₁ => ?_
  obtain ⟨hname, q, hq⟩ := afterName?_eq_some.mp hus₁
  rw [ht] at hname
  refine h.skipBreaks.ne (fun p rest hp => ?_) q us₁ hq
  rw [afterName?_eq_some.mpr ⟨hname, p, hp⟩] at ha
  cases ha

end Widened

/-! ## No line breaks put in -/

theorem widened_of_lexemes (stack : List Bracket) (h : lexemes us = lexemes ts) :
    Widened wide stack ts us := by
  induction ts generalizing stack us with
  | nil =>
    cases us with
    | nil => exact .nil stack
    | cons => cases h
  | cons t ts ih =>
    obtain ⟨u, us, rfl, ht, hts⟩ := exists_of_lexemes h
    exact .cons ht (ih _ hts)

theorem lexemes_of_widened (h : Widened False stack ts us) : lexemes us = lexemes ts := by
  induction h with
  | nil => rfl
  | cons ht _ ih => rw [lexemes_cons, lexemes_cons, ht, ih]
  | lineBreak _ hwide => exact hwide.elim

theorem lexemes_skipSeparators (h : lexemes us = lexemes ts) :
    lexemes (skipSeparators us) = lexemes (skipSeparators ts) :=
  lexemes_of_widened (widened_of_lexemes [] h).skipSeparators.widened

theorem endsExpression_of_lexemes (h : lexemes us = lexemes ts) :
    endsExpression us = endsExpression ts := by
  have hwidened : Widened False [] ts us := widened_of_lexemes [] h
  exact (hwidened.aligned Region.noConfusion).endsExpression_eq

end RCode.Parser
