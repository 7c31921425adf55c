import RCode.Proofs.Node.ParserDerivation
import RCode.Proofs.Node.Relocation

/-!
# Reading before a line break

What the parser reads from some tokens it reads from the same tokens at other positions with more
tokens after them, if these start with a line break (`Reads.carried`). At the top level a line break
ends every expression; inside braces and brackets the parser has not come to the end of its tokens,
since a closing one is still to come.
-/

set_option autoImplicit false

namespace RCode

namespace Parser

/-- The tokens `us` are `ts` at other positions and then `tail`. A line break at the end of `ts` and
the one that `tail` starts with may be one. -/
inductive Carried (f : Position → Position) (tail : Tokens) : Tokens → Tokens → Prop where
  | nil : Carried f tail [] tail
  | lineBreak (p : Position) : tail ≠ [] → Carried f tail [⟨.newline, p⟩] tail
  | cons {ts us : Tokens} (t : Token) : Carried f tail ts us →
      Carried f tail (t :: ts) (t.move f :: us)

/-- There is more than line breaks. -/
abbrev Occupied (ts : Tokens) : Prop :=
  skipBreaks ts ≠ []

/-- Something other than line breaks is left, if line breaks do not end what the goal asks for. -/
def Goal.Leaves : Goal → Tokens → Prop
  | .expression region _, rest => region ≠ .top → Occupied rest
  | .operators region _ _, rest => region ≠ .top → Occupied rest
  | .operand region _, rest => region ≠ .top → Occupied rest
  | .operatorForm region _ _, rest => region ≠ .top → Occupied rest
  | .parameterDefault, rest => Occupied rest
  | .argument _, rest => Occupied rest
  | _, _ => True

/-! ## Occupied tokens -/

theorem skipBreaks_of_ne {t : Token} (h : t.lexeme ≠ .newline) (ts : Tokens) :
    skipBreaks (t :: ts) = t :: ts := by
  obtain ⟨l, p⟩ := t
  cases l with
  | newline => exact absurd rfl h
  | _ => rfl

theorem ne_newline_of_skipBreaks {ts ts₁ : Tokens} {t : Token} (h : skipBreaks ts = t :: ts₁) :
    t.lexeme ≠ .newline := by
  fun_induction skipBreaks ts with
  | case1 p rest ih => exact ih h
  | case2 ts hne =>
    subst h
    obtain ⟨l, p⟩ := t
    rintro rfl
    exact hne p ts₁ rfl

theorem occupied_of_visible {region : Region} {ts ts₁ : Tokens} {t : Token}
    (hv : visible region ts = t :: ts₁) (ht : t.lexeme ≠ .newline) : Occupied ts := by
  cases region with
  | bracket => exact fun hnil => List.cons_ne_nil t ts₁ (hv.symm.trans hnil)
  | top =>
    obtain rfl : ts = t :: ts₁ := hv
    rw [Occupied, skipBreaks_of_ne ht]
    exact List.cons_ne_nil t ts₁
  | block =>
    obtain rfl : ts = t :: ts₁ := hv
    rw [Occupied, skipBreaks_of_ne ht]
    exact List.cons_ne_nil t ts₁

theorem ne_newline_of_skipSeparators {ts ts₁ : Tokens} {t : Token}
    (h : skipSeparators ts = t :: ts₁) : t.lexeme ≠ .newline := by
  fun_induction skipSeparators ts with
  | case1 p rest ih => exact ih h
  | case2 p rest ih => exact ih h
  | case3 ts hnewline _ =>
    subst h
    obtain ⟨l, p⟩ := t
    rintro rfl
    exact hnewline p ts₁ rfl

theorem occupied_of_skipSeparators {ts ts₁ : Tokens} {t : Token}
    (h : skipSeparators ts = t :: ts₁) : Occupied ts := by
  have hne := ne_newline_of_skipSeparators h
  fun_induction skipSeparators ts with
  | case1 p rest ih => exact ih h
  | case2 p rest ih => exact List.cons_ne_nil _ _
  | case3 ts =>
    have hv : visible .top ts = t :: ts₁ := h
    exact occupied_of_visible hv hne

theorem occupied_of_bracket {ts ts₁ : Tokens} {t : Token}
    (hv : visible .bracket ts = t :: ts₁) : Occupied ts :=
  occupied_of_visible hv (ne_newline_of_skipBreaks hv)

theorem occupied_of_afterElse {region : Region} {ts ts₁ : Tokens}
    (h : afterElse? region ts = some ts₁) : Occupied ts := by
  obtain ⟨p, hp⟩ := afterElse?_eq_some.mp h
  unfold beforeElse at hp
  split at hp
  · have hv : visible .top ts = ⟨.keyword .elseWord, p⟩ :: ts₁ := hp
    exact occupied_of_visible hv nofun
  · have hv : visible .bracket ts = ⟨.keyword .elseWord, p⟩ :: ts₁ := hp
    exact occupied_of_visible hv nofun

/-! ## What is carried over -/

namespace Carried

variable {f : Position → Position} {tail : Tokens}

/-- A token that is no line break comes from the tokens. -/
theorem of_cons {t : Token} {ts us : Tokens} (h : Carried f tail (t :: ts) us)
    (ht : t.lexeme ≠ .newline) : ∃ us₁, us = t.move f :: us₁ ∧ Carried f tail ts us₁ := by
  cases h with
  | lineBreak p _ => exact absurd rfl ht
  | cons _ h => exact ⟨_, rfl, h⟩

theorem skipBreaks {ts us : Tokens} (h : Carried f tail ts us) (hoccupied : Occupied ts) :
    Carried f tail (skipBreaks ts) (skipBreaks us) := by
  induction h with
  | nil => exact absurd rfl hoccupied
  | lineBreak p _ => exact absurd rfl hoccupied
  | @cons ts us t h ih =>
    obtain ⟨l, p⟩ := t
    cases l with
    | newline => exact ih hoccupied
    | _ => exact .cons _ h

theorem skipSeparators {ts us : Tokens} (h : Carried f tail ts us)
    (hne : skipSeparators ts ≠ []) :
    Carried f tail (skipSeparators ts) (skipSeparators us) := by
  induction h with
  | nil => exact absurd rfl hne
  | lineBreak p _ => exact absurd rfl hne
  | @cons ts us t h ih =>
    obtain ⟨l, p⟩ := t
    cases l with
    | newline => exact ih hne
    | semicolon => exact ih hne
    | _ => exact .cons _ h

theorem skipSeparators_cons {t : Token} {ts ts₁ us : Tokens} (h : Carried f tail ts us)
    (hskip : Parser.skipSeparators ts = t :: ts₁) :
    ∃ us₁, Parser.skipSeparators us = t.move f :: us₁ ∧ Carried f tail ts₁ us₁ := by
  have hcarried := h.skipSeparators (by rw [hskip]; exact List.cons_ne_nil _ _)
  rw [hskip] at hcarried
  exact hcarried.of_cons (ne_newline_of_skipSeparators hskip)

theorem visible {region : Region} {t : Token} {ts ts₁ us : Tokens} (h : Carried f tail ts us)
    (hv : visible region ts = t :: ts₁) (ht : t.lexeme ≠ .newline) :
    ∃ us₁, visible region us = t.move f :: us₁ ∧ Carried f tail ts₁ us₁ := by
  have hvisible : Carried f tail (t :: ts₁) (Parser.visible region us) := by
    rw [← hv]
    cases region with
    | bracket => exact h.skipBreaks (occupied_of_visible hv ht)
    | top => exact h
    | block => exact h
  exact hvisible.of_cons ht

/-- Inside brackets the first token that is seen is no line break. -/
theorem visible_bracket {t : Token} {ts ts₁ us : Tokens} (h : Carried f tail ts us)
    (hv : Parser.visible .bracket ts = t :: ts₁) :
    ∃ us₁, Parser.visible .bracket us = t.move f :: us₁ ∧ Carried f tail ts₁ us₁ :=
  h.visible hv (ne_newline_of_skipBreaks hv)

/-- What is seen inside brackets was seen before, if there is more than line breaks. -/
theorem of_visible {l : Lexeme} {p : Position} {ts us us₁ : Tokens} (h : Carried f tail ts us)
    (hoccupied : Occupied ts) (hus : Parser.visible .bracket us = ⟨l, p⟩ :: us₁) :
    ∃ q ts₁, Parser.visible .bracket ts = ⟨l, q⟩ :: ts₁ := by
  cases hv : Parser.visible .bracket ts with
  | nil => exact absurd hv hoccupied
  | cons t ts₁ =>
    obtain ⟨us₂, hus₂, -⟩ := h.visible_bracket hv
    rw [hus] at hus₂
    obtain ⟨l', q⟩ := t
    cases hus₂
    exact ⟨q, ts₁, rfl⟩

theorem found_visible {ts us : Tokens} (h : Carried f tail ts us) (hoccupied : Occupied ts) :
    found (Parser.visible .bracket us) = found (Parser.visible .bracket ts) := by
  cases hv : Parser.visible .bracket ts with
  | nil => exact absurd hv hoccupied
  | cons t ts₁ =>
    obtain ⟨us₁, hus, -⟩ := h.visible_bracket hv
    rw [hus]
    rfl

theorem visible_ne {l : Lexeme} {ts us : Tokens} (h : Carried f tail ts us)
    (hoccupied : Occupied ts) (hne : ∀ p after, Parser.visible .bracket ts ≠ ⟨l, p⟩ :: after) :
    ∀ p after, Parser.visible .bracket us ≠ ⟨l, p⟩ :: after := by
  intro p after hus
  obtain ⟨q, ts₁, hv⟩ := h.of_visible hoccupied hus
  exact hne q ts₁ hv

theorem afterElse {region : Region} {ts ts₁ us : Tokens} (h : Carried f tail ts us)
    (ha : afterElse? region ts = some ts₁) :
    ∃ us₁, afterElse? region us = some us₁ ∧ Carried f tail ts₁ us₁ := by
  obtain ⟨p, hp⟩ := afterElse?_eq_some.mp ha
  have hbefore : ∃ us₁, beforeElse region us = ⟨.keyword .elseWord, f p⟩ :: us₁ ∧
      Carried f tail ts₁ us₁ := by
    unfold beforeElse at hp ⊢
    split
    · next htop =>
      rw [if_pos htop] at hp
      have hv : Parser.visible .top ts = ⟨.keyword .elseWord, p⟩ :: ts₁ := hp
      exact h.visible hv nofun
    · next htop =>
      rw [if_neg htop] at hp
      have hv : Parser.visible .bracket ts = ⟨.keyword .elseWord, p⟩ :: ts₁ := hp
      exact h.visible hv nofun
  obtain ⟨us₁, hus, hrest⟩ := hbefore
  exact ⟨us₁, afterElse?_eq_some.mpr ⟨f p, hus⟩, hrest⟩

theorem afterName {t : Token} {name : String} {ts ts₁ us : Tokens} (h : Carried f tail ts us)
    (ha : afterName? t ts = some (name, ts₁)) :
    ∃ us₁, afterName? (t.move f) us = some (name, us₁) ∧ Carried f tail ts₁ us₁ := by
  obtain ⟨hname, p, hp⟩ := afterName?_eq_some.mp ha
  have hv : Parser.visible .bracket ts = ⟨.operator "=", p⟩ :: ts₁ := hp
  obtain ⟨us₁, hus, hrest⟩ := h.visible hv nofun
  exact ⟨us₁, afterName?_eq_some.mpr ⟨hname, f p, hus⟩, hrest⟩

theorem afterName_none {t : Token} {ts us : Tokens} (h : Carried f tail ts us)
    (hoccupied : ∀ name, t.lexeme = .symbol name ∨ t.lexeme = .text name → Occupied ts)
    (ha : afterName? t ts = none) : afterName? (t.move f) us = none := by
  cases hus : afterName? (t.move f) us with
  | none => rfl
  | some found =>
    obtain ⟨name, us₁⟩ := found
    obtain ⟨hname, p, hp⟩ := afterName?_eq_some.mp hus
    obtain ⟨q, ts₁, hv⟩ := h.of_visible (hoccupied name hname) hp
    have hts : afterName? t ts = some (name, ts₁) := afterName?_eq_some.mpr ⟨hname, q, hv⟩
    rw [ha] at hts
    cases hts

/-! ### What comes next -/

variable (htail : ∀ t ∈ tail.head?, t.lexeme = .newline)

include htail

/-- What comes next is what came next before, or a line break. -/
theorem head {ts us : Tokens} (h : Carried f tail ts us) :
    ∀ u ∈ us.head?, u.lexeme = .newline ∨ ∃ t ∈ ts.head?, u = t.move f := by
  intro u hu
  cases h with
  | nil => exact .inl (htail u hu)
  | lineBreak p _ => exact .inl (htail u hu)
  | cons t _ =>
    cases hu
    exact .inr ⟨t, rfl, rfl⟩

theorem afterElse_none {region : Region} {ts us : Tokens} (h : Carried f tail ts us)
    (hoccupied : region ≠ .top → Occupied ts) (ha : afterElse? region ts = none) :
    afterElse? region us = none := by
  cases hus : afterElse? region us with
  | none => rfl
  | some us₁ =>
    obtain ⟨p, hp⟩ := afterElse?_eq_some.mp hus
    have hbefore : ∃ q ts₁, beforeElse region ts = ⟨.keyword .elseWord, q⟩ :: ts₁ := by
      unfold beforeElse at hp ⊢
      split
      · next htop =>
        rw [if_pos htop] at hp
        subst hp
        rcases h.head htail _ rfl with hnewline | ⟨t, ht, hmove⟩
        · cases hnewline
        · obtain ⟨l, q⟩ := t
          cases hmove
          exact ⟨q, ts.tail, List.eq_cons_of_mem_head? ht⟩
      · next htop =>
        rw [if_neg htop] at hp
        exact h.of_visible (hoccupied htop) hp
    obtain ⟨q, ts₁, hts⟩ := hbefore
    rw [afterElse?_eq_some.mpr ⟨q, hts⟩] at ha
    cases ha

theorem endsStatement {ts us : Tokens} (h : Carried f tail ts us)
    (hends : endsStatement ts = true) : endsStatement us = true := by
  cases h with
  | nil => cases hends
  | lineBreak p hne =>
    cases tail with
    | nil => exact absurd rfl hne
    | cons t _ =>
      have ht : t.lexeme = .newline := htail t rfl
      rw [Parser.endsStatement, ht]
  | cons t _ => exact hends

theorem endsExpression {ts us : Tokens} (h : Carried f tail ts us)
    (hends : endsExpression ts = true) : endsExpression us = true := by
  have htailEnds : Parser.endsExpression tail = true := by
    cases tail with
    | nil => rfl
    | cons t _ =>
      have ht : t.lexeme = .newline := htail t rfl
      rw [Parser.endsExpression, ht]
  cases h with
  | nil => exact htailEnds
  | lineBreak p _ => exact htailEnds
  | cons t _ => exact hends

end Carried

/-! ## Derivations -/

theorem Reads.operand_ne_newline {region : Region} {t : Token} {ts rest : Tokens} {r : Phrase}
    (h : Reads (.operand region t) ts r rest) : t.lexeme ≠ .newline := by
  intro hnewline
  cases h with
  | literal hl =>
    rw [hnewline] at hl
    cases hl
  | symbol hword | prefixed hword | group hword | block hword | conditional hword
  | alternative hword | whileLoop hword | forLoop hword | repeatLoop hword | definition hword
  | breakJump hword | nextJump hword =>
    rw [hnewline] at hword
    cases hword

theorem ne_newline_of_power {t : Token} {power : Nat} (h : power < leftPower t.lexeme) :
    t.lexeme ≠ .newline := by
  intro hnewline
  rw [hnewline] at h
  exact absurd h (Nat.not_lt_zero _)

/-- Operators do not read the line breaks at the end of the tokens. -/
theorem Reads.occupied_operators {region : Region} {power : Nat} {left : Node} {ts rest : Tokens}
    {r : Phrase} (h : Reads (.operators region power left) ts r rest) (hrest : Occupied rest) :
    Occupied ts := by
  cases h with
  | done _ =>
    cases region with
    | bracket => rwa [Occupied, visible, skipBreaks_skipBreaks] at hrest
    | top => exact hrest
    | block => exact hrest
  | more hv hpower _ _ => exact occupied_of_visible hv (ne_newline_of_power hpower)

/-- A block that has not ended has more than line breaks. -/
theorem Reads.occupied_statements {opening : Position} {ts rest : Tokens} {r : Phrase}
    (h : Reads (.statements opening) ts r rest) : Occupied ts := by
  cases h with
  | blockEnd hskip => exact occupied_of_skipSeparators hskip
  | statement hskip _ _ _ _ => exact occupied_of_skipSeparators hskip

theorem Reads.occupied_expression {region : Region} {power : Nat} {ts rest : Tokens} {r : Phrase}
    (h : Reads (.expression region power) ts r rest) : Occupied ts := by
  cases h with
  | expression hv hoperand _ => exact occupied_of_visible hv hoperand.operand_ne_newline

theorem Reads.occupied_expression_skip {region : Region} {power : Nat} {ts rest : Tokens}
    {r : Phrase} (h : Reads (.expression region power) (skipBreaks ts) r rest) : Occupied ts := by
  have hoccupied := h.occupied_expression
  rwa [Occupied, skipBreaks_skipBreaks] at hoccupied

theorem Reads.occupied_parameterList {seen : List String} {ts rest : Tokens} {r : Phrase}
    (h : Reads (.parameterList seen) ts r rest) : Occupied ts := by
  cases h with
  | lastParameter hv => exact occupied_of_bracket hv
  | parameter hv => exact occupied_of_bracket hv

/-- What follows a name or a text is not read with it, so that something follows it if something is
left. -/
theorem Reads.occupied_after_name {region : Region} {power : Nat} {t : Token} {ts ts₁ rest : Tokens}
    {r : Phrase} {name : String} (h : Reads (.expression region power) ts r rest)
    (hv : visible region ts = t :: ts₁) (ht : t.lexeme = .symbol name ∨ t.lexeme = .text name)
    (hrest : Occupied rest) : Occupied ts₁ := by
  cases h with
  | expression hv' hoperand hoperators =>
    rw [hv] at hv'
    cases hv'
    have hts₂ := hoperators.occupied_operators hrest
    cases hoperand with
    | literal => exact hts₂
    | symbol => exact hts₂
    | breakJump => exact hts₂
    | nextJump => exact hts₂
    | prefixed hword | group hword | block hword | conditional hword | alternative hword
    | whileLoop hword | forLoop hword | repeatLoop hword | definition hword =>
      rw [hword] at ht
      rcases ht with ht | ht <;> cases ht

/-- What is read before a line break is read with anything after the line break. -/
theorem Reads.carried {f : Position → Position} {tail : Tokens}
    (htail : ∀ t ∈ tail.head?, t.lexeme = .newline) {g : Goal} {ts rest : Tokens} {r : Phrase}
    (h : Reads g ts r rest) :
    ∀ {us : Tokens}, g.Present → g.Leaves rest → Carried f tail ts us →
      ∃ rest', Reads (g.move f) us (r.move f) rest' ∧ Carried f tail rest rest' := by
  -- each part of a derivation leaves tokens that are carried, and the next part starts from them
  induction h with
  | expression hv hoperand hoperators ihoperand ihoperators =>
    intro us _ hleaves hus
    obtain ⟨us₁, hv', hus₁⟩ := hus.visible hv hoperand.operand_ne_newline
    obtain ⟨us₂, hoperand', hus₂⟩ :=
      ihoperand trivial (fun htop => hoperators.occupied_operators (hleaves htop)) hus₁
    obtain ⟨rest', hoperators', hrest⟩ :=
      ihoperators (hoperand.isMissing_eq trivial nofun) hleaves hus₂
    exact ⟨rest', .expression hv' hoperand' hoperators', hrest⟩
  | @done region power left ts hstop =>
    intro us _ hleaves hus
    -- only brackets skip line breaks here, and inside of them more is left than line breaks
    have hrest : Carried f tail (visible region ts) (visible region us) := by
      cases region with
      | bracket =>
        have hoccupied := hleaves nofun
        rw [Occupied, visible, skipBreaks_skipBreaks] at hoccupied
        exact hus.skipBreaks hoccupied
      | top => exact hus
      | block => exact hus
    -- the next token is the same as before, or the line break that `tail` starts with
    refine ⟨_, .done fun u hu => ?_, hrest⟩
    rcases hrest.head htail u hu with hnewline | ⟨t, ht, rfl⟩
    · rw [hnewline]
      exact Nat.zero_le _
    · exact hstop t ht
  | more hv hpower hform hoperators ihform ihoperators =>
    intro us hleft hleaves hus
    obtain ⟨us₁, hv', hus₁⟩ := hus.visible hv (ne_newline_of_power hpower)
    obtain ⟨us₂, hform', hus₂⟩ :=
      ihform hleft (fun htop => hoperators.occupied_operators (hleaves htop)) hus₁
    obtain ⟨rest', hoperators', hrest⟩ :=
      ihoperators (hform.isMissing_eq hleft nofun) hleaves hus₂
    exact ⟨rest', .more hv' hpower hform' hoperators', hrest⟩
  | literal hl => exact fun _ _ hus => ⟨_, .literal hl, hus⟩
  | symbol hname => exact fun _ _ hus => ⟨_, .symbol hname, hus⟩
  | prefixed hname hp hinner ih =>
    intro us _ hleaves hus
    have hus₁ := hus.skipBreaks hinner.occupied_expression_skip
    obtain ⟨rest', hinner', hrest⟩ := ih trivial hleaves hus₁
    exact ⟨rest', .prefixed hname hp hinner', hrest⟩
  | group hopen _ hclose ih =>
    intro us _ _ hus
    obtain ⟨us₁, hinner', hus₁⟩ := ih trivial (fun _ => occupied_of_visible hclose nofun) hus
    obtain ⟨rest', hclose', hrest⟩ := hus₁.visible hclose nofun
    exact ⟨rest', .group hopen hinner' hclose', hrest⟩
  | block hopen _ ih =>
    intro us _ _ hus
    obtain ⟨rest', hbody, hrest⟩ := ih trivial trivial hus
    rw [Phrase.move, keywordCall_move]
    exact ⟨rest', .block hopen hbody, hrest⟩
  | conditional hword _ hbody helse ihcondition ihbody =>
    intro us _ hleaves hus
    obtain ⟨us₁, hcondition', hus₁⟩ := ihcondition trivial trivial hus
    obtain ⟨rest', hbody', hrest⟩ :=
      ihbody trivial hleaves (hus₁.skipBreaks hbody.occupied_expression_skip)
    -- an `else` in `tail` is not seen: at the top level it is behind a line break, and elsewhere
    -- more than line breaks is left before it
    have helse' := hrest.afterElse_none htail hleaves helse
    exact ⟨rest', .conditional hword hcondition' hbody' helse', hrest⟩
  | alternative hword _ hbody helse hother ihcondition ihbody ihother =>
    intro us _ hleaves hus
    obtain ⟨us₁, hcondition', hus₁⟩ := ihcondition trivial trivial hus
    obtain ⟨us₂, hbody', hus₂⟩ :=
      ihbody trivial (fun _ => occupied_of_afterElse helse)
        (hus₁.skipBreaks hbody.occupied_expression_skip)
    obtain ⟨us₃, helse', hus₃⟩ := hus₂.afterElse helse
    obtain ⟨rest', hother', hrest⟩ :=
      ihother trivial hleaves (hus₃.skipBreaks hother.occupied_expression_skip)
    exact ⟨rest', .alternative hword hcondition' hbody' helse' hother', hrest⟩
  | whileLoop hword _ hbody ihcondition ihbody =>
    intro us _ hleaves hus
    obtain ⟨us₁, hcondition', hus₁⟩ := ihcondition trivial trivial hus
    obtain ⟨rest', hbody', hrest⟩ :=
      ihbody trivial hleaves (hus₁.skipBreaks hbody.occupied_expression_skip)
    exact ⟨rest', .whileLoop hword hcondition' hbody', hrest⟩
  | forLoop hword hopen hname hin _ hclose hbody ihsequence ihbody =>
    intro us _ hleaves hus
    obtain ⟨us₁, hopen', hus₁⟩ := hus.visible hopen nofun
    obtain ⟨us₂, hname', hus₂⟩ := hus₁.visible hname nofun
    obtain ⟨us₃, hin', hus₃⟩ := hus₂.visible hin nofun
    obtain ⟨us₄, hsequence', hus₄⟩ :=
      ihsequence trivial (fun _ => occupied_of_visible hclose nofun) hus₃
    obtain ⟨us₅, hclose', hus₅⟩ := hus₄.visible hclose nofun
    obtain ⟨rest', hbody', hrest⟩ :=
      ihbody trivial hleaves (hus₅.skipBreaks hbody.occupied_expression_skip)
    exact ⟨rest', .forLoop hword hopen' hname' hin' hsequence' hclose' hbody', hrest⟩
  | repeatLoop hword hbody ih =>
    intro us _ hleaves hus
    obtain ⟨rest', hbody', hrest⟩ :=
      ih trivial hleaves (hus.skipBreaks hbody.occupied_expression_skip)
    exact ⟨rest', .repeatLoop hword hbody', hrest⟩
  | definition hword hopen _ hbody ihparameters ihbody =>
    intro us _ hleaves hus
    obtain ⟨us₁, hopen', hus₁⟩ := hus.visible hopen nofun
    obtain ⟨us₂, hitems', hus₂⟩ := ihparameters trivial trivial hus₁
    obtain ⟨rest', hbody', hrest⟩ :=
      ihbody trivial hleaves (hus₂.skipBreaks hbody.occupied_expression_skip)
    exact ⟨rest', .definition hword hopen' hitems' hbody', hrest⟩
  | breakJump hword => exact fun _ _ hus => ⟨_, .breakJump hword, hus⟩
  | nextJump hword => exact fun _ _ hus => ⟨_, .nextJump hword, hus⟩
  | condition hopen _ hclose ih =>
    intro us _ _ hus
    obtain ⟨us₁, hopen', hus₁⟩ := hus.visible hopen nofun
    obtain ⟨us₂, hn', hus₂⟩ := ih trivial (fun _ => occupied_of_visible hclose nofun) hus₁
    obtain ⟨rest', hclose', hrest⟩ := hus₂.visible hclose nofun
    exact ⟨rest', .condition hopen' hn' hclose', hrest⟩
  | blockEnd hskip =>
    intro us _ _ hus
    obtain ⟨rest', hskip', hrest⟩ := hus.skipSeparators_cons hskip
    exact ⟨rest', .blockEnd hskip', hrest⟩
  | @statement opening ts ts₁ ts₂ rest t n more hskip hne _ hends hmore ihn ihmore =>
    intro us _ _ hus
    obtain ⟨us₁, hskip', hus₁⟩ := hus.skipSeparators_cons hskip
    -- the brace that closes the block is still to come
    obtain ⟨us₂, hn', hus₂⟩ := ihn trivial (fun _ => hmore.occupied_statements) (.cons t hus₁)
    obtain ⟨rest', hmore', hrest⟩ := ihmore trivial trivial hus₂
    exact ⟨rest', .statement hskip' hne hn' (hus₂.endsStatement htail hends) hmore', hrest⟩
  | noParameters hclose =>
    intro us _ _ hus
    obtain ⟨rest', hclose', hrest⟩ := hus.visible hclose nofun
    exact ⟨rest', .noParameters hclose', hrest⟩
  | someParameters hne hitems ih =>
    intro us _ _ hus
    obtain ⟨rest', hitems', hrest⟩ := ih trivial trivial hus
    exact ⟨rest', .someParameters (hus.visible_ne hitems.occupied_parameterList hne) hitems', hrest⟩
  | lastParameter hname hseen hdefault hclose ih =>
    intro us _ _ hus
    obtain ⟨us₁, hname', hus₁⟩ := hus.visible hname nofun
    obtain ⟨us₂, hdefault', hus₂⟩ := ih trivial (occupied_of_visible hclose nofun) hus₁
    obtain ⟨rest', hclose', hrest⟩ := hus₂.visible hclose nofun
    exact ⟨rest', .lastParameter hname' hseen hdefault' hclose', hrest⟩
  | parameter hname hseen hdefault hcomma _ ihdefault ihmore =>
    intro us _ _ hus
    obtain ⟨us₁, hname', hus₁⟩ := hus.visible hname nofun
    obtain ⟨us₂, hdefault', hus₂⟩ := ihdefault trivial (occupied_of_visible hcomma nofun) hus₁
    obtain ⟨us₃, hcomma', hus₃⟩ := hus₂.visible hcomma nofun
    obtain ⟨rest', hmore', hrest⟩ := ihmore trivial trivial hus₃
    exact ⟨rest', .parameter hname' hseen hdefault' hcomma' hmore', hrest⟩
  | withDefault heq _ ih =>
    intro us _ hleaves hus
    obtain ⟨us₁, heq', hus₁⟩ := hus.visible heq nofun
    obtain ⟨rest', hdefault', hrest⟩ := ih trivial (fun _ => hleaves) hus₁
    exact ⟨rest', .withDefault heq' hdefault', hrest⟩
  | noDefault hne =>
    intro us _ hleaves hus
    exact ⟨us, .noDefault (hus.visible_ne hleaves hne), hus⟩
  | @application region t left ts rest args hopen _ ih =>
    intro us hleft _ hus
    obtain ⟨rest', hargs', hrest⟩ := ih trivial trivial hus
    have hform : Reads ((Goal.operatorForm region t left).move f) us _ rest' :=
      .application hopen hargs'
    -- a call stands where its head stands, which has been moved
    rw [Node.position_move hleft] at hform
    exact ⟨rest', hform, hrest⟩
  | @index region t left ts rest args hopen _ ih =>
    intro us hleft _ hus
    obtain ⟨rest', hargs', hrest⟩ := ih trivial trivial hus
    have hform : Reads ((Goal.operatorForm region t left).move f) us _ rest' := .index hopen hargs'
    rw [Node.position_move hleft] at hform
    exact ⟨rest', hform, hrest⟩
  | @doubleIndex region t left ts ts₁ rest p args hopen _ hclose ih =>
    intro us hleft _ hus
    obtain ⟨us₁, hargs', hus₁⟩ := ih trivial trivial hus
    obtain ⟨rest', hclose', hrest⟩ := hus₁.visible hclose nofun
    have hform : Reads ((Goal.operatorForm region t left).move f) us _ rest' :=
      .doubleIndex hopen hargs' hclose'
    rw [Node.position_move hleft] at hform
    exact ⟨rest', hform, hrest⟩
  | @member region t u left right ts rest name hname htakes hskip hmember =>
    intro us hleft _ hus
    have hv : visible .bracket ts = u :: rest := hskip
    obtain ⟨rest', hskip', hrest⟩ := hus.visible_bracket hv
    have hform : Reads ((Goal.operatorForm region t left).move f) us _ rest' :=
      .member hname ((takesMember_move f).mpr htakes) hskip' (memberNode?_move f hmember)
    rw [Node.position_move hleft] at hform
    exact ⟨rest', hform, hrest⟩
  | binary hname hmembers hqualifiers hbinary hright hcombine ih =>
    intro us hleft hleaves hus
    obtain ⟨rest', hright', hrest⟩ :=
      ih trivial hleaves (hus.skipBreaks hright.occupied_expression_skip)
    have hcombine' := combine_move f hleft hcombine
    exact ⟨rest', .binary hname hmembers hqualifiers hbinary hright' hcombine', hrest⟩
  | noArguments hv hclose =>
    intro us _ _ hus
    obtain ⟨rest', hv', hrest⟩ := hus.visible_bracket hv
    exact ⟨rest', .noArguments hv' hclose, hrest⟩
  | someArguments hv hopen _ ih =>
    intro us _ _ hus
    obtain ⟨us₁, hv', -⟩ := hus.visible_bracket hv
    obtain ⟨rest', hargs', hrest⟩ := ih trivial trivial hus
    exact ⟨rest', .someArguments hv' hopen hargs', hrest⟩
  | lastArgument _ hv hclose ih =>
    intro us _ _ hus
    obtain ⟨us₁, harg', hus₁⟩ := ih trivial (occupied_of_bracket hv) hus
    obtain ⟨rest', hv', hrest⟩ := hus₁.visible_bracket hv
    exact ⟨rest', .lastArgument harg' hv' hclose, hrest⟩
  | argument _ hcomma _ iharg ihmore =>
    intro us _ _ hus
    obtain ⟨us₁, harg', hus₁⟩ := iharg trivial (occupied_of_bracket hcomma) hus
    obtain ⟨us₂, hcomma', hus₂⟩ := hus₁.visible_bracket hcomma
    obtain ⟨rest', hmore', hrest⟩ := ihmore trivial trivial hus₂
    exact ⟨rest', .argument harg' hcomma' hmore', hrest⟩
  | unnamed hv hends hname hvalue ih =>
    intro us _ hleaves hus
    obtain ⟨us₁, hv', hus₁⟩ := hus.visible_bracket hv
    obtain ⟨rest', hvalue', hrest⟩ := ih trivial (fun _ => hleaves) hus
    have hname' :=
      hus₁.afterName_none (fun _ ht => hvalue.occupied_after_name hv ht hleaves) hname
    exact ⟨rest', .unnamed hv' hends hname' hvalue', hrest⟩
  | named hv hends hname hempty hfound hvalue ih =>
    intro us _ hleaves hus
    obtain ⟨us₁, hv', hus₁⟩ := hus.visible_bracket hv
    obtain ⟨us₂, hname', hus₂⟩ := hus₁.afterName hname
    obtain ⟨rest', hvalue', hrest⟩ := ih trivial (fun _ => hleaves) hus₂
    refine ⟨rest', .named hv' hends hname' hempty ?_ hvalue', hrest⟩
    rw [hus₂.found_visible hvalue.occupied_expression]
    exact hfound

end Parser

end RCode
