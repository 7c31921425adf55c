import RCode.Proofs.Node.Derivation

/-!
# What the parser leaves over

The parser takes tokens from the front: what it leaves is an end of what it was given
(`Reads.suffix`). Whatever holds of all tokens of a text therefore holds of those left over.
-/

set_option autoImplicit false

namespace RCode.Parser

theorem skipBreaks_suffix (ts : Tokens) : skipBreaks ts <:+ ts := by
  fun_induction skipBreaks ts with
  | case1 p rest ih => exact ih.trans (List.suffix_cons _ _)
  | case2 => exact List.suffix_refl _

theorem skipSeparators_suffix (ts : Tokens) : skipSeparators ts <:+ ts := by
  fun_induction skipSeparators ts with
  | case1 p rest ih => exact ih.trans (List.suffix_cons _ _)
  | case2 p rest ih => exact ih.trans (List.suffix_cons _ _)
  | case3 => exact List.suffix_refl _

theorem visible_suffix (region : Region) (ts : Tokens) : visible region ts <:+ ts := by
  cases region with
  | top | block => exact List.suffix_refl _
  | bracket => exact skipBreaks_suffix ts

/-- The first visible token and those after it. -/
theorem suffix_of_visible {region : Region} {ts rest : Tokens} {t : Token}
    (h : visible region ts = t :: rest) : t :: rest <:+ ts :=
  h ▸ visible_suffix region ts

theorem rest_suffix {ts rest : Tokens} {t : Token} (h : t :: rest <:+ ts) : rest <:+ ts :=
  (List.suffix_cons t rest).trans h

theorem rest_suffix_of_visible {region : Region} {ts rest : Tokens} {t : Token}
    (h : visible region ts = t :: rest) : rest <:+ ts :=
  rest_suffix (suffix_of_visible h)

theorem suffix_of_skipBreaks {ts rest : Tokens} {t : Token} (h : skipBreaks ts = t :: rest) :
    t :: rest <:+ ts :=
  h ▸ skipBreaks_suffix ts

theorem suffix_of_skipSeparators {ts rest : Tokens} {t : Token}
    (h : skipSeparators ts = t :: rest) : t :: rest <:+ ts :=
  h ▸ skipSeparators_suffix ts

theorem beforeElse_suffix (region : Region) (ts : Tokens) : beforeElse region ts <:+ ts := by
  unfold beforeElse
  split
  · exact List.suffix_refl _
  · exact skipBreaks_suffix ts

theorem suffix_of_afterElse {region : Region} {ts rest : Tokens}
    (h : afterElse? region ts = some rest) : rest <:+ ts := by
  obtain ⟨p, hp⟩ := afterElse?_eq_some.mp h
  exact rest_suffix (hp ▸ beforeElse_suffix region ts)

theorem suffix_of_afterName {t : Token} {ts rest : Tokens} {name : String}
    (h : afterName? t ts = some (name, rest)) : rest <:+ ts := by
  obtain ⟨-, p, hp⟩ := afterName?_eq_some.mp h
  exact rest_suffix (suffix_of_skipBreaks hp)

/-- What is left over is an end of what was given. -/
theorem Reads.suffix {g : Goal} {ts rest : Tokens} {r : Phrase} (h : Reads g ts r rest) :
    rest <:+ ts := by
  induction h with
  | expression hv _ _ ihoperand ihoperators =>
    exact ihoperators.trans (ihoperand.trans (rest_suffix_of_visible hv))
  | done => exact visible_suffix _ _
  | more hv _ _ _ ihform ihoperators =>
    exact ihoperators.trans (ihform.trans (rest_suffix_of_visible hv))
  | literal | symbol | breakJump | nextJump | noDefault => exact List.suffix_refl _
  | prefixed _ _ _ ih => exact ih.trans (skipBreaks_suffix _)
  | group _ _ hclose ih => exact (rest_suffix_of_visible hclose).trans ih
  | block _ _ ih => exact ih
  | conditional _ _ _ _ ihcondition ihbody =>
    exact ihbody.trans ((skipBreaks_suffix _).trans ihcondition)
  | alternative _ _ _ helse _ ihcondition ihbody ihother =>
    exact ihother.trans ((skipBreaks_suffix _).trans ((suffix_of_afterElse helse).trans
      (ihbody.trans ((skipBreaks_suffix _).trans ihcondition))))
  | whileLoop _ _ _ ihcondition ihbody =>
    exact ihbody.trans ((skipBreaks_suffix _).trans ihcondition)
  | forLoop _ hopen hname hin _ hclose _ ihsequence ihbody =>
    have hhead := (rest_suffix_of_visible hin).trans
      ((rest_suffix_of_visible hname).trans (rest_suffix_of_visible hopen))
    exact ihbody.trans ((skipBreaks_suffix _).trans
      ((rest_suffix_of_visible hclose).trans (ihsequence.trans hhead)))
  | repeatLoop _ _ ih => exact ih.trans (skipBreaks_suffix _)
  | definition _ hopen _ _ ihparameters ihbody =>
    exact ihbody.trans ((skipBreaks_suffix _).trans
      (ihparameters.trans (rest_suffix_of_visible hopen)))
  | condition hopen _ hclose ih =>
    exact (rest_suffix_of_visible hclose).trans (ih.trans (rest_suffix_of_visible hopen))
  | blockEnd hskip => exact rest_suffix (suffix_of_skipSeparators hskip)
  | statement hskip _ _ _ _ ihstatement ihmore =>
    exact ihmore.trans (ihstatement.trans (suffix_of_skipSeparators hskip))
  | noParameters hclose => exact rest_suffix_of_visible hclose
  | someParameters _ _ ih => exact ih
  | lastParameter hv _ _ hclose ih =>
    exact (rest_suffix_of_visible hclose).trans (ih.trans (rest_suffix_of_visible hv))
  | parameter hv _ _ hcomma _ ihdefault ihmore =>
    exact ihmore.trans ((rest_suffix_of_visible hcomma).trans
      (ihdefault.trans (rest_suffix_of_visible hv)))
  | withDefault hv _ ih => exact ih.trans (rest_suffix_of_visible hv)
  | application _ _ ih | index _ _ ih => exact ih
  | doubleIndex _ _ hclose ih => exact (rest_suffix_of_visible hclose).trans ih
  | member _ _ hskip _ => exact rest_suffix (suffix_of_skipBreaks hskip)
  | binary _ _ _ _ _ _ ih => exact ih.trans (skipBreaks_suffix _)
  | noArguments hv => exact rest_suffix_of_visible hv
  | someArguments _ _ _ ih => exact ih
  | lastArgument _ hclose _ ih => exact (rest_suffix_of_visible hclose).trans ih
  | argument _ hcomma _ iharg ihmore =>
    exact ihmore.trans ((rest_suffix_of_visible hcomma).trans iharg)
  | unnamed _ _ _ _ ih => exact ih
  | named hv _ hname _ _ _ ih =>
    exact ih.trans ((suffix_of_afterName hname).trans (rest_suffix_of_visible hv))

end RCode.Parser
