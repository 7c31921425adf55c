import RCode.Proofs.Node.Positions
import RCode.Proofs.Token.Order
import RCode.Proofs.Token.Truncation

/-!
# A line break before a token

A line break that is put in directly before a token changes no other token but their positions: it is a
token of its own, unless it stands next to another line break (`TokenText.Scans.insert_break`).
-/

set_option autoImplicit false

namespace RCode

open RCode.Parser (lexemes lexemes_cons)

namespace Position

/-- Every stretch of text leads on. -/
theorem eq_nil_of_after_eq {p : Position} {cs : List Char} (h : p.after cs = p) : cs = [] := by
  cases cs with
  | nil => rfl
  | cons c cs =>
    have hle := le_after (p.next c) cs
    rw [show (p.next c).after cs = p from h] at hle
    exact absurd (lt_of_lt_of_le (lt_next p c) hle) (lt_irrefl p)

/-- Two starts of one text that lead to the same place are the same. -/
theorem after_inj {p : Position} {cs ds cs' ds' : List Char} (htext : cs ++ ds = cs' ++ ds')
    (h : p.after cs = p.after cs') : cs = cs' ∧ ds = ds' := by
  rcases List.append_eq_append_iff.mp htext with ⟨more, rfl, rfl⟩ | ⟨more, rfl, rfl⟩
  · rw [after_append] at h
    obtain rfl := eq_nil_of_after_eq h.symm
    exact ⟨(List.append_nil _).symm, rfl⟩
  · rw [after_append] at h
    obtain rfl := eq_nil_of_after_eq h
    exact ⟨List.append_nil _, rfl⟩

end Position

namespace TokenText

/-- What a text splits into does not depend on where it stands. -/
theorem Scans.moved {p stop : Position} {afterBreak : Bool} {cs : List Char} {ts : List Token}
    (h : Scans p afterBreak cs ts stop) (q : Position) :
    ∃ us stop', Scans q afterBreak cs us stop' ∧ lexemes us = lexemes ts := by
  induction h generalizing q with
  | done p afterBreak => exact ⟨_, _, .done q afterBreak, rfl⟩
  | blank hblank _ ih =>
    obtain ⟨us, stop', hus, heq⟩ := ih (q.next _)
    exact ⟨us, stop', .blank hblank hus, heq⟩
  | comment _ ih =>
    obtain ⟨us, stop', hus, heq⟩ := ih (q.after _)
    exact ⟨us, stop', .comment hus, heq⟩
  | merged _ ih =>
    obtain ⟨us, stop', hus, heq⟩ := ih (q.next '\n')
    exact ⟨us, stop', .merged hus, heq⟩
  | lineBreak _ ih =>
    obtain ⟨us, stop', hus, heq⟩ := ih (q.next '\n')
    exact ⟨_, stop', .lineBreak hus, congrArg (List.cons _) heq⟩
  | lexeme hblank hcomment hbreak hread _ ih =>
    obtain ⟨us, stop', hus, heq⟩ := ih (q.after _)
    exact ⟨_, stop', .lexeme hblank hcomment hbreak hread hus, congrArg (List.cons _) heq⟩

/-- A comment ends where its line does. -/
theorem Scans.comment_append {p stop : Position} {afterBreak : Bool} {body rest : List Char}
    {ts : List Token} (h : Scans (p.after ('#' :: body)) afterBreak rest ts stop)
    (hbody : '\n' ∉ body) (hrest : ∀ c ∈ rest.head?, c = '\n') :
    Scans p afterBreak ('#' :: (body ++ rest)) ts stop := by
  have hall : ∀ c ∈ body, (c != '\n') = true := fun c hc =>
    bne_iff_ne.mpr fun heq => hbody (heq ▸ hc)
  have hstop : rest.takeWhile (· != '\n') = [] ∧ rest.dropWhile (· != '\n') = rest := by
    cases rest with
    | nil => exact ⟨rfl, rfl⟩
    | cons c rest =>
      obtain rfl := hrest c rfl
      exact ⟨rfl, rfl⟩
  refine .comment ?_
  rw [List.takeWhile_cons_of_pos (by decide), List.takeWhile_append_of_pos hall,
    List.dropWhile_append_of_pos hall, hstop.1, hstop.2, List.append_nil]
  exact h

/-- The tokens of the lists, which stand after a line break or not, with a line break in between. -/
inductive Separated : Bool → List Token → List Token → List Token → Prop where
  /-- Next to another line break the one in between is no token. -/
  | merged {afterBreak : Bool} {after us : List Token} :
      (afterBreak = true ∨ ∃ t ∈ after.head?, t.lexeme = .newline) → lexemes us = lexemes after →
        Separated afterBreak [] after us
  | lineBreak {afterBreak : Bool} {after us : List Token} (p : Position) :
      lexemes us = lexemes after → Separated afterBreak [] after (⟨.newline, p⟩ :: us)
  | cons {afterBreak afterBreak' : Bool} {t u : Token} {before after us : List Token} :
      u.lexeme = t.lexeme → (afterBreak' = true → t.lexeme = .newline) →
        Separated afterBreak' before after us → Separated afterBreak (t :: before) after (u :: us)

/-- The text can be taken apart directly before a token, with a line break in between. -/
theorem Scans.insert_break {p stop : Position} {afterBreak : Bool} {cs : List Char} {t : Token}
    {before after : List Token} (h : Scans p afterBreak cs (before ++ t :: after) stop)
    (q : Position) :
    ∃ pre post, pre ++ post = cs ∧ t.position = p.after pre ∧ ∃ us stop',
      Scans q afterBreak (pre ++ '\n' :: post) us stop' ∧
        Separated afterBreak before (t :: after) us := by
  generalize hts : before ++ t :: after = ts at h
  induction h generalizing before q with
  | done => simp at hts
  | @blank p stop afterBreak c rest ts hblank _ ih =>
    obtain ⟨pre, post, rfl, hposition, us, stop', hus, hseparated⟩ := ih (q.next c) hts
    exact ⟨c :: pre, post, rfl, hposition, us, stop', .blank hblank hus, hseparated⟩
  | @comment p stop afterBreak rest ts _ ih =>
    obtain ⟨body, left, rfl, hbody, hends, htake, hdrop⟩ := exists_comment rest
    rw [htake, hdrop] at ih
    obtain ⟨pre, post, rfl, hposition, us, stop', hus, hseparated⟩ := ih (q.after ('#' :: body)) hts
    -- the comment still ends where its line does
    have hends' : ∀ c ∈ (pre ++ '\n' :: post).head?, c = '\n' := by
      cases pre with
      | nil =>
        rintro c ⟨⟩
        rfl
      | cons d pre => exact hends
    refine ⟨'#' :: body ++ pre, post, ?_, ?_, us, stop', ?_, hseparated⟩
    · rw [List.append_assoc, List.cons_append]
    · rw [hposition, Position.after_append]
    · rw [List.append_assoc]
      exact hus.comment_append hbody hends'
  | @merged p stop rest ts _ ih =>
    obtain ⟨pre, post, rfl, hposition, us, stop', hus, hseparated⟩ := ih (q.next '\n') hts
    exact ⟨'\n' :: pre, post, rfl, hposition, us, stop', .merged hus, hseparated⟩
  | @lineBreak p stop rest ts hrest ih =>
    cases before with
    | nil =>
      -- the line break is put in before a line break, which is then merged
      obtain ⟨rfl, rfl⟩ := List.cons.inj hts
      obtain ⟨us, stop', hus, heq⟩ := hrest.moved ((q.next '\n').next '\n')
      refine ⟨[], '\n' :: rest, rfl, rfl, _, stop', .lineBreak (.merged hus), .merged ?_ ?_⟩
      · exact .inr ⟨_, rfl, rfl⟩
      · exact congrArg (List.cons _) heq
    | cons b before =>
      obtain ⟨rfl, hmore⟩ := List.cons.inj hts
      obtain ⟨pre, post, rfl, hposition, us, stop', hus, hseparated⟩ := ih (q.next '\n') hmore
      exact ⟨'\n' :: pre, post, rfl, hposition, _, stop', .lineBreak hus,
        .cons rfl (fun _ => rfl) hseparated⟩
  | @lexeme p stop afterBreak c rest left l ts hblank hcomment hbreak hread hrest ih =>
    cases before with
    | nil =>
      obtain ⟨rfl, rfl⟩ := List.cons.inj hts
      obtain ⟨us, stop', hus, heq⟩ := hrest.moved ((q.next '\n').after (upTo (c :: rest) left))
      have htail : Scans (q.next '\n') true (c :: rest) _ stop' :=
        .lexeme hblank hcomment hbreak hread hus
      have hlexemes := congrArg (List.cons l) heq
      cases afterBreak with
      | true =>
        exact ⟨[], c :: rest, rfl, rfl, _, stop', .merged htail, .merged (.inl rfl) hlexemes⟩
      | false => exact ⟨[], c :: rest, rfl, rfl, _, stop', .lineBreak htail, .lineBreak q hlexemes⟩
    | cons b before =>
      obtain ⟨rfl, hmore⟩ := List.cons.inj hts
      obtain ⟨chars, rfl⟩ := (readLexeme_local hread).suffix
      have hchars : ∀ left, upTo (c :: (chars ++ left)) left = c :: chars := upTo_left (c :: chars)
      obtain ⟨pre, post, rfl, hposition, us, stop', hus, hseparated⟩ :=
        ih (q.after (c :: chars)) hmore
      -- the lexeme is read from its characters, whatever follows the next line break
      rw [← List.append_assoc] at hread
      have hread' := (readLexeme_local (readLexeme_cut hread)).extend '\n' rfl post
      rw [← hchars (pre ++ '\n' :: post)] at hus
      rw [List.append_assoc] at hread'
      refine ⟨c :: chars ++ pre, post, ?_, ?_, ⟨l, q⟩ :: us, stop', ?_,
        .cons rfl (by rintro ⟨⟩) hseparated⟩
      · rw [List.append_assoc, List.cons_append]
      · rw [hposition, hchars, Position.after_append]
      · rw [List.append_assoc]
        exact .lexeme hblank hcomment hbreak hread' hus

end TokenText

end RCode
