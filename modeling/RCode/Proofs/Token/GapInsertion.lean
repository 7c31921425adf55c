import RCode.Proofs.Token.Insertion
import RCode.Proofs.Token.Tiling

/-!
# A gap before a token

A gap that is put in directly before a token, or at the end of the text, changes no token but its
position (`TokenText.Scans.insert_gap`). The tokens before it end at separators, with which every gap
begins, and they do not depend on what is displaced. Behind a comment the gap becomes part of it.
-/

set_option autoImplicit false

namespace RCode

open RCode.Parser (lexemes lexemes_cons)

namespace Gap

variable {merged : Bool} {gap rest : List Char}

/-- A gap begins with a separator. -/
theorem isSeparator_head {c : Char} (h : Gap merged (c :: gap) rest) : isSeparator c = true := by
  cases h with
  | blank hblank => simp [isSeparator, hblank]
  | comment => rfl
  | lineBreak => rfl

/-- A gap without line breaks is one wherever it stands. -/
theorem mono (h : Gap false gap rest) : Gap merged gap rest := by
  induction h with
  | nil rest => exact .nil rest
  | blank hblank _ ih => exact .blank hblank ih
  | comment hbody hends _ ih => exact .comment hbody hends ih
  | lineBreak hmerged => cases hmerged

end Gap

namespace TokenText

/-- A gap in front of a text has no tokens. -/
theorem Scans.behind_gap {afterBreak : Bool} {gap rest : List Char} (hgap : Gap afterBreak gap rest) :
    ∀ {p stop : Position} {ts : List Token}, Scans (p.after gap) afterBreak rest ts stop →
      Scans p afterBreak (gap ++ rest) ts stop := by
  induction hgap with
  | nil rest => exact fun h => h
  | blank hblank _ ih => exact fun h => .blank hblank (ih h)
  | @comment body gap rest hbody hends _ ih =>
    intro p stop ts h
    rw [Position.after_append] at h
    rw [List.append_assoc]
    exact (ih h).comment_append hbody hends
  | lineBreak hmerged _ ih =>
    intro p stop ts h
    subst hmerged
    exact .merged (ih h)

/-- A gap in front of a text changes the positions of its tokens. -/
theorem Scans.gap_front {p stop : Position} {afterBreak : Bool} {cs gap : List Char}
    {ts : List Token} (h : Scans p afterBreak cs ts stop) (hgap : Gap false gap cs) (q : Position) :
    ∃ us stop', Scans q afterBreak (gap ++ cs) us stop' ∧ lexemes us = lexemes ts := by
  obtain ⟨us, stop', hus, heq⟩ := h.moved (q.after gap)
  exact ⟨us, stop', hus.behind_gap hgap.mono, heq⟩

/-- A lexeme is read as before when a gap is put in somewhere behind it. -/
theorem readLexeme_gap {c : Char} {chars pre post gap : List Char} {l : Lexeme}
    (hread : readLexeme c (chars ++ (pre ++ post)) = .ok (l, pre ++ post))
    (hgap : Gap false gap post) :
    readLexeme c (chars ++ (pre ++ gap ++ post)) = .ok (l, pre ++ gap ++ post) := by
  cases gap with
  | nil =>
    rw [List.append_nil]
    exact hread
  | cons g gap =>
    -- what follows is cut off, and the gap is read as the separator that it begins with
    rw [← List.append_assoc] at hread
    have hcut := (readLexeme_local (readLexeme_cut hread)).extend g hgap.isSeparator_head (gap ++ post)
    rwa [List.append_assoc, ← List.cons_append, ← List.append_assoc pre] at hcut

/-- The text can be taken apart directly before the tokens `after`, or at its end if there are none,
with a gap in between. -/
theorem Scans.insert_gap {p stop : Position} {afterBreak : Bool} {cs : List Char}
    {before after : List Token} (h : Scans p afterBreak cs (before ++ after) stop) :
    ∃ pre post, pre ++ post = cs ∧ (∀ t ∈ after.head?, t.position = p.after pre) ∧
      (after = [] → post = []) ∧ ∀ gap, Gap false gap post → ∀ q, ∃ us stop',
        Scans q afterBreak (pre ++ gap ++ post) us stop' ∧
          lexemes us = lexemes (before ++ after) := by
  generalize hts : before ++ after = ts at h
  induction h generalizing before with
  | done p afterBreak =>
    obtain ⟨rfl, rfl⟩ := List.append_eq_nil_iff.mp hts
    refine ⟨[], [], rfl, nofun, fun _ => rfl, ?_⟩
    intro gap hgap q
    exact (Scans.done p afterBreak).gap_front hgap q
  | @blank p stop afterBreak c rest ts hblank _ ih =>
    obtain ⟨pre, post, rfl, hplace, hend, hinsert⟩ := ih hts
    refine ⟨c :: pre, post, rfl, hplace, hend, ?_⟩
    intro gap hgap q
    obtain ⟨us, stop', hus, heq⟩ := hinsert gap hgap (q.next c)
    exact ⟨us, stop', .blank hblank hus, heq⟩
  | @comment p stop afterBreak rest ts _ ih =>
    obtain ⟨body, left, rfl, hbody, hends, htake, hdrop⟩ := exists_comment rest
    rw [htake, hdrop] at ih
    obtain ⟨pre, post, rfl, hplace, hend, hinsert⟩ := ih hts
    refine ⟨'#' :: body ++ pre, post, ?_, ?_, hend, ?_⟩
    · rw [List.append_assoc, List.cons_append]
    · intro t ht
      rw [hplace t ht, Position.after_append]
    intro gap hgap q
    rw [List.append_assoc, List.append_assoc, List.cons_append]
    cases pre with
    | nil =>
      -- directly behind the comment the gap becomes a part of it
      have hlonger : '\n' ∉ body ++ gap := List.not_mem_append hbody hgap.not_mem
      obtain ⟨us, stop', hus, heq⟩ := hinsert [] (.nil post) (q.after ('#' :: (body ++ gap)))
      rw [List.nil_append, ← List.append_assoc]
      exact ⟨us, stop', hus.comment_append hlonger hends, heq⟩
    | cons d pre =>
      obtain ⟨us, stop', hus, heq⟩ := hinsert gap hgap (q.after ('#' :: body))
      rw [List.append_assoc] at hus
      exact ⟨us, stop', hus.comment_append hbody hends, heq⟩
  | @merged p stop rest ts _ ih =>
    obtain ⟨pre, post, rfl, hplace, hend, hinsert⟩ := ih hts
    refine ⟨'\n' :: pre, post, rfl, hplace, hend, ?_⟩
    intro gap hgap q
    obtain ⟨us, stop', hus, heq⟩ := hinsert gap hgap (q.next '\n')
    exact ⟨us, stop', .merged hus, heq⟩
  | @lineBreak p stop rest ts hrest ih =>
    cases before with
    | nil =>
      rw [List.nil_append] at hts
      subst hts
      refine ⟨[], '\n' :: rest, rfl, ?_, nofun, ?_⟩
      · rintro t ⟨⟩
        rfl
      · intro gap hgap q
        exact (Scans.lineBreak hrest).gap_front hgap q
    | cons b before =>
      obtain ⟨rfl, hmore⟩ := List.cons.inj hts
      obtain ⟨pre, post, rfl, hplace, hend, hinsert⟩ := ih hmore
      refine ⟨'\n' :: pre, post, rfl, hplace, hend, ?_⟩
      intro gap hgap q
      obtain ⟨us, stop', hus, heq⟩ := hinsert gap hgap (q.next '\n')
      exact ⟨_, stop', .lineBreak hus, congrArg (List.cons _) heq⟩
  | @lexeme p stop afterBreak c rest left l ts hblank hcomment hbreak hread hrest ih =>
    cases before with
    | nil =>
      rw [List.nil_append] at hts
      subst hts
      refine ⟨[], c :: rest, rfl, ?_, nofun, ?_⟩
      · rintro t ⟨⟩
        rfl
      · intro gap hgap q
        exact (Scans.lexeme hblank hcomment hbreak hread hrest).gap_front hgap q
    | cons b before =>
      obtain ⟨rfl, hmore⟩ := List.cons.inj hts
      obtain ⟨chars, rfl⟩ := (readLexeme_local hread).suffix
      have hchars : ∀ left, upTo (c :: (chars ++ left)) left = c :: chars := upTo_left (c :: chars)
      obtain ⟨pre, post, rfl, hplace, hend, hinsert⟩ := ih hmore
      refine ⟨c :: chars ++ pre, post, ?_, ?_, hend, ?_⟩
      · rw [List.append_assoc, List.cons_append]
      · intro t ht
        rw [hplace t ht, hchars, Position.after_append]
      · intro gap hgap q
        obtain ⟨us, stop', hus, heq⟩ := hinsert gap hgap (q.after (c :: chars))
        rw [← hchars (pre ++ gap ++ post)] at hus
        refine ⟨⟨l, q⟩ :: us, stop', ?_, congrArg (List.cons l) heq⟩
        rw [List.append_assoc (c :: chars), List.append_assoc (c :: chars)]
        exact .lexeme hblank hcomment hbreak (readLexeme_gap hread hgap) hus

end TokenText

end RCode
