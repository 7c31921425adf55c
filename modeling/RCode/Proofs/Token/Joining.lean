import Mathlib.Data.List.TakeWhile
import RCode.Proofs.Token.Locality

/-!
# Tokens of joined texts

The tokens of a text, a line break and another text are those of the first text, a line break, and
those of the second text, which stand so many lines lower as the first text has
(`TokenText.Scans.joined`, `TokenText.Scans.down`). Line breaks that follow each other count as one,
so that the one in between is left out after another one.
-/

set_option autoImplicit false

namespace RCode

theorem Coordinate.plus_comm (c : Coordinate) (j k : Int) :
    (c.plus j).plus k = (c.plus k).plus j :=
  congrArg Coordinate.number (Int.add_right_comm c.toInt j k)

namespace Position

/-- The position so many lines lower. -/
def down (lines : Nat) (p : Position) : Position :=
  ⟨p.line.plus lines, p.column⟩

theorem next_down (lines : Nat) (p : Position) (c : Char) :
    (p.down lines).next c = (p.next c).down lines := by
  unfold next down
  split
  · simp only [Position.mk.injEq, and_true]
    exact Coordinate.plus_comm p.line lines 1
  · rfl

theorem after_down (lines : Nat) (p : Position) (cs : List Char) :
    (p.down lines).after cs = (p.after cs).down lines := by
  induction cs generalizing p with
  | nil => rfl
  | cons c cs ih =>
    have hcons : ∀ p : Position, p.after (c :: cs) = (p.next c).after cs := fun _ => rfl
    rw [hcons, hcons, next_down, ih]

theorem after_append (p : Position) (cs ds : List Char) :
    p.after (cs ++ ds) = (p.after cs).after ds :=
  List.foldl_append

/-- A stretch of text leads as many lines down as it has line breaks. -/
theorem line_after (p : Position) (cs : List Char) :
    (p.after cs).line.toInt = p.line.toInt + cs.count '\n' := by
  induction cs generalizing p with
  | nil => exact (Int.add_zero _).symm
  | cons c cs ih =>
    have hcons : p.after (c :: cs) = (p.next c).after cs := rfl
    rw [hcons, ih]
    by_cases hbreak : c = '\n'
    · have hline : (p.next c).line.toInt = p.line.toInt + 1 := by
        rw [next, if_pos hbreak]
        rfl
      rw [hline, hbreak, List.count_cons_self]
      omega
    · have hline : (p.next c).line.toInt = p.line.toInt := by rw [next, if_neg hbreak]
      rw [hline, List.count_cons_of_ne hbreak]

end Position

/-- The token at another position. -/
def Token.move (f : Position → Position) (t : Token) : Token :=
  ⟨t.lexeme, f t.position⟩

namespace TokenText

theorem upTo_left (before rest : List Char) : upTo (before ++ rest) rest = before := by
  have hlength : (before ++ rest).length - rest.length = before.length := by
    rw [List.length_append]
    omega
  rw [upTo, hlength, List.take_left]

theorem upTo_append {cs rest : List Char} (h : rest <:+ cs) : upTo cs rest ++ rest = cs := by
  obtain ⟨before, rfl⟩ := h
  rw [upTo_left]

theorem upTo_break {cs rest : List Char} (h : rest.length ≤ cs.length) (more : List Char) :
    upTo (cs ++ '\n' :: more) (rest ++ '\n' :: more) = upTo cs rest := by
  have hlength : (cs ++ '\n' :: more).length - (rest ++ '\n' :: more).length =
      cs.length - rest.length := by
    rw [List.length_append, List.length_append]
    omega
  rw [upTo, hlength, List.take_append_of_le_length (Nat.sub_le _ _)]
  rfl

/-! ## Steps of a scan -/

/-- The text at `p` splits into the tokens and ends at `stop`. -/
inductive Scans : Position → Bool → List Char → List Token → Position → Prop where
  | done (p : Position) (afterBreak : Bool) : Scans p afterBreak [] [] p
  | blank {p stop : Position} {afterBreak : Bool} {c : Char} {rest : List Char}
      {ts : List Token} :
      isBlank c = true → Scans (p.next c) afterBreak rest ts stop →
        Scans p afterBreak (c :: rest) ts stop
  | comment {p stop : Position} {afterBreak : Bool} {rest : List Char} {ts : List Token} :
      Scans (p.after (('#' :: rest).takeWhile (· != '\n'))) afterBreak
        (rest.dropWhile (· != '\n')) ts stop → Scans p afterBreak ('#' :: rest) ts stop
  /-- A line break after another one. -/
  | merged {p stop : Position} {rest : List Char} {ts : List Token} :
      Scans (p.next '\n') true rest ts stop → Scans p true ('\n' :: rest) ts stop
  | lineBreak {p stop : Position} {rest : List Char} {ts : List Token} :
      Scans (p.next '\n') true rest ts stop →
        Scans p false ('\n' :: rest) (⟨.newline, p⟩ :: ts) stop
  | lexeme {p stop : Position} {afterBreak : Bool} {c : Char} {rest after : List Char}
      {l : Lexeme} {ts : List Token} :
      ¬ isBlank c = true → c ≠ '#' → c ≠ '\n' → readLexeme c rest = .ok (l, after) →
        Scans (p.after (upTo (c :: rest) after)) false after ts stop →
          Scans p afterBreak (c :: rest) (⟨l, p⟩ :: ts) stop

theorem scans_of_scan {p : Position} {afterBreak : Bool} {cs : List Char} {t : TokenText}
    (h : scan p afterBreak cs = .ok t) : Scans p afterBreak cs t.tokens t.stop := by
  fun_induction scan p afterBreak cs generalizing t with
  | case1 p afterBreak =>
    cases h
    exact .done p afterBreak
  | case2 p afterBreak c rest hblank ih => exact .blank hblank (ih h)
  | case3 p afterBreak rest hblank ih => exact .comment (ih h)
  | case4 p rest hblank hcomment ih => exact .merged (ih h)
  | case5 p afterBreak rest hfirst hblank hcomment ih =>
    obtain ⟨t, ht, rfl⟩ := Literal.map_eq_ok h
    obtain rfl := Bool.eq_false_iff.mpr hfirst
    exact .lineBreak (ih ht)
  | case6 => cases h
  | case7 p afterBreak c rest hblank hcomment hbreak l after hread ih =>
    obtain ⟨t, ht, rfl⟩ := Literal.map_eq_ok h
    exact .lexeme hblank hcomment hbreak hread (ih ht)

theorem Scans.scan_eq {p stop : Position} {afterBreak : Bool} {cs : List Char} {ts : List Token}
    (h : Scans p afterBreak cs ts stop) : scan p afterBreak cs = .ok ⟨ts, stop⟩ := by
  induction h with
  | done p afterBreak => rw [scan]
  | blank hblank _ ih => rw [scan, if_pos hblank, ih]
  | comment _ ih => rw [scan, if_neg (by decide), if_pos rfl, ih]
  | merged _ ih => rw [scan, if_neg (by decide), if_neg (by decide), if_pos rfl, if_pos rfl, ih]
  | lineBreak _ ih =>
    rw [scan, if_neg (by decide), if_neg (by decide), if_pos rfl, if_neg Bool.false_ne_true, ih]
    rfl
  | @lexeme p stop afterBreak c rest after l ts hblank hcomment hbreak hread _ ih =>
    rw [scan, if_neg hblank, if_neg hcomment, if_neg hbreak]
    split
    · next heq => rw [hread] at heq; cases heq
    · next l' after' heq =>
      rw [hread] at heq
      cases heq
      rw [ih]
      rfl

/-- A comment is what stands before the end of its line. -/
theorem exists_comment (rest : List Char) :
    ∃ body left, body ++ left = rest ∧ '\n' ∉ body ∧ (∀ c ∈ left.head?, c = '\n') ∧
      ('#' :: rest).takeWhile (· != '\n') = '#' :: body ∧ rest.dropWhile (· != '\n') = left := by
  refine ⟨_, _, List.takeWhile_append_dropWhile, ?_, ?_, List.takeWhile_cons_of_pos (by decide), rfl⟩
  · intro hmem
    simpa using List.mem_takeWhile_imp hmem
  · intro c hc
    have hnot := List.head?_dropWhile_not (· != '\n') rest
    rw [hc] at hnot
    simpa using hnot

/-! ## Where a text ends -/

/-- A text ends where its characters lead to. -/
theorem Scans.stop_eq {p stop : Position} {afterBreak : Bool} {cs : List Char} {ts : List Token}
    (h : Scans p afterBreak cs ts stop) : stop = p.after cs := by
  induction h with
  | done p afterBreak => rfl
  | blank hblank _ ih => exact ih
  | merged _ ih => exact ih
  | lineBreak _ ih => exact ih
  | @comment p stop afterBreak rest ts _ ih =>
    have hsplit :
        ('#' :: rest).takeWhile (· != '\n') ++ rest.dropWhile (· != '\n') = '#' :: rest := by
      rw [List.takeWhile_cons_of_pos (by decide), List.cons_append, List.takeWhile_append_dropWhile]
    rw [ih, ← Position.after_append, hsplit]
  | @lexeme p stop afterBreak c rest after l ts _ _ _ hread _ ih =>
    -- what the lexeme took and what it left are the text
    have hsuffix := (readLexeme_local hread).suffix.trans (List.suffix_cons c rest)
    rw [ih, ← Position.after_append, upTo_append hsuffix]

/-- A text that starts so many lines lower has its tokens so many lines lower. -/
theorem Scans.down {p stop : Position} {afterBreak : Bool} {cs : List Char} {ts : List Token}
    (h : Scans p afterBreak cs ts stop) (lines : Nat) :
    Scans (p.down lines) afterBreak cs (ts.map (Token.move (.down lines))) (stop.down lines) := by
  induction h with
  | done p afterBreak => exact .done _ _
  | @blank p stop afterBreak c rest ts hblank _ ih =>
    rw [← Position.next_down] at ih
    exact .blank hblank ih
  | comment _ ih =>
    rw [← Position.after_down] at ih
    exact .comment ih
  | merged _ ih =>
    rw [← Position.next_down] at ih
    exact .merged ih
  | lineBreak _ ih =>
    rw [← Position.next_down] at ih
    exact .lineBreak ih
  | lexeme hblank hcomment hbreak hread _ ih =>
    rw [← Position.after_down] at ih
    exact .lexeme hblank hcomment hbreak hread ih

/-! ## Joining -/

/-- The tokens of a text, which stand after a line break or not, before a line break and the tokens
`more`. -/
inductive Joined (more : List Token) : Bool → List Token → List Token → Prop where
  /-- The line break in between follows another one. -/
  | merged : Joined more true [] more
  | separated (p : Position) : Joined more false [] (⟨.newline, p⟩ :: more)
  | cons {afterBreak afterBreak' : Bool} {ts us : List Token} (t : Token) :
      (afterBreak' = true → t.lexeme = .newline) → Joined more afterBreak' ts us →
        Joined more afterBreak (t :: ts) (t :: us)

/-- The texts with a line break in between split into the tokens of the first and the second one. -/
theorem Scans.joined {p mid stop : Position} {afterBreak : Bool} {cs ds : List Char}
    {ts more : List Token} (h : Scans p afterBreak cs ts mid)
    (hmore : Scans (mid.next '\n') true ds more stop) :
    ∃ us, Scans p afterBreak (cs ++ '\n' :: ds) us stop ∧ Joined more afterBreak ts us := by
  induction h with
  | done p afterBreak =>
    -- the line break in between is a token, except after another one
    cases afterBreak with
    | true => exact ⟨more, .merged hmore, .merged⟩
    | false => exact ⟨_, .lineBreak hmore, .separated p⟩
  | blank hblank _ ih =>
    obtain ⟨us, hus, hjoined⟩ := ih hmore
    exact ⟨us, .blank hblank hus, hjoined⟩
  | @comment p stop afterBreak rest ts _ ih =>
    obtain ⟨us, hus, hjoined⟩ := ih hmore
    refine ⟨us, .comment ?_, hjoined⟩
    -- a comment at the end of the first text ends at the line break in between
    have hstops : (('\n' : Char) != '\n') = false := by decide
    have htake := takeWhile_stop (p := (· != '\n')) hstops ('#' :: rest) ds
    have hdrop := dropWhile_stop (p := (· != '\n')) hstops rest ds
    change Scans (p.after (('#' :: rest ++ '\n' :: ds).takeWhile (· != '\n'))) afterBreak
      ((rest ++ '\n' :: ds).dropWhile (· != '\n')) us _
    rw [htake, hdrop]
    exact hus
  | merged _ ih =>
    obtain ⟨us, hus, hjoined⟩ := ih hmore
    exact ⟨us, .merged hus, hjoined⟩
  | lineBreak _ ih =>
    obtain ⟨us, hus, hjoined⟩ := ih hmore
    exact ⟨_, .lineBreak hus, .cons _ (fun _ => rfl) hjoined⟩
  | @lexeme p stop afterBreak c rest after l ts hblank hcomment hbreak hread _ ih =>
    obtain ⟨us, hus, hjoined⟩ := ih hmore
    -- the lexeme does not see the second text, and what it leaves is followed by it
    have hlocal := readLexeme_local hread
    have hlength : after.length ≤ (c :: rest).length :=
      Nat.le_succ_of_le hlocal.suffix.length_le
    rw [← upTo_break hlength ds] at hus
    refine ⟨_, .lexeme hblank hcomment hbreak (hlocal.extend '\n' rfl ds) hus, ?_⟩
    exact Joined.cons _ (fun htrue => Bool.noConfusion htrue) hjoined

/-- After a line break a text loses at most the line break at its start. -/
theorem Scans.after_break {p stop : Position} {cs : List Char} {ts : List Token}
    (h : Scans p false cs ts stop) :
    ∃ us, Scans p true cs us stop ∧ (ts = us ∨ ∃ q, ts = ⟨.newline, q⟩ :: us) := by
  generalize hfirst : false = afterBreak at h
  induction h with
  | done p afterBreak => exact ⟨[], .done p true, .inl rfl⟩
  | blank hblank _ ih =>
    obtain ⟨us, hus, heq⟩ := ih hfirst
    exact ⟨us, .blank hblank hus, heq⟩
  | comment _ ih =>
    obtain ⟨us, hus, heq⟩ := ih hfirst
    exact ⟨us, .comment hus, heq⟩
  | merged _ _ => cases hfirst
  | lineBreak hrest _ => exact ⟨_, .merged hrest, .inr ⟨_, rfl⟩⟩
  | lexeme hblank hcomment hbreak hread hrest _ =>
    exact ⟨_, .lexeme hblank hcomment hbreak hread hrest, .inl rfl⟩

end TokenText

end RCode
