import RCode.Proofs.Token.QuotedReading
import RCode.Proofs.Token.WordReading

/-!
# Lexemes end at separators

No lexeme is changed by a separator that follows it, nor by anything after that separator
(`readLexeme_local`): a blank, a line break or the start of a comment. Names, numbers and operators
cannot go on there, and whatever can hold a separator has a closing quote of its own. What is left
over is the end of what was given.
-/

set_option autoImplicit false

namespace RCode

/-- A blank, a line break or the start of a comment. -/
def isSeparator (c : Char) : Bool :=
  isBlank c || c == '\n' || c == '#'

/-- What passes for one of the separators after the other passes for each. -/
theorem forall_separator {P : Char → Prop} (space : P ' ') (tab : P '\t') (carriage : P '\r')
    (feed : P '\x0c') (lineBreak : P '\n') (comment : P '#') {c : Char}
    (h : isSeparator c = true) : P c := by
  simp only [isSeparator, isBlank, Bool.or_eq_true, beq_iff_eq] at h
  rcases h with ((((rfl | rfl) | rfl) | rfl) | rfl) | rfl
  · exact space
  · exact tab
  · exact carriage
  · exact feed
  · exact lineBreak
  · exact comment

/-- A separator is none of the characters that go on with a lexeme. -/
theorem ne_of_isSeparator {b c : Char} (hb : isSeparator b = true) (hc : isSeparator c = false) :
    b ≠ c := by
  rintro rfl
  rw [hb] at hc
  cases hc

variable {b : Char}

/-- What is read from a text, and what is left over, stay the same when a separator and more text
follow; what is left over is an end of the text. -/
structure Local {α : Type} (read : List Char → Except LexicalFault (α × List Char)) (cs : List Char)
    (a : α) (after : List Char) : Prop where
  suffix : after <:+ cs
  extend : ∀ b, isSeparator b = true → ∀ more, read (cs ++ b :: more) = .ok (a, after ++ b :: more)

theorem Local.congr {α : Type} {read read' : List Char → Except LexicalFault (α × List Char)}
    {cs : List Char} {a : α} {after : List Char} (h : Local read' cs a after)
    (hread : ∀ b, isSeparator b = true →
      ∀ more, read (cs ++ b :: more) = read' (cs ++ b :: more)) :
    Local read cs a after :=
  ⟨h.suffix, fun b hb more => (hread b hb more).trans (h.extend b hb more)⟩

theorem takeWhile_stop {p : Char → Bool} (h : p b = false) (cs more : List Char) :
    (cs ++ b :: more).takeWhile p = cs.takeWhile p := by
  induction cs with
  | nil => simp only [List.nil_append, List.takeWhile_cons, h, List.takeWhile_nil]; rfl
  | cons c cs ih => simp only [List.cons_append, List.takeWhile_cons, ih]

theorem dropWhile_stop {p : Char → Bool} (h : p b = false) (cs more : List Char) :
    (cs ++ b :: more).dropWhile p = cs.dropWhile p ++ b :: more := by
  induction cs with
  | nil => simp only [List.nil_append, List.dropWhile_cons, h, List.dropWhile_nil]; rfl
  | cons c cs ih =>
    simp only [List.cons_append, List.dropWhile_cons, ih]
    split <;> rfl

theorem suffix_of_length_lt {c : Char} {rest after : List Char} (h : after <:+ c :: rest)
    (hlt : after.length < (c :: rest).length) : after <:+ rest := by
  rcases List.suffix_cons_iff.mp h with rfl | h
  · exact absurd hlt (Nat.lt_irrefl _)
  · exact h

namespace Literal

/-! ## Escapes -/

theorem hexDigit?_separator (hb : isSeparator b = true) : hexDigit? b = none := by
  apply forall_separator _ _ _ _ _ _ hb <;> rfl

theorem hexRun_separator (hb : isSeparator b = true) (limit : Nat) (cs more : List Char) :
    hexRun limit (cs ++ b :: more) =
      ((hexRun limit cs).1, (hexRun limit cs).2 ++ b :: more) := by
  have hnone := hexDigit?_separator hb
  fun_induction hexRun limit cs with
  | case1 => rfl
  | case2 => simp only [List.nil_append, hexRun, hnone]
  | case3 limit c rest d hd ds after heq ih => simp only [List.cons_append, hexRun, hd, ih, heq]
  | case4 limit c rest hd => simp only [List.cons_append, hexRun, hd]

theorem hexRun_suffix (limit : Nat) (cs : List Char) : (hexRun limit cs).2 <:+ cs := by
  fun_induction hexRun limit cs with
  | case1 => exact List.suffix_refl _
  | case2 => exact List.suffix_refl _
  | case3 limit c rest d hd ds after heq ih =>
    rw [heq] at ih
    exact ih.trans (List.suffix_cons c rest)
  | case4 => exact List.suffix_refl _

/-- More digits than a text has characters are never read. -/
theorem hexRun_of_length_le {limit : Nat} {cs : List Char} (h : cs.length ≤ limit) :
    hexRun limit cs = hexRun cs.length cs := by
  induction cs generalizing limit with
  | nil => cases limit <;> rfl
  | cons c rest ih =>
    obtain ⟨limit, rfl⟩ : ∃ k, limit = k + 1 := Nat.exists_eq_succ_of_ne_zero (by
      rw [List.length_cons] at h
      omega)
    have hrest : rest.length ≤ limit := Nat.le_of_succ_le_succ h
    simp only [List.length_cons, hexRun, ih hrest]

theorem codePoint_eq_ok {start : List Char} {letter : Char} {digits : List Nat}
    {after : List Char} {r : Char × List Char} (h : codePoint start letter digits after = .ok r) :
    r.2 = after ∧
      ∀ start' after', codePoint start' letter digits after' = .ok (r.1, after') := by
  unfold codePoint at h ⊢
  cases hempty : digits.isEmpty with
  | true => rw [hempty] at h; cases h
  | false =>
    simp only [hempty, Bool.false_eq_true, if_false] at h ⊢
    split at h
    · next hvalid =>
      cases h
      exact ⟨rfl, fun _ _ => if_pos hvalid⟩
    · cases h

theorem longEscape_local {start : List Char} {letter : Char} {limit : Nat} {cs after : List Char}
    {a : Char} (h : longEscape start letter limit cs = .ok (a, after)) (start' : List Char) :
    Local (longEscape start' letter limit) cs a after := by
  have hplain : ∀ cs : List Char, (∀ inner, cs ≠ '\x7b' :: inner) → ∀ start : List Char,
      longEscape start letter limit cs =
        codePoint start letter (hexRun limit cs).1 (hexRun limit cs).2 := by
    intro cs hcs start
    unfold longEscape
    split
    · next inner => exact absurd rfl (hcs inner)
    · rfl
  by_cases hbrace : ∃ inner, cs = '\x7b' :: inner
  -- with braces the closing one ends the digits, without them the separator does
  · obtain ⟨inner, rfl⟩ := hbrace
    simp only [longEscape] at h
    split at h
    · next digits rest heq =>
      obtain ⟨rfl, hcode⟩ := codePoint_eq_ok h
      have hsuffix := hexRun_suffix limit inner
      rw [heq] at hsuffix
      refine ⟨(List.suffix_cons _ _).trans (hsuffix.trans (List.suffix_cons _ _)), fun b hb more => ?_⟩
      have hrun := hexRun_separator hb limit inner more
      rw [heq] at hrun
      simp only [List.cons_append, longEscape, hrun]
      exact hcode start' _
    · cases h
  · have hcs : ∀ inner, cs ≠ '\x7b' :: inner := fun inner heq => hbrace ⟨inner, heq⟩
    rw [hplain cs hcs] at h
    obtain ⟨rfl, hcode⟩ := codePoint_eq_ok h
    refine ⟨hexRun_suffix limit cs, fun b hb more => ?_⟩
    have hmore : ∀ inner, cs ++ b :: more ≠ '\x7b' :: inner := by
      intro inner heq
      cases cs with
      | nil => exact ne_of_isSeparator hb (by decide) (List.cons.inj heq).1
      | cons c cs => exact hcs cs (by rw [(List.cons.inj heq).1])
    rw [hplain _ hmore, hexRun_separator hb]
    exact hcode start' _

theorem escape_local {start cs after : List Char} {a : Char}
    (h : escape start cs = .ok (a, after)) (start' : List Char) :
    Local (escape start') cs a after := by
  cases cs with
  | nil => cases h
  | cons c rest =>
    simp only [escape] at h
    cases hletter : letterEscape? c with
    | some meant =>
      rw [hletter] at h
      cases h
      exact ⟨List.suffix_cons _ _, fun _ _ _ => by simp only [List.cons_append, escape, hletter]⟩
    | none =>
      simp only [hletter] at h
      split at h
      · next hx =>
        obtain ⟨rfl, hcode⟩ := codePoint_eq_ok h
        refine ⟨(hexRun_suffix 2 rest).trans (List.suffix_cons _ _), fun b hb more => ?_⟩
        simp only [List.cons_append, escape, hletter, if_pos hx, hexRun_separator hb]
        exact hcode start' _
      · next hx =>
        split at h
        · next hu =>
          have hlocal := longEscape_local h start'
          refine ⟨hlocal.suffix.trans (List.suffix_cons _ _), fun b hb more => ?_⟩
          simp only [List.cons_append, escape, hletter, if_neg hx, if_pos hu]
          exact hlocal.extend b hb more
        · next hu =>
          split at h
          · next hU =>
            have hlocal := longEscape_local h start'
            refine ⟨hlocal.suffix.trans (List.suffix_cons _ _), fun b hb more => ?_⟩
            simp only [List.cons_append, escape, hletter, if_neg hx, if_neg hu, if_pos hU]
            exact hlocal.extend b hb more
          · cases h

/-! ## Quoted and raw texts -/

theorem quotedRun_local {quote : Char} {unterminated : LexicalFault} {cs chars after : List Char}
    (h : quotedRun quote unterminated cs = .ok (chars, after))
    (unterminated' : LexicalFault) :
    Local (quotedRun quote unterminated') cs chars after := by
  fun_induction quotedRun quote unterminated cs generalizing chars after with
  | case1 => cases h
  | case2 rest =>
    cases h
    exact ⟨List.suffix_cons _ _, fun _ _ _ => quotedRun_quote _⟩
  | case3 => cases h
  | case4 rest meant next hquote hescape ih =>
    obtain ⟨⟨chars, after⟩, hq, heq⟩ := map_eq_ok h
    cases heq
    have hlocal := ih hq
    have hstep := escape_local hescape ('\\' :: rest)
    refine ⟨hlocal.suffix.trans (hstep.suffix.trans (List.suffix_cons _ _)), fun b hb more => ?_⟩
    obtain ⟨c, rest, rfl⟩ : ∃ c tail, rest = c :: tail := by
      cases rest with
      | nil => cases hescape
      | cons c tail => exact ⟨c, tail, rfl⟩
    -- an escape is read again with the longer text as the place of its fault
    have hescape' := (escape_local hescape ('\\' :: (c :: rest ++ b :: more))).extend b hb more
    rw [List.cons_append] at hescape'
    rw [List.cons_append, List.cons_append, quotedRun_escape hquote hescape', hlocal.extend b hb more]
    rfl
  | case5 c rest hquote hescape ih =>
    obtain ⟨⟨chars, after⟩, hq, heq⟩ := map_eq_ok h
    cases heq
    have hlocal := ih hq
    refine ⟨hlocal.suffix.trans (List.suffix_cons _ _), fun b hb more => ?_⟩
    rw [List.cons_append, quotedRun_plain hquote hescape, hlocal.extend b hb more]
    rfl

/-- A terminator that is found is found at the same place in a longer text. -/
theorem splitAt?_append {terminator cs chars after : List Char}
    (h : splitAt? terminator cs = some (chars, after)) (more : List Char) :
    terminator.length ≤ cs.length ∧ after <:+ cs ∧
      splitAt? terminator (cs ++ more) = some (chars, after ++ more) := by
  induction cs generalizing chars with
  | nil =>
    simp only [splitAt?] at h
    split at h
    · next hempty =>
      cases h
      obtain rfl := List.isEmpty_iff.mp hempty
      refine ⟨Nat.le_refl _, List.suffix_refl _, ?_⟩
      cases more <;> rfl
    · cases h
  | cons c rest ih =>
    simp only [splitAt?] at h
    split at h
    · next hfound =>
      cases h
      have hlength := (List.isPrefixOf_iff_prefix.mp hfound).length_le
      refine ⟨hlength, List.drop_suffix _ _, ?_⟩
      have hfound' : terminator.isPrefixOf (c :: (rest ++ more)) = true :=
        List.isPrefixOf_iff_prefix.mpr
          ((List.isPrefixOf_iff_prefix.mp hfound).trans ⟨more, rfl⟩)
      rw [List.cons_append, splitAt?, if_pos hfound', ← List.cons_append,
        List.drop_append_of_le_length hlength]
    · next hnot =>
      obtain ⟨⟨chars, after⟩, hq, heq⟩ := Option.map_eq_some_iff.mp h
      cases heq
      obtain ⟨hlength, hsuffix, hmore⟩ := ih hq
      refine ⟨Nat.le_succ_of_le hlength, hsuffix.trans (List.suffix_cons _ _), ?_⟩
      -- the terminator fits into the text, so that it does not reach what follows
      have hnot' : ¬ terminator.isPrefixOf (c :: (rest ++ more)) = true := by
        intro hfound
        have hprefix : terminator <+: (c :: rest) ++ more := List.isPrefixOf_iff_prefix.mp hfound
        exact hnot (List.isPrefixOf_iff_prefix.mpr
          (List.prefix_of_prefix_length_le hprefix ⟨more, rfl⟩ (Nat.le_succ_of_le hlength)))
      rw [List.cons_append, splitAt?, if_neg hnot', hmore]
      rfl

theorem rawText_local {start : List Char} {quote : Char} {cs chars after : List Char}
    (h : rawText start quote cs = .ok (chars, after)) (start' : List Char) :
    Local (rawText start' quote) cs chars after := by
  have hsuffix := List.dropWhile_suffix (l := cs) (· == '-')
  unfold rawText at h
  dsimp only at h
  split at h
  · cases h
  · next opener body hbody =>
    split at h
    · cases h
    · next closer hcloser =>
      split at h
      · next found hfound =>
        cases h
        rw [hbody] at hsuffix
        have hsplit := splitAt?_append hfound
        refine ⟨(hsplit []).2.1.trans ((List.suffix_cons _ _).trans hsuffix), fun b hb more => ?_⟩
        have hdash : (b == '-') = false := beq_eq_false_iff_ne.mpr (ne_of_isSeparator hb (by decide))
        have htake := takeWhile_stop (p := (· == '-')) hdash cs more
        have hdrop := dropWhile_stop (p := (· == '-')) hdash cs more
        unfold rawText
        simp only [htake, hdrop, hbody, List.cons_append, hcloser]
        rw [← List.cons_append, (hsplit (b :: more)).2.2]
      · cases h

end Literal

/-! ## Numbers -/

namespace Numeral

theorem isDigit_separator (hb : isSeparator b = true) : Text.isDigit b = false := by
  apply forall_separator _ _ _ _ _ _ hb <;> decide +kernel

theorem isNameChar_separator (hb : isSeparator b = true) : isNameChar b = false := by
  apply forall_separator _ _ _ _ _ _ hb <;> decide +kernel

theorem exponentRun_separator (hb : isSeparator b = true) (cs more : List Char) :
    exponentRun (cs ++ b :: more) = exponentRun cs := by
  rcases cs with _ | ⟨e, _ | ⟨sign, rest⟩⟩
  · cases more with
    | nil => rfl
    | cons c more =>
      rw [List.nil_append, exponentRun]
      exact if_neg (not_or.mpr ⟨ne_of_isSeparator hb (by decide), ne_of_isSeparator hb (by decide)⟩)
  · have hsign : ¬ ((b = '+' ∨ b = '-') ∧ more.head?.any Text.isDigit = true) := by
      rintro ⟨h | h, -⟩ <;> exact ne_of_isSeparator hb (by decide) h
    simp only [List.cons_append, List.nil_append, exponentRun, isDigit_separator hb, if_neg hsign]
    split <;> rfl
  · have hhead : (rest ++ b :: more).head?.any Text.isDigit = rest.head?.any Text.isDigit := by
      cases rest with
      | nil => exact isDigit_separator hb
      | cons c rest => rfl
    simp only [List.cons_append, exponentRun, takeWhile_stop (isDigit_separator hb), hhead]

theorem exponentRun_prefix (cs : List Char) : exponentRun cs <+: cs := by
  unfold exponentRun
  split
  · next e sign rest =>
    have htaken : e :: sign :: rest.takeWhile Text.isDigit <+: e :: sign :: rest :=
      List.cons_prefix_cons.mpr ⟨rfl, List.cons_prefix_cons.mpr ⟨rfl, List.takeWhile_prefix _⟩⟩
    split
    · split
      · exact htaken
      · split
        · exact htaken
        · exact List.nil_prefix
    · exact List.nil_prefix
  · exact List.nil_prefix

/-- The digits of a number, with its point. -/
def mantissaRun (cs : List Char) : List Char :=
  match cs.dropWhile Text.isDigit with
  | '.' :: rest => cs.takeWhile Text.isDigit ++ '.' :: rest.takeWhile Text.isDigit
  | _ => cs.takeWhile Text.isDigit

theorem decimalRun_eq (cs : List Char) :
    decimalRun cs = mantissaRun cs ++ exponentRun (cs.drop (mantissaRun cs).length) := by
  have hdrop : cs.drop (cs.takeWhile Text.isDigit).length = cs.dropWhile Text.isDigit := by
    have hsplit := List.takeWhile_append_dropWhile (p := Text.isDigit) (l := cs)
    exact (congrArg (List.drop (cs.takeWhile Text.isDigit).length) hsplit).symm.trans List.drop_left
  have hmantissa : mantissaRun cs = match cs.drop (cs.takeWhile Text.isDigit).length with
      | '.' :: rest => cs.takeWhile Text.isDigit ++ '.' :: rest.takeWhile Text.isDigit
      | _ => cs.takeWhile Text.isDigit := hdrop ▸ rfl
  rw [hmantissa]
  rfl

theorem isPrefix_mantissaRun (cs : List Char) : mantissaRun cs <+: cs := by
  have hsplit := List.takeWhile_append_dropWhile (p := Text.isDigit) (l := cs)
  unfold mantissaRun
  split
  · next rest heq =>
    obtain ⟨after, hafter⟩ := List.takeWhile_prefix (l := rest) Text.isDigit
    refine ⟨after, ?_⟩
    rw [List.append_assoc, List.cons_append, hafter, ← heq, hsplit]
  · exact List.takeWhile_prefix _

theorem mantissaRun_separator (hb : isSeparator b = true) (cs more : List Char) :
    mantissaRun (cs ++ b :: more) = mantissaRun cs := by
  unfold mantissaRun
  rw [takeWhile_stop (isDigit_separator hb), dropWhile_stop (isDigit_separator hb)]
  cases cs.dropWhile Text.isDigit with
  | nil =>
    rw [List.nil_append]
    split
    · next heq => exact absurd (List.cons.inj heq).1 (ne_of_isSeparator hb (by decide))
    · rfl
  | cons c rest =>
    by_cases hpoint : c = '.'
    · subst hpoint
      simp only [List.cons_append, takeWhile_stop (isDigit_separator hb)]
    · simp only [List.cons_append]
      split
      · next heq => exact absurd (List.cons.inj heq).1 hpoint
      · split
        · next heq => exact absurd (List.cons.inj heq).1 hpoint
        · rfl

/-- A decimal number is taken from the front of its text. -/
theorem isPrefix_decimalRun (cs : List Char) : decimalRun cs <+: cs := by
  rw [decimalRun_eq]
  obtain ⟨after, hafter⟩ := isPrefix_mantissaRun cs
  have hdrop : cs.drop (mantissaRun cs).length = after :=
    (congrArg (List.drop (mantissaRun cs).length) hafter).symm.trans List.drop_left
  obtain ⟨rest, hrest⟩ := exponentRun_prefix after
  refine ⟨rest, ?_⟩
  rw [hdrop, List.append_assoc, hrest, hafter]

theorem decimalRun_separator (hb : isSeparator b = true) (cs more : List Char) :
    decimalRun (cs ++ b :: more) = decimalRun cs := by
  have hlength := (isPrefix_mantissaRun cs).length_le
  rw [decimalRun_eq, decimalRun_eq, mantissaRun_separator hb, List.drop_append_of_le_length hlength,
    exponentRun_separator hb]

theorem decimal_local {cs after : List Char} {value : Float}
    (h : unsuffixed.decimal cs = .ok (value, after)) :
    Local unsuffixed.decimal cs value after := by
  have hlength := (isPrefix_decimalRun cs).length_le
  unfold unsuffixed.decimal at h
  dsimp only at h
  split at h
  · next value hvalue =>
    cases h
    refine ⟨List.drop_suffix _ _, fun b hb more => ?_⟩
    unfold unsuffixed.decimal
    simp only [decimalRun_separator hb, hvalue, List.drop_append_of_le_length hlength]
  · cases h

theorem hexadecimal_eq_ok {start : List Char} {digits : List Nat} {value : Float}
    (h : hexadecimal start digits = .ok value) (start' : List Char) :
    hexadecimal start' digits = .ok value := by
  unfold hexadecimal at h ⊢
  split at h
  · cases h
  · next hempty =>
    rw [if_neg hempty]
    split at h
    · next x hx =>
      cases h
      rfl
    · cases h

/-- A number without a mark of hexadecimal digits is a decimal one. -/
theorem unsuffixed_of_decimal {cs : List Char}
    (h : ∀ x rest, cs = '0' :: x :: rest → ¬ (x = 'x' ∨ x = 'X')) :
    unsuffixed cs = unsuffixed.decimal cs := by
  unfold unsuffixed
  split
  · next x rest => exact if_neg (h x rest rfl)
  · rfl

theorem unsuffixed_local {cs after : List Char} {value : Float}
    (h : unsuffixed cs = .ok (value, after)) : Local unsuffixed cs value after := by
  -- a number with a mark of hexadecimal digits
  by_cases hhex : ∃ x rest, cs = '0' :: x :: rest ∧ (x = 'x' ∨ x = 'X')
  · obtain ⟨x, rest, rfl, hx⟩ := hhex
    simp only [unsuffixed, if_pos hx] at h
    obtain ⟨value, hvalue, heq⟩ := Literal.map_eq_ok h
    cases heq
    have hsuffix := Literal.hexRun_suffix rest.length rest
    refine ⟨hsuffix.trans ((List.suffix_cons _ _).trans (List.suffix_cons _ _)), fun b hb more => ?_⟩
    have hrun : Literal.hexRun (rest ++ b :: more).length (rest ++ b :: more) =
        ((Literal.hexRun rest.length rest).1,
          (Literal.hexRun rest.length rest).2 ++ b :: more) := by
      rw [Literal.hexRun_separator hb, Literal.hexRun_of_length_le (by simp)]
    simp only [List.cons_append, unsuffixed, if_pos hx, hrun, hexadecimal_eq_ok hvalue]
    rfl
  · have hcs : ∀ x rest, cs = '0' :: x :: rest → ¬ (x = 'x' ∨ x = 'X') :=
      fun x rest heq hx => hhex ⟨x, rest, heq, hx⟩
    rw [unsuffixed_of_decimal hcs] at h
    -- the separator is no mark of hexadecimal digits either
    refine (decimal_local h).congr fun b hb more => unsuffixed_of_decimal fun x rest heq => ?_
    rcases cs with _ | ⟨c, _ | ⟨d, cs⟩⟩
    · exact absurd (List.cons.inj heq).1 (ne_of_isSeparator hb (by decide))
    · obtain ⟨-, hrest⟩ := List.cons.inj heq
      obtain ⟨rfl, -⟩ := List.cons.inj hrest
      exact not_or.mpr ⟨ne_of_isSeparator hb (by decide), ne_of_isSeparator hb (by decide)⟩
    · obtain ⟨rfl, hrest⟩ := List.cons.inj heq
      obtain ⟨rfl, -⟩ := List.cons.inj hrest
      exact hcs d cs rfl

theorem suffixed_plain {c : Char} (hlong : c ≠ 'L') (hcomplex : c ≠ 'i') (start : List Char)
    (value : Float) (rest : List Char) :
    suffixed start value (c :: rest) = .ok (.double value, c :: rest) := by
  unfold suffixed
  split
  · next heq => exact absurd (List.cons.inj heq).1 hlong
  · next heq => exact absurd (List.cons.inj heq).1 hcomplex
  · rfl

theorem suffixed_local {start cs after : List Char} {value : Float} {l : Lexeme}
    (h : suffixed start value cs = .ok (l, after)) (start' : List Char) :
    Local (suffixed start' value) cs l after := by
  rcases cs with _ | ⟨c, rest⟩
  · cases h
    exact ⟨List.suffix_refl _, fun b hb more =>
      suffixed_plain (ne_of_isSeparator hb (by decide)) (ne_of_isSeparator hb (by decide)) start'
        value more⟩
  · by_cases hlong : c = 'L'
    · subst hlong
      simp only [suffixed] at h
      split at h
      · next n hn =>
        cases h
        exact ⟨List.suffix_cons _ _, fun _ _ _ => by simp only [List.cons_append, suffixed, hn]⟩
      · next hn =>
        cases h
        exact ⟨List.suffix_cons _ _, fun _ _ _ => by simp only [List.cons_append, suffixed, hn]⟩
    · by_cases hcomplex : c = 'i'
      · subst hcomplex
        cases h
      · rw [suffixed_plain hlong hcomplex] at h
        cases h
        exact ⟨List.suffix_refl _, fun b hb more => suffixed_plain hlong hcomplex start' value _⟩

theorem read_local {cs after : List Char} {l : Lexeme} (h : read cs = .ok (l, after)) :
    Local read cs l after := by
  unfold read at h
  split at h
  · cases h
  · next value rest hvalue =>
    split at h
    · cases h
    · next lexeme after' hlexeme =>
      split at h
      · cases h
      · next hends =>
        cases h
        have hnumber := unsuffixed_local hvalue
        refine ⟨(suffixed_local hlexeme cs).suffix.trans hnumber.suffix, fun b hb more => ?_⟩
        have hends' : (after ++ b :: more).head?.filter isNameChar = none := by
          cases after with
          | nil => simp [Option.filter, isNameChar_separator hb]
          | cons c after => exact hends
        unfold read
        simp only [hnumber.extend b hb more, (suffixed_local hlexeme _).extend b hb more, hends']

end Numeral

/-! ## Words and operators -/

open Numeral (isNameChar isNameChar_separator isDigit_separator)

theorem startsName_separator (hb : isSeparator b = true) (c : Char) (rest more : List Char) :
    startsName c (rest ++ b :: more) = startsName c rest := by
  unfold startsName
  split
  · cases rest with
    | nil => simp only [List.nil_append, isDigit_separator hb]; rfl
    | cons d rest => rfl
  · rfl

theorem specialRun?_extend {cs chars after : List Char}
    (h : specialRun? cs = some (chars, after)) (more : List Char) :
    after <:+ cs ∧ specialRun? (cs ++ more) = some (chars, after ++ more) := by
  induction cs generalizing chars with
  | nil => cases h
  | cons c rest ih =>
    simp only [specialRun?] at h
    split at h
    · next hpercent =>
      cases h
      exact ⟨List.suffix_cons _ _, by rw [List.cons_append, specialRun?, if_pos hpercent]⟩
    · next hpercent =>
      split at h
      · cases h
      · next hbreak =>
        obtain ⟨⟨chars, after⟩, hq, heq⟩ := Option.map_eq_some_iff.mp h
        cases heq
        obtain ⟨hsuffix, hmore⟩ := ih hq
        refine ⟨hsuffix.trans (List.suffix_cons _ _), ?_⟩
        rw [List.cons_append, specialRun?, if_neg hpercent, if_neg hbreak, hmore]
        rfl

namespace Operator

/-- No operator holds a separator. -/
theorem ofSpelling?_of_separator (hb : isSeparator b = true) {cs : List Char} (h : b ∈ cs) :
    ofSpelling? (String.ofList cs) = none := by
  have table : ∀ s ∈ spellings, b ∉ s.toList := by
    apply forall_separator _ _ _ _ _ _ hb <;> decide
  cases hs : ofSpelling? (String.ofList cs) with
  | none => rfl
  | some name =>
    refine absurd ?_ (table _ (mem_spellings hs))
    rw [String.toList_ofList]
    exact h

theorem longest?_suffix {cs : List Char} {r : String × List Char} (h : longest? cs = some r) :
    r.2 <:+ cs := by
  obtain ⟨length, hmem, hfound⟩ := List.exists_of_findSome?_eq_some h
  split at hfound
  · cases hfound
  · obtain ⟨name, _, rfl⟩ := Option.map_eq_some_iff.mp hfound
    exact List.drop_suffix _ _

/-- An operator does not depend on what follows it. -/
theorem ofLength?_append {cs : List Char} {length : Nat} (h : length ≤ cs.length)
    (more : List Char) :
    ofLength? (cs ++ more) length =
      (ofLength? cs length).map fun (name, after) => (name, after ++ more) := by
  have hnot : ¬ (cs ++ more).length < length := by
    rw [List.length_append]
    omega
  rw [ofLength?, ofLength?, if_neg hnot, if_neg (Nat.not_lt.mpr h),
    List.take_append_of_le_length h, List.drop_append_of_le_length h, Option.map_map]
  rfl

theorem longest?_separator (hb : isSeparator b = true) (cs more : List Char) :
    longest? (cs ++ b :: more) =
      (longest? cs).map fun (name, after) => (name, after ++ b :: more) := by
  -- an operator of a length is found in both texts, or it would have to hold the separator
  have hlength : ∀ length, ofLength? (cs ++ b :: more) length =
      (ofLength? cs length).map fun (name, after) => (name, after ++ b :: more) := by
    intro length
    by_cases hlt : cs.length < length
    · rw [ofLength?, ofLength?, if_pos hlt]
      split
      · rfl
      · have hmem : b ∈ (cs ++ b :: more).take length := by
          obtain ⟨k, rfl⟩ := Nat.exists_eq_add_of_lt hlt
          rw [Nat.add_assoc, List.take_length_add_append, List.take_succ_cons]
          exact List.mem_append_right _ List.mem_cons_self
        rw [ofSpelling?_of_separator hb hmem]
        rfl
    · exact ofLength?_append (Nat.le_of_not_lt hlt) _
  rw [longest?_eq, longest?_eq, List.map_findSome?]
  exact congrArg (fun found? => List.findSome? found? [3, 2, 1]) (funext hlength)

end Operator

theorem readWord_local {c : Char} {rest after : List Char} {l : Lexeme}
    (h : readWord c rest = .ok (l, after)) : Local (readWord c) rest l after := by
  unfold readWord at h
  dsimp only at h
  split at h
  · next hstarts =>
    cases h
    refine ⟨List.dropWhile_suffix _, fun b hb more => ?_⟩
    unfold readWord
    simp only [startsName_separator hb, hstarts, if_true, takeWhile_stop (isNameChar_separator hb),
      dropWhile_stop (isNameChar_separator hb)]
  · next hstarts =>
    split at h
    · next hfunction =>
      cases h
      refine ⟨List.suffix_refl _, fun b hb more => ?_⟩
      unfold readWord
      simp only [startsName_separator hb, if_neg hstarts, if_pos hfunction]
    · next hfunction =>
      split at h
      · next hpercent =>
        split at h
        · next chars after' hrun =>
          cases h
          refine ⟨(specialRun?_extend hrun []).1, fun b hb more => ?_⟩
          unfold readWord
          simp only [startsName_separator hb, if_neg hstarts, if_neg hfunction, if_pos hpercent,
            (specialRun?_extend hrun (b :: more)).2]
        · cases h
      · next hpercent =>
        split at h
        · next name after' hop =>
          cases h
          refine ⟨suffix_of_length_lt (Operator.longest?_suffix hop) (Operator.longest?_length hop),
            fun b hb more => ?_⟩
          have hop' := Operator.longest?_separator hb (c :: rest) more
          rw [hop] at hop'
          unfold readWord
          simp only [startsName_separator hb, if_neg hstarts, if_neg hfunction, if_neg hpercent,
            ← List.cons_append, hop', Option.map_some]
        · cases h

/-! ## Lexemes -/

/-- What a lexeme that starts with a digit or a point is read as, if it is a number. -/
theorem number_local {c : Char} {rest after : List Char} {l : Lexeme}
    (h : Numeral.read (c :: rest) = .ok (l, after)) :
    Local (fun rest => Numeral.read (c :: rest)) rest l after := by
  have hlocal := Numeral.read_local h
  exact ⟨suffix_of_length_lt hlocal.suffix (Numeral.read_length h), hlocal.extend⟩

/-- How a lexeme is read that starts with no bracket, separator or quote. -/
def readPlain (c : Char) : List Char → Except LexicalFault (Lexeme × List Char)
  | next :: body =>
    if (c = 'r' ∨ c = 'R') ∧ (next = '"' ∨ next = '\'') then
      (Literal.rawText (c :: next :: body) next body).map fun (chars, after) =>
        (.text (String.ofList chars), after)
    else if Text.isDigit c || (c == '.' && Text.isDigit next) then Numeral.read (c :: next :: body)
    else readWord c (next :: body)
  | [] => if Text.isDigit c then Numeral.read [c] else readWord c []

theorem readLexeme_eq_plain {c : Char} (hdelimiter : delimiter? c = none) (hbracket : c ≠ '[')
    (hquote : ¬ (c = '"' ∨ c = '\'')) (hbacktick : c ≠ '`') (rest : List Char) :
    readLexeme c rest = readPlain c rest := by
  unfold readLexeme
  simp only [hdelimiter, if_neg hbracket, if_neg hquote, if_neg hbacktick]
  cases rest <;> rfl

theorem readPlain_separator (hb : isSeparator b = true) (c : Char) (more : List Char) :
    readPlain c (b :: more) =
      if Text.isDigit c then Numeral.read (c :: b :: more) else readWord c (b :: more) := by
  have hraw : ¬ ((c = 'r' ∨ c = 'R') ∧ (b = '"' ∨ b = '\'')) := by
    rintro ⟨-, h | h⟩ <;> exact ne_of_isSeparator hb (by decide) h
  rw [readPlain, if_neg hraw, isDigit_separator hb, Bool.and_false, Bool.or_false]

theorem readPlain_local {c : Char} {rest after : List Char} {l : Lexeme}
    (h : readPlain c rest = .ok (l, after)) : Local (readPlain c) rest l after := by
  cases rest with
  | nil =>
    rw [readPlain] at h
    split at h
    · next hdigit =>
      exact (number_local h).congr fun b hb more =>
        (readPlain_separator hb c more).trans (if_pos hdigit)
    · next hdigit =>
      exact (readWord_local h).congr fun b hb more =>
        (readPlain_separator hb c more).trans (if_neg hdigit)
  | cons next body =>
    rw [readPlain] at h
    split at h
    · next hraw =>
      obtain ⟨⟨chars, after⟩, hq, heq⟩ := Literal.map_eq_ok h
      cases heq
      have hlocal := Literal.rawText_local hq
      refine ⟨(hlocal []).suffix.trans (List.suffix_cons _ _), fun b hb more => ?_⟩
      rw [List.cons_append, readPlain, if_pos hraw, (hlocal _).extend b hb more]
      rfl
    · next hraw =>
      split at h
      · next hdigit =>
        refine (number_local h).congr fun b hb more => ?_
        rw [List.cons_append, readPlain, if_neg hraw, if_pos hdigit]
      · next hdigit =>
        refine (readWord_local h).congr fun b hb more => ?_
        rw [List.cons_append, readPlain, if_neg hraw, if_neg hdigit]

/-- An opening bracket that no second one follows. -/
theorem readLexeme_bracket {rest : List Char} (h : ∀ tail, rest ≠ '[' :: tail) :
    readLexeme '[' rest = .ok (.leftBracket, rest) := by
  rcases rest with _ | ⟨d, tail⟩
  · rfl
  · unfold readLexeme
    split
    · next hdelimiter => cases hdelimiter
    · rw [if_pos rfl]
      split
      · next heq => exact absurd heq (h _)
      · rfl

theorem readBracket_local {rest after : List Char} {l : Lexeme}
    (h : readLexeme '[' rest = .ok (l, after)) : Local (readLexeme '[') rest l after := by
  by_cases hdouble : ∃ tail, rest = '[' :: tail
  · obtain ⟨tail, rfl⟩ := hdouble
    cases h
    exact ⟨List.suffix_cons _ _, fun _ _ _ => rfl⟩
  · rw [readLexeme_bracket fun tail heq => hdouble ⟨tail, heq⟩] at h
    cases h
    refine ⟨List.suffix_refl _, fun b hb more => readLexeme_bracket fun tail heq => ?_⟩
    cases rest with
    | nil => exact ne_of_isSeparator hb (by decide) (List.cons.inj heq).1
    | cons d rest => exact hdouble ⟨rest, by rw [(List.cons.inj heq).1]⟩

/-- A lexeme is read up to its end: a separator after it, and what follows that, is left over. -/
theorem readLexeme_local {c : Char} {rest after : List Char} {l : Lexeme}
    (h : readLexeme c rest = .ok (l, after)) : Local (readLexeme c) rest l after := by
  cases hdelimiter : delimiter? c with
  | some delimiter =>
    have hread : ∀ rest, readLexeme c rest = .ok (delimiter, rest) := fun rest => by
      simp only [readLexeme, hdelimiter]
    rw [hread] at h
    cases h
    exact ⟨List.suffix_refl _, fun _ _ _ => hread _⟩
  | none =>
    by_cases hbracket : c = '['
    · subst hbracket
      exact readBracket_local h
    by_cases hquote : c = '"' ∨ c = '\''
    · have hread : ∀ rest, readLexeme c rest =
          (Literal.quotedRun c ⟨.unterminatedText, c :: rest⟩ rest).map fun (chars, after) =>
            (.text (String.ofList chars), after) := fun rest => by
        simp only [readLexeme, hdelimiter, if_neg hbracket, if_pos hquote]
      rw [hread] at h
      obtain ⟨⟨chars, after⟩, hq, heq⟩ := Literal.map_eq_ok h
      cases heq
      -- the fault of an unterminated text, which holds the text, is not reached
      have hlocal := Literal.quotedRun_local hq
      refine ⟨(hlocal ⟨.unterminatedText, []⟩).suffix, fun b hb more => ?_⟩
      rw [hread, (hlocal _).extend b hb more]
      rfl
    by_cases hbacktick : c = '`'
    · unfold readLexeme at h
      simp only [hdelimiter, if_neg hbracket, if_neg hquote, if_pos hbacktick] at h
      split at h
      · cases h
      · cases h
      · next chars after' hne hq =>
        cases h
        have hlocal := Literal.quotedRun_local hq
        refine ⟨(hlocal ⟨.unterminatedName, []⟩).suffix, fun b hb more => ?_⟩
        unfold readLexeme
        simp only [hdelimiter, if_neg hbracket, if_neg hquote, if_pos hbacktick,
          (hlocal _).extend b hb more]
    · have hread := readLexeme_eq_plain hdelimiter hbracket hquote hbacktick
      rw [hread] at h
      exact (readPlain_local h).congr fun _ _ _ => hread _

end RCode
