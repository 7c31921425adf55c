import RCode.Proofs.Token.Locality

/-!
# Lexemes do not need what follows them

A text that goes on behind a lexeme can be cut off anywhere behind it: the same lexeme is read from
what remains (`readLexeme_cut`). In particular the characters of a lexeme are read as this lexeme when
they stand alone. Each reader has its lemma, which takes the end `ds` of the text away.
-/

set_option autoImplicit false

namespace RCode

/-- An end of a text that is longer than what was left over cannot have been left over. -/
theorem not_append_suffix {after ds : List Char} {c : Char} (h : after ++ c :: ds <:+ ds) : False := by
  have := h.length_le
  simp only [List.length_append, List.length_cons] at this
  omega

theorem takeWhile_cut {p : Char → Bool} {cs ds : List Char}
    (h : ((cs ++ ds).takeWhile p).length ≤ cs.length) :
    (cs ++ ds).takeWhile p = cs.takeWhile p ∧ (cs ++ ds).dropWhile p = cs.dropWhile p ++ ds := by
  induction cs with
  | nil =>
    have htake := List.length_eq_zero_iff.mp (Nat.le_zero.mp h)
    have hsplit := List.takeWhile_append_dropWhile (p := p) (l := [] ++ ds)
    rw [htake, List.nil_append] at hsplit
    exact ⟨htake, hsplit⟩
  | cons c cs ih =>
    rw [List.cons_append, List.takeWhile_cons] at h
    rw [List.cons_append, List.takeWhile_cons, List.takeWhile_cons, List.dropWhile_cons,
      List.dropWhile_cons]
    split at h
    · next hc =>
      obtain ⟨htake, hdrop⟩ := ih (Nat.le_of_succ_le_succ h)
      rw [if_pos hc, if_pos hc, if_pos hc, if_pos hc, htake]
      exact ⟨rfl, hdrop⟩
    · next hc =>
      rw [if_neg hc, if_neg hc, if_neg hc, if_neg hc]
      exact ⟨rfl, rfl⟩

theorem dropWhile_cut {p : Char → Bool} {cs ds after : List Char}
    (h : (cs ++ ds).dropWhile p = after ++ ds) :
    (cs ++ ds).takeWhile p = cs.takeWhile p ∧ cs.dropWhile p = after := by
  have hlength := congrArg List.length (List.takeWhile_append_dropWhile (p := p) (l := cs ++ ds))
  rw [h, List.length_append, List.length_append, List.length_append] at hlength
  obtain ⟨htake, hdrop⟩ := takeWhile_cut (by omega : ((cs ++ ds).takeWhile p).length ≤ cs.length)
  exact ⟨htake, List.append_cancel_right (hdrop.symm.trans h)⟩

namespace Literal

theorem hexRun_cut {limit : Nat} {cs ds after : List Char} {digits : List Nat}
    (h : hexRun limit (cs ++ ds) = (digits, after ++ ds)) : hexRun limit cs = (digits, after) := by
  induction cs generalizing limit digits with
  | nil =>
    -- the digits would have to be taken from `ds`
    have hsuffix := hexRun_suffix limit ds
    rw [List.nil_append] at h
    cases limit with
    | zero =>
      obtain ⟨rfl, hds⟩ := Prod.mk.inj h
      obtain rfl := List.self_eq_append_left.mp hds
      rfl
    | succ limit =>
      cases ds with
      | nil =>
        rw [List.append_nil] at h
        exact h
      | cons d ds =>
        rw [hexRun] at h
        split at h
        · obtain ⟨-, hds⟩ := Prod.mk.inj h
          exact (not_append_suffix (hds ▸ hexRun_suffix limit ds)).elim
        · obtain ⟨rfl, hds⟩ := Prod.mk.inj h
          obtain rfl := List.self_eq_append_left.mp hds
          rfl
  | cons c rest ih =>
    cases limit with
    | zero =>
      obtain ⟨rfl, hds⟩ := Prod.mk.inj h
      rw [hexRun, List.append_cancel_right hds]
    | succ limit =>
      rw [List.cons_append, hexRun] at h
      rw [hexRun]
      split at h
      · obtain ⟨rfl, hds⟩ := Prod.mk.inj h
        rw [ih (Prod.ext rfl hds)]
      · obtain ⟨rfl, hds⟩ := Prod.mk.inj h
        rw [← List.cons_append] at hds
        rw [List.append_cancel_right hds]

/-! ## Escapes and quoted texts -/

theorem longEscape_cut {start cs ds after : List Char} {letter a : Char} {limit : Nat}
    (h : longEscape start letter limit (cs ++ ds) = .ok (a, after ++ ds)) (start' : List Char) :
    longEscape start' letter limit cs = .ok (a, after) := by
  have hplain : ∀ cs : List Char, (∀ inner, cs ≠ '\x7b' :: inner) → ∀ start : List Char,
      longEscape start letter limit cs =
        codePoint start letter (hexRun limit cs).1 (hexRun limit cs).2 := by
    intro cs hcs start
    unfold longEscape
    split
    · next inner => exact absurd rfl (hcs inner)
    · rfl
  by_cases hbrace : ∃ inner, cs ++ ds = '\x7b' :: inner
  · obtain ⟨inner, hinner⟩ := hbrace
    have hread := h
    rw [hinner, longEscape] at hread
    split at hread
    · next digits rest heq =>
      obtain ⟨hafter, hcode⟩ := codePoint_eq_ok hread
      obtain rfl : after ++ ds = rest := hafter
      cases cs with
      | nil =>
        rw [List.nil_append] at hinner
        have hsuffix := hexRun_suffix limit inner
        rw [heq, hinner] at hsuffix
        exact (not_append_suffix ((List.suffix_cons _ _).trans hsuffix)).elim
      | cons c cs =>
        obtain ⟨rfl, rfl⟩ := List.cons.inj hinner
        rw [← List.cons_append] at heq
        rw [longEscape, hexRun_cut heq]
        exact hcode start' after
    · cases hread
  · have hcs : ∀ inner, cs ++ ds ≠ '\x7b' :: inner := fun inner heq => hbrace ⟨inner, heq⟩
    rw [hplain _ hcs] at h
    obtain ⟨hafter, hcode⟩ := codePoint_eq_ok h
    have hrun := hexRun_cut (Prod.ext rfl hafter.symm)
    rw [hplain cs, hrun]
    · exact hcode start' after
    · rintro inner rfl
      exact hcs _ rfl

theorem escape_cut {start cs ds after : List Char} {a : Char}
    (h : escape start (cs ++ ds) = .ok (a, after ++ ds)) (start' : List Char) :
    escape start' cs = .ok (a, after) := by
  cases cs with
  | nil =>
    have := escape_length h
    simp only [List.nil_append, List.length_append] at this
    omega
  | cons c rest =>
    rw [List.cons_append, escape] at h
    rw [escape]
    cases hletter : letterEscape? c with
    | some meant =>
      rw [hletter] at h
      obtain ⟨rfl, hafter⟩ := Prod.mk.inj (Except.ok.inj h)
      rw [List.append_cancel_right hafter]
    | none =>
      simp only [hletter] at h ⊢
      split at h
      · next hx =>
        obtain ⟨hafter, hcode⟩ := codePoint_eq_ok h
        rw [if_pos hx, hexRun_cut (Prod.ext rfl hafter.symm)]
        exact hcode start' after
      · next hx =>
        rw [if_neg hx]
        split at h
        · next hu => rw [if_pos hu]; exact longEscape_cut h start'
        · next hu =>
          rw [if_neg hu]
          split at h
          · next hU => rw [if_pos hU]; exact longEscape_cut h start'
          · cases h

/-- A closing quote ends a quoted text: nothing behind it is seen. -/
theorem quotedRun_cut {quote : Char} {unterminated : LexicalFault} {cs ds chars after : List Char}
    (h : quotedRun quote unterminated (cs ++ ds) = .ok (chars, after ++ ds))
    (unterminated' : LexicalFault) :
    quotedRun quote unterminated' cs = .ok (chars, after) := by
  generalize htext : cs ++ ds = text at h
  fun_induction quotedRun quote unterminated text generalizing cs chars with
  | case1 => cases h
  | case2 rest =>
    obtain ⟨rfl, rfl⟩ := Prod.mk.inj (Except.ok.inj h)
    cases cs with
    | nil =>
      have := congrArg List.length htext
      simp only [List.nil_append, List.length_cons, List.length_append] at this
      omega
    | cons c cs =>
      obtain ⟨rfl, hcs⟩ := List.cons.inj htext
      rw [List.append_cancel_right hcs]
      exact quotedRun_quote after
  | case3 => cases h
  | case4 rest meant next hquote hescape ih =>
    obtain ⟨⟨chars, left⟩, hq, heq⟩ := map_eq_ok h
    obtain ⟨rfl, rfl⟩ := Prod.mk.inj heq
    -- the escape leaves at least what the rest of the quoted text leaves
    obtain ⟨before, hnext⟩ := (quotedRun_local hq unterminated).suffix
    rw [← List.append_assoc] at hnext
    subst hnext
    have hsuffix := (escape_local hescape []).suffix
    cases cs with
    | nil =>
      subst htext
      have hlonger : (before ++ after) ++ '\\' :: rest <:+ rest := hsuffix
      exact (not_append_suffix hlonger).elim
    | cons c cs =>
      obtain ⟨rfl, rfl⟩ := List.cons.inj htext
      have hescape' := escape_cut hescape ('\\' :: cs)
      obtain ⟨c, cs, rfl⟩ : ∃ c tail, cs = c :: tail := by
        cases cs with
        | nil => cases hescape'
        | cons c tail => exact ⟨c, tail, rfl⟩
      rw [quotedRun_escape hquote hescape', ih rfl hq]
      rfl
  | case5 c rest hquote hescape ih =>
    obtain ⟨⟨chars, left⟩, hq, heq⟩ := map_eq_ok h
    obtain ⟨rfl, rfl⟩ := Prod.mk.inj heq
    cases cs with
    | nil =>
      subst htext
      exact (not_append_suffix (quotedRun_local hq unterminated).suffix).elim
    | cons d cs =>
      obtain ⟨rfl, rfl⟩ := List.cons.inj htext
      rw [quotedRun_plain hquote hescape, ih rfl hq]
      rfl

/-! ## Raw texts -/

theorem splitAt?_cut {terminator cs ds chars after : List Char}
    (h : splitAt? terminator (cs ++ ds) = some (chars, after ++ ds)) :
    splitAt? terminator cs = some (chars, after) := by
  induction cs generalizing chars with
  | nil =>
    cases ds with
    | nil => rwa [List.append_nil, List.append_nil] at h
    | cons d ds =>
      rw [List.nil_append, splitAt?] at h
      split at h
      · -- only an empty terminator takes nothing
        obtain ⟨rfl, hafter⟩ := Prod.mk.inj (Option.some.inj h)
        have hlength := congrArg List.length hafter
        simp only [List.length_drop, List.length_append, List.length_cons] at hlength
        obtain rfl : terminator = [] := List.length_eq_zero_iff.mp (by omega)
        obtain rfl : after = [] := List.length_eq_zero_iff.mp (by omega)
        rfl
      · obtain ⟨⟨q, left⟩, hq, heq⟩ := Option.map_eq_some_iff.mp h
        obtain ⟨rfl, rfl⟩ := Prod.mk.inj heq
        exact (not_append_suffix (splitAt?_append hq []).2.1).elim
  | cons c rest ih =>
    rw [List.cons_append, splitAt?] at h
    rw [splitAt?]
    split at h
    · next hfound =>
      obtain ⟨rfl, hafter⟩ := Prod.mk.inj (Option.some.inj h)
      have hprefix : terminator <+: (c :: rest) ++ ds := List.isPrefixOf_iff_prefix.mp hfound
      have hlength := congrArg List.length hafter
      have := hprefix.length_le
      simp only [List.length_drop, List.length_append, List.length_cons] at hlength this
      have hle : terminator.length ≤ (c :: rest).length := by
        rw [List.length_cons]
        omega
      have hfound' := List.prefix_of_prefix_length_le hprefix (List.prefix_append _ ds) hle
      rw [if_pos (List.isPrefixOf_iff_prefix.mpr hfound')]
      rw [← List.cons_append, List.drop_append_of_le_length hle] at hafter
      rw [List.append_cancel_right hafter]
    · next hnot =>
      obtain ⟨⟨q, left⟩, hq, heq⟩ := Option.map_eq_some_iff.mp h
      obtain ⟨rfl, rfl⟩ := Prod.mk.inj heq
      have hnot' : ¬ terminator.isPrefixOf (c :: rest) = true := fun hfound =>
        hnot (List.isPrefixOf_iff_prefix.mpr
          ((List.isPrefixOf_iff_prefix.mp hfound).trans (List.prefix_append (c :: rest) ds)))
      rw [if_neg hnot', ih hq]
      rfl

theorem rawText_cut {start cs ds chars after : List Char} {quote : Char}
    (h : rawText start quote (cs ++ ds) = .ok (chars, after ++ ds)) (start' : List Char) :
    rawText start' quote cs = .ok (chars, after) := by
  unfold rawText at h ⊢
  dsimp only at h ⊢
  split at h
  · cases h
  · next opener body hbody =>
    split at h
    · cases h
    · next closer hcloser =>
      split at h
      · next found hfound =>
        cases h
        -- what is left over stands behind the opening bracket
        obtain ⟨before, hbefore⟩ := (splitAt?_append hfound []).2.1
        rw [← List.append_assoc] at hbefore
        subst hbefore
        rw [← List.cons_append] at hbody
        obtain ⟨htake, hdrop⟩ := dropWhile_cut hbody
        rw [← htake, hdrop]
        simp only [hcloser]
        rw [splitAt?_cut hfound]
      · cases h

end Literal

/-! ## Numbers -/

namespace Numeral

/-- An exponent has at least two characters, and the second one is a digit or a sign before one. -/
theorem exponentRun_cons (e sign : Char) (rest : List Char) :
    exponentRun (e :: sign :: rest) =
      if (e = 'e' ∨ e = 'E') ∧ (Text.isDigit sign = true ∨
        (sign = '+' ∨ sign = '-') ∧ rest.head?.any Text.isDigit = true)
      then e :: sign :: rest.takeWhile Text.isDigit else [] := by
  rw [exponentRun]
  by_cases he : e = 'e' ∨ e = 'E'
  · by_cases hdigit : Text.isDigit sign = true
    · rw [if_pos he, if_pos hdigit, if_pos ⟨he, .inl hdigit⟩]
    · simp only [he, hdigit, true_and, false_or, if_true, Bool.false_eq_true, if_false]
  · rw [if_neg he, if_neg fun h => he h.1]

theorem exponentRun_cut {cs ds : List Char}
    (h : (exponentRun (cs ++ ds)).length ≤ cs.length) :
    exponentRun (cs ++ ds) = exponentRun cs := by
  rcases cs with _ | ⟨e, _ | ⟨sign, rest⟩⟩
  · exact List.length_eq_zero_iff.mp (Nat.le_zero.mp h)
  · cases ds with
    | nil => rfl
    | cons sign rest =>
      rw [List.cons_append, List.nil_append, exponentRun_cons] at h ⊢
      split at h
      · simp only [List.length_cons, List.length_nil] at h
        omega
      · next hnot => exact if_neg hnot
  · rw [List.cons_append, List.cons_append, exponentRun_cons] at h ⊢
    rw [exponentRun_cons]
    split at h
    · next hexponent =>
      simp only [List.length_cons, Nat.add_le_add_iff_right] at h
      have hrest := (takeWhile_cut h).1
      -- the first digit of the exponent is not in what is cut off
      have hhead : (rest ++ ds).head?.any Text.isDigit = true →
          rest.head?.any Text.isDigit = true := by
        intro hany
        rcases rest with _ | ⟨c, rest⟩
        · cases ds with
          | nil => exact hany
          | cons c ds =>
            rw [List.nil_append, List.takeWhile_cons_of_pos (by exact hany)] at h
            exact absurd h (Nat.not_succ_le_zero _)
        · exact hany
      rw [if_pos hexponent, if_pos ⟨hexponent.1, hexponent.2.imp id (And.imp id hhead)⟩, hrest]
    · next hnot =>
      have hhead : rest.head?.any Text.isDigit = true →
          (rest ++ ds).head?.any Text.isDigit = true := by
        cases rest with
        | nil => exact nofun
        | cons c rest => exact id
      rw [if_neg hnot, if_neg fun hexponent =>
        hnot ⟨hexponent.1, hexponent.2.imp id (And.imp id hhead)⟩]

theorem mantissaRun_cut {cs ds : List Char}
    (h : (mantissaRun (cs ++ ds)).length ≤ cs.length) :
    mantissaRun (cs ++ ds) = mantissaRun cs := by
  have hwhole : ((cs ++ ds).takeWhile Text.isDigit).length ≤ (mantissaRun (cs ++ ds)).length := by
    unfold mantissaRun
    split
    · rw [List.length_append]
      exact Nat.le_add_right _ _
    · exact Nat.le_refl _
  obtain ⟨htake, hdrop⟩ := takeWhile_cut (Nat.le_trans hwhole h)
  have hsplit := congrArg List.length (List.takeWhile_append_dropWhile (p := Text.isDigit) (l := cs))
  rw [List.length_append] at hsplit
  unfold mantissaRun at h ⊢
  rw [htake, hdrop] at h ⊢
  cases hrest : cs.dropWhile Text.isDigit with
  | nil =>
    rw [hrest] at h hsplit
    split at h
    · -- a point would have to be taken from what is cut off
      simp only [List.length_append, List.length_cons, List.length_nil] at h hsplit
      omega
    · rfl
  | cons c rest =>
    rw [hrest] at h hsplit
    by_cases hpoint : c = '.'
    · subst hpoint
      simp only [List.cons_append, List.length_append, List.length_cons] at h hsplit ⊢
      rw [(takeWhile_cut (by omega)).1]
    · rw [List.cons_append]
      split
      · next heq => exact absurd (List.cons.inj heq).1 hpoint
      · split
        · next heq => exact absurd (List.cons.inj heq).1 hpoint
        · rfl

theorem decimalRun_cut {cs ds : List Char} (h : (decimalRun (cs ++ ds)).length ≤ cs.length) :
    decimalRun (cs ++ ds) = decimalRun cs := by
  rw [decimalRun_eq, List.length_append] at h
  have hmantissa := mantissaRun_cut (by omega : (mantissaRun (cs ++ ds)).length ≤ cs.length)
  have hle := (isPrefix_mantissaRun cs).length_le
  rw [hmantissa, List.drop_append_of_le_length hle] at h
  rw [decimalRun_eq, decimalRun_eq, hmantissa, List.drop_append_of_le_length hle,
    exponentRun_cut (by rw [List.length_drop]; omega)]

theorem decimal_cut {cs ds after : List Char} {value : Float}
    (h : unsuffixed.decimal (cs ++ ds) = .ok (value, after ++ ds)) :
    unsuffixed.decimal cs = .ok (value, after) := by
  have hprefix := (isPrefix_decimalRun (cs ++ ds)).length_le
  unfold unsuffixed.decimal at h ⊢
  dsimp only at h ⊢
  split at h
  · next value hvalue =>
    obtain ⟨rfl, hafter⟩ := Prod.mk.inj (Except.ok.inj h)
    have hlength := congrArg List.length hafter
    rw [List.length_drop, List.length_append, List.length_append] at hlength
    rw [List.length_append] at hprefix
    have hle : (decimalRun (cs ++ ds)).length ≤ cs.length := by omega
    have hrun := decimalRun_cut hle
    rw [hrun] at hvalue hafter hle
    rw [List.drop_append_of_le_length hle] at hafter
    simp only [hvalue, List.append_cancel_right hafter]
  · cases h

theorem unsuffixed_cut {cs ds after : List Char} {value : Float}
    (h : unsuffixed (cs ++ ds) = .ok (value, after ++ ds)) :
    unsuffixed cs = .ok (value, after) := by
  by_cases hhex : ∃ x rest, cs ++ ds = '0' :: x :: rest ∧ (x = 'x' ∨ x = 'X')
  · obtain ⟨x, rest, hcs, hx⟩ := hhex
    rw [hcs, unsuffixed, if_pos hx] at h
    obtain ⟨value, hvalue, heq⟩ := Literal.map_eq_ok h
    obtain ⟨rfl, hafter⟩ := Prod.mk.inj heq
    -- the mark of hexadecimal digits is not in what is cut off
    have hsuffix := (Literal.hexRun_suffix rest.length rest).length_le
    have hlength := congrArg List.length hcs
    rw [hafter] at hsuffix
    simp only [List.length_append, List.length_cons] at hsuffix hlength
    obtain ⟨c, d, cs, rfl⟩ : ∃ c d tail, cs = c :: d :: tail := by
      rcases cs with _ | ⟨c, _ | ⟨d, tail⟩⟩
      · simp only [List.length_nil] at hlength
        omega
      · simp only [List.length_cons, List.length_nil] at hlength
        omega
      · exact ⟨c, d, tail, rfl⟩
    simp only [List.cons_append, List.cons.injEq] at hcs
    obtain ⟨rfl, rfl, rfl⟩ := hcs
    have hrun := Literal.hexRun_cut (Prod.ext rfl hafter)
    rw [Literal.hexRun_of_length_le (by simp)] at hrun
    rw [unsuffixed, if_pos hx, hrun]
    dsimp only
    rw [hexadecimal_eq_ok hvalue]
    rfl
  · have hcs : ∀ x rest, cs ++ ds = '0' :: x :: rest → ¬ (x = 'x' ∨ x = 'X') :=
      fun x rest heq hx => hhex ⟨x, rest, heq, hx⟩
    rw [unsuffixed_of_decimal hcs] at h
    rw [unsuffixed_of_decimal, decimal_cut h]
    rintro x rest rfl
    exact hcs x _ rfl

theorem suffixed_cut {start cs ds after : List Char} {value : Float} {l : Lexeme}
    (h : suffixed start value (cs ++ ds) = .ok (l, after ++ ds)) (start' : List Char) :
    suffixed start' value cs = .ok (l, after) := by
  rcases cs with _ | ⟨c, rest⟩
  · rcases ds with _ | ⟨d, ds⟩
    · rw [List.append_nil, List.append_nil] at h
      obtain ⟨rfl, rfl⟩ := Prod.mk.inj (Except.ok.inj h)
      rfl
    · -- a suffix would have to be taken from what is cut off
      rw [List.nil_append] at h
      by_cases hlong : d = 'L'
      · subst hlong
        have hsuffix : after ++ 'L' :: ds <:+ ds := by
          rw [suffixed] at h
          split at h
          all_goals
            obtain ⟨-, hrest⟩ := Prod.mk.inj (Except.ok.inj h)
            exact ⟨[], hrest.symm⟩
        exact (not_append_suffix hsuffix).elim
      · by_cases hcomplex : d = 'i'
        · subst hcomplex
          cases h
        · rw [suffixed_plain hlong hcomplex] at h
          obtain ⟨rfl, hafter⟩ := Prod.mk.inj (Except.ok.inj h)
          obtain rfl := List.self_eq_append_left.mp hafter
          rfl
  · rw [List.cons_append] at h
    by_cases hlong : c = 'L'
    · subst hlong
      rw [suffixed] at h ⊢
      split at h
      all_goals
        obtain ⟨rfl, hafter⟩ := Prod.mk.inj (Except.ok.inj h)
        rw [List.append_cancel_right hafter]
    · by_cases hcomplex : c = 'i'
      · subst hcomplex
        cases h
      · rw [suffixed_plain hlong hcomplex] at h
        obtain ⟨rfl, hafter⟩ := Prod.mk.inj (Except.ok.inj h)
        rw [← List.cons_append] at hafter
        rw [suffixed_plain hlong hcomplex, List.append_cancel_right hafter]

theorem read_cut {cs ds after : List Char} {l : Lexeme}
    (h : read (cs ++ ds) = .ok (l, after ++ ds)) : read cs = .ok (l, after) := by
  unfold read at h
  split at h
  · cases h
  · next value rest hvalue =>
    split at h
    · cases h
    · next lexeme left hlexeme =>
      split at h
      · cases h
      · next hends =>
        obtain ⟨rfl, rfl⟩ := Prod.mk.inj (Except.ok.inj h)
        -- the number without its suffix leaves at least what the suffix leaves
        obtain ⟨before, hrest⟩ := (suffixed_local hlexeme []).suffix
        rw [← List.append_assoc] at hrest
        subst hrest
        have hends' : after.head?.filter isNameChar = none := by
          cases after with
          | nil => rfl
          | cons c after => exact hends
        unfold read
        simp only [unsuffixed_cut hvalue, suffixed_cut hlexeme cs, hends']

/-- A point alone is no number. -/
theorem read_point : read ['.'] = .error ⟨.invalidNumber ".", ['.']⟩ := by
  have hvalue : Double.read? (decimalRun ['.']) = none := by decide +kernel
  have hdecimal : unsuffixed ['.'] = .error ⟨.invalidNumber ".", ['.']⟩ := by
    have hplain : ∀ x rest, ['.'] = '0' :: x :: rest → ¬ (x = 'x' ∨ x = 'X') :=
      fun x rest heq => absurd (List.cons.inj heq).1 (by decide)
    rw [unsuffixed_of_decimal hplain, unsuffixed.decimal, hvalue]
    rfl
  rw [read, hdecimal]

end Numeral

/-! ## Words and operators -/

open Numeral (isNameChar)

theorem startsName_cut {c : Char} {cs ds : List Char} (h : startsName c (cs ++ ds) = true) :
    startsName c cs = true := by
  unfold startsName at h ⊢
  split at h
  · next hpoint =>
    rw [if_pos hpoint]
    cases cs with
    | nil => rfl
    | cons d cs => exact h
  · next hpoint => rwa [if_neg hpoint]

/-- Only after a point it matters for a name what follows. -/
theorem startsName_congr {c : Char} (h : c ≠ '.') (cs ds : List Char) :
    startsName c cs = startsName c ds := by
  unfold startsName
  rw [if_neg h, if_neg h]

theorem specialRun?_cut {cs ds chars after : List Char}
    (h : specialRun? (cs ++ ds) = some (chars, after ++ ds)) :
    specialRun? cs = some (chars, after) := by
  induction cs generalizing chars with
  | nil =>
    have := specialRun?_length h
    simp only [List.nil_append, List.length_append] at this
    omega
  | cons c rest ih =>
    rw [List.cons_append, specialRun?] at h
    rw [specialRun?]
    split at h
    · next hpercent =>
      obtain ⟨rfl, hafter⟩ := Prod.mk.inj (Option.some.inj h)
      rw [if_pos hpercent, List.append_cancel_right hafter]
    · next hpercent =>
      rw [if_neg hpercent]
      split at h
      · cases h
      · next hbreak =>
        obtain ⟨⟨chars, left⟩, hq, heq⟩ := Option.map_eq_some_iff.mp h
        obtain ⟨rfl, rfl⟩ := Prod.mk.inj heq
        rw [if_neg hbreak, ih hq]
        rfl

namespace Operator

theorem longest?_cut {cs ds after : List Char} {name : String}
    (h : longest? (cs ++ ds) = some (name, after ++ ds)) : longest? cs = some (name, after) := by
  rw [longest?_eq] at h ⊢
  generalize [3, 2, 1] = lengths at h ⊢
  induction lengths with
  | nil => cases h
  | cons length lengths ih =>
    rw [List.findSome?_cons] at h ⊢
    by_cases hle : length ≤ cs.length
    · rw [ofLength?_append hle] at h
      cases hfound : ofLength? cs length with
      | none =>
        rw [hfound] at h
        exact ih h
      | some found =>
        rw [hfound] at h
        obtain ⟨rfl, hafter⟩ := Prod.mk.inj (Option.some.inj h)
        rw [← List.append_cancel_right hafter]
    · -- an operator of this length would leave less than `ds`
      have hnone : ofLength? cs length = none := if_pos (Nat.lt_of_not_le hle)
      rw [hnone]
      cases hfound : ofLength? (cs ++ ds) length with
      | none =>
        rw [hfound] at h
        exact ih h
      | some found =>
        rw [hfound] at h
        obtain rfl := Option.some.inj h
        unfold ofLength? at hfound
        split at hfound
        · cases hfound
        · next hlong =>
          obtain ⟨_, _, heq⟩ := Option.map_eq_some_iff.mp hfound
          have hlength := congrArg List.length (Prod.mk.inj heq).2
          rw [List.length_drop, List.length_append] at hlength
          rw [List.length_append] at hlong hlength
          omega

end Operator

/-- No operator starts with a point. -/
theorem longest?_ne_point {c : Char} {cs : List Char} {found : String × List Char}
    (h : Operator.longest? (c :: cs) = some found) : c ≠ '.' := by
  have table : ∀ s ∈ Operator.spellings, s.toList.head? ≠ some '.' := by decide
  rw [Operator.longest?_eq] at h
  obtain ⟨length, hmem, hfound⟩ := List.exists_of_findSome?_eq_some h
  unfold Operator.ofLength? at hfound
  split at hfound
  · cases hfound
  · obtain ⟨name, hname, -⟩ := Option.map_eq_some_iff.mp hfound
    have hhead := table _ (Operator.mem_spellings hname)
    rw [String.toList_ofList] at hhead
    rintro rfl
    refine hhead ?_
    rcases List.mem_cons.mp hmem with rfl | hmem
    · rfl
    · rcases List.mem_cons.mp hmem with rfl | hmem
      · rfl
      · rw [List.mem_singleton.mp hmem]
        rfl

theorem readWord_cut {c : Char} {cs ds after : List Char} {l : Lexeme}
    (h : readWord c (cs ++ ds) = .ok (l, after ++ ds)) : readWord c cs = .ok (l, after) := by
  unfold readWord at h ⊢
  dsimp only at h ⊢
  split at h
  · next hstarts =>
    obtain ⟨rfl, hdrop⟩ := Prod.mk.inj (Except.ok.inj h)
    obtain ⟨htake, hcut⟩ := dropWhile_cut hdrop
    rw [if_pos (startsName_cut hstarts), htake, hcut]
  · next hstarts =>
    -- what starts no name starts none where the text is cut off either
    have hnone : c ≠ '.' → ¬ startsName c cs = true := fun hpoint =>
      startsName_congr hpoint cs (cs ++ ds) ▸ hstarts
    split at h
    · next hfunction =>
      obtain ⟨rfl, hafter⟩ := Prod.mk.inj (Except.ok.inj h)
      rw [if_neg (hnone (hfunction ▸ by decide)), if_pos hfunction, List.append_cancel_right hafter]
    · next hfunction =>
      split at h
      · next hpercent =>
        split at h
        · next chars left hrun =>
          obtain ⟨rfl, rfl⟩ := Prod.mk.inj (Except.ok.inj h)
          rw [if_neg (hnone (hpercent ▸ by decide)), if_neg hfunction, if_pos hpercent,
            specialRun?_cut hrun]
        · cases h
      · next hpercent =>
        split at h
        · next name left hop =>
          obtain ⟨rfl, rfl⟩ := Prod.mk.inj (Except.ok.inj h)
          rw [if_neg (hnone (longest?_ne_point hop)), if_neg hfunction, if_neg hpercent,
            @Operator.longest?_cut (c :: cs) _ _ _ hop]
        · cases h

/-! ## Lexemes -/

theorem readPlain_cut {c : Char} {cs ds after : List Char} {l : Lexeme}
    (h : readPlain c (cs ++ ds) = .ok (l, after ++ ds)) : readPlain c cs = .ok (l, after) := by
  rcases cs with _ | ⟨next, body⟩
  · rcases ds with _ | ⟨d, ds⟩
    · rw [List.append_nil, List.append_nil] at h
      exact h
    · rw [List.nil_append, readPlain] at h
      rw [readPlain]
      split at h
      · next hraw =>
        -- a raw text would have to be taken from what is cut off
        obtain ⟨⟨chars, left⟩, hq, heq⟩ := Literal.map_eq_ok h
        obtain ⟨rfl, rfl⟩ := Prod.mk.inj heq
        exact (not_append_suffix (Literal.rawText_local hq []).suffix).elim
      · split at h
        · next hnumber =>
          have hread : Numeral.read [c] = .ok (l, after) := Numeral.read_cut h
          by_cases hdigit : Text.isDigit c = true
          · rwa [if_pos hdigit]
          · obtain ⟨hpoint, -⟩ := Bool.and_eq_true_iff.mp
              ((Bool.or_eq_true_iff.mp hnumber).resolve_left hdigit)
            obtain rfl := beq_iff_eq.mp hpoint
            rw [Numeral.read_point] at hread
            cases hread
        · next hnumber =>
          rw [if_neg fun hdigit => hnumber (by rw [hdigit]; rfl)]
          exact readWord_cut h
  · rw [List.cons_append, readPlain] at h
    rw [readPlain]
    split at h
    · next hraw =>
      obtain ⟨⟨chars, left⟩, hq, heq⟩ := Literal.map_eq_ok h
      obtain ⟨rfl, rfl⟩ := Prod.mk.inj heq
      rw [if_pos hraw, Literal.rawText_cut hq]
      rfl
    · next hraw =>
      rw [if_neg hraw]
      split at h
      · next hnumber =>
        rw [if_pos hnumber]
        exact Numeral.read_cut h
      · next hnumber =>
        rw [if_neg hnumber]
        exact readWord_cut h

theorem readBracket_cut {cs ds after : List Char} {l : Lexeme}
    (h : readLexeme '[' (cs ++ ds) = .ok (l, after ++ ds)) : readLexeme '[' cs = .ok (l, after) := by
  by_cases hdouble : ∃ tail, cs ++ ds = '[' :: tail
  · obtain ⟨tail, htail⟩ := hdouble
    rw [htail] at h
    obtain ⟨rfl, hafter⟩ := Prod.mk.inj (Except.ok.inj h)
    obtain rfl : tail = after ++ ds := hafter
    cases cs with
    | nil =>
      rw [List.nil_append] at htail
      have := congrArg List.length htail
      rw [List.length_cons, List.length_append] at this
      omega
    | cons c cs =>
      obtain ⟨rfl, hcs⟩ := List.cons.inj htail
      rw [List.append_cancel_right hcs]
      rfl
  · rw [readLexeme_bracket fun tail heq => hdouble ⟨tail, heq⟩] at h
    obtain ⟨rfl, hafter⟩ := Prod.mk.inj (Except.ok.inj h)
    obtain rfl := List.append_cancel_right hafter
    refine readLexeme_bracket fun tail heq => hdouble ⟨tail ++ ds, ?_⟩
    rw [heq, List.cons_append]

/-- A lexeme is read from its own characters: what follows them can be cut off. -/
theorem readLexeme_cut {c : Char} {cs ds after : List Char} {l : Lexeme}
    (h : readLexeme c (cs ++ ds) = .ok (l, after ++ ds)) : readLexeme c cs = .ok (l, after) := by
  cases hdelimiter : delimiter? c with
  | some delimiter =>
    have hread : ∀ rest, readLexeme c rest = .ok (delimiter, rest) := fun rest => by
      simp only [readLexeme, hdelimiter]
    rw [hread] at h ⊢
    obtain ⟨rfl, hafter⟩ := Prod.mk.inj (Except.ok.inj h)
    rw [List.append_cancel_right hafter]
  | none =>
    by_cases hbracket : c = '['
    · subst hbracket
      exact readBracket_cut h
    by_cases hquote : c = '"' ∨ c = '\''
    · unfold readLexeme at h ⊢
      simp only [hdelimiter, if_neg hbracket, if_pos hquote] at h ⊢
      obtain ⟨⟨chars, left⟩, hq, heq⟩ := Literal.map_eq_ok h
      obtain ⟨rfl, rfl⟩ := Prod.mk.inj heq
      rw [Literal.quotedRun_cut hq]
      rfl
    by_cases hbacktick : c = '`'
    · unfold readLexeme at h ⊢
      simp only [hdelimiter, if_neg hbracket, if_neg hquote, if_pos hbacktick] at h ⊢
      split at h
      · cases h
      · cases h
      · next chars left hne hq =>
        obtain ⟨rfl, rfl⟩ := Prod.mk.inj (Except.ok.inj h)
        rw [Literal.quotedRun_cut hq]
        cases chars with
        | nil => exact (hne rfl).elim
        | cons d chars => rfl
    · rw [readLexeme_eq_plain hdelimiter hbracket hquote hbacktick] at h ⊢
      exact readPlain_cut h

end RCode
