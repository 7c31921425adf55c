import RCode.Proofs.Text.Characters
import RCode.Token.Spelling

/-!
# Reading quoted texts

A quoted text is spelled character by character, with escapes where they are needed, and the reader
of quoted texts takes it apart in the same way. A raw text has no escapes: it is read up to its
terminator, which ends with a quote and has no other (`RawForm.rawText_eq`).
-/

set_option autoImplicit false

namespace RCode.Literal

variable {quote : Char} {unterminated : LexicalFault}

theorem quotedRun_quote (rest : List Char) :
    quotedRun quote unterminated (quote :: rest) = .ok ([], rest) := by
  rw [quotedRun, if_pos rfl]

/-- A character that stands for itself. -/
theorem quotedRun_plain {c : Char} (hquote : c ≠ quote) (hescape : c ≠ '\\') (rest : List Char) :
    quotedRun quote unterminated (c :: rest) =
      (quotedRun quote unterminated rest).map fun (chars, after) => (c :: chars, after) := by
  rw [quotedRun, if_neg hquote, if_neg hescape]

/-- An escaped character. -/
theorem quotedRun_escape {c meant : Char} {rest after : List Char} (hquote : '\\' ≠ quote)
    (h : escape ('\\' :: c :: rest) (c :: rest) = .ok (meant, after)) :
    quotedRun quote unterminated ('\\' :: c :: rest) =
      (quotedRun quote unterminated after).map fun (chars, after) => (meant :: chars, after) := by
  rw [quotedRun, if_neg hquote, if_pos rfl]
  split
  · next e heq => rw [h] at heq; cases heq
  · next m a heq => rw [h] at heq; cases heq; rfl

/-- A text is read back if each of its characters is. -/
theorem quotedRun_flatMap {spelling : Char → List Char}
    (h : ∀ c rest, quotedRun quote unterminated (spelling c ++ rest) =
      (quotedRun quote unterminated rest).map fun (chars, after) => (c :: chars, after))
    (cs rest : List Char) :
    quotedRun quote unterminated (cs.flatMap spelling ++ quote :: rest) = .ok (cs, rest) := by
  induction cs with
  | nil => exact quotedRun_quote rest
  | cons c cs ih =>
    rw [List.flatMap_cons, List.append_assoc, h, ih]
    rfl

/-- The escapes and the closing quote take characters of their own. -/
theorem quotedRun_length_lt {cs : List Char} {r : List Char × List Char}
    (h : quotedRun quote unterminated cs = .ok r) : r.1.length + r.2.length < cs.length := by
  fun_induction quotedRun quote unterminated cs generalizing r with
  | case1 => cases h
  | case2 rest =>
    cases h
    rw [List.length_nil, Nat.zero_add]
    exact Nat.lt_succ_self _
  | case3 => cases h
  | case4 rest _ meant after hescape ih =>
    obtain ⟨q, hq, rfl⟩ := map_eq_ok h
    have := escape_length hescape
    have := ih hq
    simp only [List.length_cons] at *
    omega
  | case5 c rest _ _ ih =>
    obtain ⟨q, hq, rfl⟩ := map_eq_ok h
    have := ih hq
    simp only [List.length_cons] at *
    omega

/-! ## Names -/

theorem escape_letter {start : List Char} {c meant : Char} (h : letterEscape? c = some meant)
    (rest : List Char) : escape start (c :: rest) = .ok (meant, rest) := by
  simp only [escape, h]

theorem quotedRun_name (name : List Char) (rest : List Char) :
    quotedRun '`' unterminated
        (name.flatMap (fun c => if c = '\\' ∨ c = '`' then ['\\', c] else [c]) ++ '`' :: rest) =
      .ok (name, rest) := by
  refine quotedRun_flatMap (fun c rest => ?_) name rest
  split
  · next hspecial =>
    have hletter : letterEscape? c = some c := by
      rcases hspecial with rfl | rfl <;> rfl
    exact quotedRun_escape (by decide) (escape_letter hletter rest)
  · next hplain =>
    obtain ⟨hescape, hquote⟩ := not_or.mp hplain
    exact quotedRun_plain hquote hescape rest

/-! ## Texts -/

/-- Two hexadecimal digits make an ASCII character. -/
theorem hexadecimal_ascii {n : Nat} (hn : n < 128) :
    ∃ a b, Text.hexadecimal 2 n = [a, b] ∧ hexDigit? a = some (n / 16) ∧
      hexDigit? b = some (n % 16) := by
  have table : ∀ n : Fin 128, ∃ a ∈ Text.hexadecimal 2 n, ∃ b ∈ Text.hexadecimal 2 n,
      Text.hexadecimal 2 n = [a, b] ∧ hexDigit? a = some (n / 16) ∧
        hexDigit? b = some (n % 16) := by decide +kernel
  obtain ⟨a, -, b, -, h⟩ := table ⟨n, hn⟩
  exact ⟨a, b, h⟩

theorem escape_codePoint {start : List Char} {c : Char} (hc : c.toNat < 128) (rest : List Char) :
    escape start ('x' :: (Text.hexadecimal 2 c.toNat ++ rest)) = .ok (c, rest) := by
  obtain ⟨a, b, hdigits, ha, hb⟩ := hexadecimal_ascii hc
  have hrun : hexRun 2 (Text.hexadecimal 2 c.toNat ++ rest) =
      ([c.toNat / 16, c.toNat % 16], rest) := by
    simp only [hdigits, List.cons_append, List.nil_append, hexRun, ha, hb]
  have hvalue : ofHexDigits [c.toNat / 16, c.toNat % 16] = c.toNat := by
    simp only [ofHexDigits, List.foldl_cons, List.foldl_nil]
    omega
  have hvalid : c.toNat.isValidChar := c.valid
  have hnone : letterEscape? 'x' = none := rfl
  simp only [escape, hnone, if_true, hrun, codePoint, hvalue, List.isEmpty_cons,
    Bool.false_eq_true, if_false, if_pos hvalid, Char.ofNat_toNat]

theorem quotedRun_text (text rest : List Char) :
    quotedRun '"' unterminated (text.flatMap Spelling.textChar ++ '"' :: rest) =
      .ok (text, rest) := by
  refine quotedRun_flatMap (fun c rest => ?_) text rest
  unfold Spelling.textChar
  split
  · next hspecial =>
    have hletter : letterEscape? c = some c := by
      rcases hspecial with rfl | rfl <;> rfl
    exact quotedRun_escape (by decide) (escape_letter hletter rest)
  · next hplain =>
    obtain ⟨hescape, hquote⟩ := not_or.mp hplain
    split
    · next h => subst h; exact quotedRun_escape (by decide) (escape_letter rfl rest)
    · split
      · next h => subst h; exact quotedRun_escape (by decide) (escape_letter rfl rest)
      · split
        · next h => subst h; exact quotedRun_escape (by decide) (escape_letter rfl rest)
        · split
          · next hcontrol =>
            exact quotedRun_escape (by decide) (escape_codePoint (by omega) rest)
          · exact quotedRun_plain hquote hescape rest

/-! ## Raw texts -/

/-- A terminator that ends with a quote and has no other does not start in what it follows, unless
it is there as a whole: its quote would be one of those in between. -/
theorem not_prefix_across {ahead front : List Char} (hquote : quote ∉ ahead) (hne : front ≠ [])
    (h : ¬ ahead ++ [quote] <+: front) (rest : List Char) :
    ¬ ahead ++ [quote] <+: front ++ (ahead ++ [quote] ++ rest) := by
  intro hfound
  obtain ⟨tail, htail⟩ : front <+: ahead ++ [quote] :=
    (List.prefix_or_prefix_of_prefix hfound (List.prefix_append front _)).resolve_left h
  rcases List.eq_nil_or_concat tail with rfl | ⟨more, last, rfl⟩
  · rw [List.append_nil] at htail
    exact h (htail ▸ List.prefix_refl _)
  · rw [List.concat_eq_append, ← List.append_assoc] at htail
    obtain ⟨rfl, hlast⟩ := List.append_inj' htail rfl
    obtain rfl := List.singleton_inj.mp hlast
    -- behind the front the terminator ends before the one that follows does
    have hbehind : more ++ [last] <+: front ++ more ++ ([last] ++ rest) := by
      simpa only [List.append_assoc, List.prefix_append_right_inj] using hfound
    have hlength := List.length_pos_iff.mpr hne
    have hwithin : more ++ [last] <+: front ++ more := by
      refine List.prefix_of_prefix_length_le hbehind (List.prefix_append _ _) ?_
      simp only [List.length_append, List.length_singleton]
      omega
    exact hquote (hwithin.subset (List.mem_append_right _ List.mem_cons_self))

/-- The first occurrence of a terminator behind a text is the one behind it. -/
theorem splitAt?_terminated {ahead cs : List Char} (hquote : quote ∉ ahead)
    (h : ¬ ahead ++ [quote] <:+: cs) (rest : List Char) :
    splitAt? (ahead ++ [quote]) (cs ++ (ahead ++ [quote] ++ rest)) = some (cs, rest) := by
  induction cs with
  | nil =>
    have hfound : (ahead ++ [quote]).isPrefixOf (ahead ++ [quote] ++ rest) = true :=
      List.isPrefixOf_iff_prefix.mpr (List.prefix_append _ rest)
    cases htext : ahead ++ [quote] ++ rest with
    | nil => simp at htext
    | cons c more =>
      rw [htext] at hfound
      rw [List.nil_append, splitAt?, if_pos hfound, ← htext, List.drop_left]
  | cons c cs ih =>
    have hcs : ¬ ahead ++ [quote] <:+: cs := fun hinfix => h (List.infix_cons hinfix)
    have hnot : ¬ ahead ++ [quote] <+: c :: (cs ++ (ahead ++ [quote] ++ rest)) :=
      not_prefix_across hquote (List.cons_ne_nil c cs) (fun hfound => h hfound.isInfix) rest
    rw [List.cons_append, splitAt?, if_neg (mt List.isPrefixOf_iff_prefix.mp hnot), ih hcs]
    rfl

/-- The characters around a raw text. -/
structure RawForm where
  letter : Char
  quote : Char
  opener : Char
  closer : Char
  dashes : Nat
  isLetter : letter = 'r' ∨ letter = 'R'
  isQuote : quote = '"' ∨ quote = '\''
  closing : closing? opener = some closer

namespace RawForm

variable (form : RawForm)

/-- What a raw text ends at. -/
def terminator : List Char :=
  form.closer :: List.replicate form.dashes '-' ++ [form.quote]

/-- The text between the characters around it. -/
def spelling (s : String) : List Char :=
  form.letter :: form.quote :: (List.replicate form.dashes '-' ++
    form.opener :: (s.toList ++ form.terminator))

theorem opener_ne_dash : form.opener ≠ '-' := by
  intro h
  have hclosing := form.closing
  rw [h] at hclosing
  cases hclosing

theorem quote_not_mem : form.quote ∉ form.closer :: List.replicate form.dashes '-' := by
  have hcloser : ∀ opener closer, closing? opener = some closer →
      closer ∈ [')', ']', '\x7d'] := by
    intro opener closer h
    unfold closing? at h
    split at h <;> cases h <;> decide
  have hne : form.quote ≠ '-' ∧ form.quote ∉ [')', ']', '\x7d'] := by
    rcases form.isQuote with h | h <;> rw [h] <;> decide
  intro hmem
  rcases List.mem_cons.mp hmem with heq | hdash
  · exact hne.2 (heq ▸ hcloser _ _ form.closing)
  · exact hne.1 (List.eq_of_mem_replicate hdash)

/-- A raw text is what stands before its terminator. -/
theorem rawText_eq {cs : List Char} (h : ¬ form.terminator <:+: cs) (start rest : List Char) :
    rawText start form.quote (List.replicate form.dashes '-' ++
      form.opener :: (cs ++ (form.terminator ++ rest))) = .ok (cs, rest) := by
  have hdashes : ∀ c ∈ List.replicate form.dashes '-', (c == '-') = true := fun c hc =>
    beq_iff_eq.mpr (List.eq_of_mem_replicate hc)
  have hopener : (form.opener == '-') = false := beq_eq_false_iff_ne.mpr form.opener_ne_dash
  have htake (body : List Char) : (List.replicate form.dashes '-' ++ form.opener :: body).takeWhile
      (· == '-') = List.replicate form.dashes '-' := by
    rw [List.takeWhile_append_of_pos hdashes, List.takeWhile_cons, hopener]
    exact List.append_nil _
  have hdrop (body : List Char) : (List.replicate form.dashes '-' ++ form.opener :: body).dropWhile
      (· == '-') = form.opener :: body := by
    rw [List.dropWhile_append_of_pos hdashes, List.dropWhile_cons, hopener]
    rfl
  have hsplit := splitAt?_terminated form.quote_not_mem h rest
  rw [← terminator] at hsplit
  unfold rawText
  simp only [htake, hdrop, form.closing]
  rw [← terminator, hsplit]

end RawForm

end RCode.Literal
