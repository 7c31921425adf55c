import RCode.Proofs.Token.NumberReading
import RCode.Proofs.Token.QuotedReading
import RCode.Proofs.Token.WordReading

/-!
# Reading lexemes

Every lexeme that can be read back is read back from its text, unless it goes on with the character
that follows (`readLexeme_spelling`).
-/

set_option autoImplicit false

namespace RCode

open Numeral (isNameChar StopsName)

/-! ## Where lexemes end -/

/-- The character can follow a word. -/
def endsWord (c : Char) : Bool :=
  !isNameChar c && c != '"' && c != '\''

/-- The lexeme does not go on with the character. -/
def Lexeme.endsBefore : Lexeme → Char → Bool
  | .leftBracket, c => c != '['
  | .integer _, c => !isNameChar c
  | .double _, c => !isNameChar c
  | .constant _, c => endsWord c
  | .keyword _, c => endsWord c
  | .symbol name, c => !isSyntacticName name || endsWord c
  | .operator name, c => !Operator.goesOn name c
  | _, _ => true

theorem stopsName_of_forall {rest : List Char} (h : ∀ c ∈ rest.head?, (!isNameChar c) = true) :
    StopsName rest := by
  intro c hc
  simpa using h c hc

theorem stopsWord_of_forall {rest : List Char} (h : ∀ c ∈ rest.head?, endsWord c = true) :
    StopsWord rest := by
  refine ⟨fun c hc => ?_, fun c hc => ?_⟩
  · have := h c hc
    simp only [endsWord, Bool.and_eq_true, Bool.not_eq_true'] at this
    exact this.1.1
  · have := h c hc
    simp only [endsWord, Bool.and_eq_true, bne_iff_ne] at this
    exact ⟨this.1.2, this.2⟩

/-! ## The kinds of lexemes -/

/-- The text starts with the lexeme, which is neither a blank nor a break nor a comment, and goes
on with `rest`. -/
def ReadsAs (cs : List Char) (l : Lexeme) (rest : List Char) : Prop :=
  ∃ c after, cs = c :: after ∧ isBlank c = false ∧ c ≠ '#' ∧ c ≠ '\n' ∧
    readLexeme c after = .ok (l, rest)

theorem readsAs_word {c : Char} {cs rest : List Char} (h : IsWord c cs) (hrest : StopsWord rest) :
    ReadsAs (c :: cs ++ rest) (ofWord (String.ofList (c :: cs))) rest := by
  obtain ⟨-, hne⟩ := ne_of_startsName h.starts
  refine ⟨c, cs ++ rest, rfl, ?_, hne '#' (by simp), hne '\n' (by simp), h.readLexeme hrest⟩
  simp only [isBlank, beq_eq_false_iff_ne.mpr (hne ' ' (by simp)),
    beq_eq_false_iff_ne.mpr (hne '\t' (by simp)), beq_eq_false_iff_ne.mpr (hne '\r' (by simp)),
    beq_eq_false_iff_ne.mpr (hne '\x0c' (by simp)), Bool.or_self]

/-- A reserved word is read as what it is reserved for. -/
theorem readsAs_reserved {s : String} {rest : List Char}
    (h : ∃ c cs, s.toList = c :: cs ∧ startsName c cs = true ∧ cs.all isNameChar = true)
    (hrest : StopsWord rest) : ReadsAs (s.toList ++ rest) (ofWord s) rest := by
  obtain ⟨c, cs, hs, hstarts, hall⟩ := h
  have := readsAs_word ⟨hstarts, List.all_eq_true.mp hall⟩ hrest
  rw [← hs, String.ofList_toList] at this
  exact this

theorem keyword_isWord (k : Keyword) :
    ∃ c cs, k.spelling.toList = c :: cs ∧ startsName c cs = true ∧ cs.all isNameChar = true := by
  cases k <;> exact ⟨_, _, rfl, by decide, by decide⟩

theorem constant_isWord (k : NamedConstant) :
    ∃ c cs, k.spelling.toList = c :: cs ∧ startsName c cs = true ∧ cs.all isNameChar = true := by
  cases k <;> exact ⟨_, _, rfl, by decide, by decide⟩

/-- The words that stand for themselves are those that are neither keywords nor constants. -/
theorem ofWord_eq_symbol_iff {word name : String} :
    ofWord word = .symbol name ↔ word = name ∧
      word ∉ Keyword.all.map Keyword.spelling ++ NamedConstant.all.map NamedConstant.spelling := by
  have hkeyword : Keyword.ofWord? word = none ↔ word ∉ Keyword.all.map Keyword.spelling := by
    simp only [Keyword.ofWord?, List.find?_eq_none, beq_iff_eq, List.mem_map, not_exists, not_and]
  have hconstant : NamedConstant.ofWord? word = none ↔
      word ∉ NamedConstant.all.map NamedConstant.spelling := by
    simp only [NamedConstant.ofWord?, List.find?_eq_none, beq_iff_eq, List.mem_map, not_exists,
      not_and]
  rw [List.mem_append, not_or, ← hkeyword, ← hconstant, ofWord]
  cases Keyword.ofWord? word with
  | some k => simp
  | none =>
    cases NamedConstant.ofWord? word with
    | some c => simp
    | none => simp

/-- A name that is written without backticks is a word. -/
theorem isWord_of_isSyntacticName {name : String} (h : isSyntacticName name = true) :
    ∃ c cs, name.toList = c :: cs ∧ IsWord c cs ∧ ofWord name = .symbol name := by
  unfold isSyntacticName at h
  cases hname : name.toList with
  | nil => rw [hname] at h; cases h
  | cons c cs =>
    rw [hname] at h
    simp only [Bool.and_eq_true, decide_eq_true_eq, List.all_cons] at h
    obtain ⟨⟨hreserved, hstarts⟩, -, hall⟩ := h
    refine ⟨c, cs, rfl, ⟨hstarts, List.all_eq_true.mp hall⟩, ofWord_eq_symbol_iff.mpr ⟨rfl, ?_⟩⟩
    exact fun hmem => hreserved (List.mem_append_left _ hmem)

theorem readsAs_syntacticName {name : String} (h : isSyntacticName name = true) {rest : List Char}
    (hrest : StopsWord rest) : ReadsAs (name.toList ++ rest) (.symbol name) rest := by
  obtain ⟨c, cs, hname, hword, hsymbol⟩ := isWord_of_isSyntacticName h
  have := readsAs_word hword hrest
  rw [← hname, String.ofList_toList, hsymbol] at this
  exact this

/-- A name between backticks. -/
theorem readsAs_quotedName {name : String} (h : name ≠ "") (rest : List Char) :
    ReadsAs ('`' :: name.toList.flatMap (fun c => if c = '\\' ∨ c = '`' then ['\\', c] else [c]) ++
      ['`'] ++ rest) (.symbol name) rest := by
  refine ⟨'`', _, by simp only [List.cons_append, List.append_assoc, List.nil_append]; rfl,
    by decide, by decide, by decide, ?_⟩
  have hdelimiter : delimiter? '`' = none := rfl
  unfold readLexeme
  simp only [hdelimiter, Literal.quotedRun_name]
  cases hname : name.toList with
  | nil => exact absurd (String.toList_eq_nil_iff.mp hname) h
  | cons c cs =>
    rw [← String.ofList_toList (s := name), hname]
    rfl

theorem readsAs_text (s : String) (rest : List Char) :
    ReadsAs (Spelling.text s ++ rest) (.text s) rest := by
  refine ⟨'"', _, by simp only [Spelling.text, List.cons_append, List.append_assoc,
    List.nil_append]; rfl, by decide, by decide, by decide, ?_⟩
  have hdelimiter : delimiter? '"' = none := rfl
  unfold readLexeme
  have hbracket : '"' ≠ '[' := by decide
  simp only [hdelimiter, if_neg hbracket, true_or, if_true, Literal.quotedRun_text]
  rw [← String.ofList_toList (s := s), String.toList_ofList]
  rfl

/-- A raw text, which may hold anything but its terminator. -/
theorem readsAs_rawText (form : Literal.RawForm) {s : String}
    (h : ¬ form.terminator <:+: s.toList) (rest : List Char) :
    ReadsAs (form.spelling s ++ rest) (.text s) rest := by
  have htext : form.spelling s ++ rest = form.letter :: form.quote ::
      (List.replicate form.dashes '-' ++ form.opener :: (s.toList ++ (form.terminator ++ rest))) := by
    simp only [Literal.RawForm.spelling, List.cons_append, List.append_assoc]
  have hraw := form.rawText_eq h
  have table : ∀ c ∈ ['r', 'R'], delimiter? c = none ∧ c ≠ '[' ∧ ¬ (c = '"' ∨ c = '\'') ∧
      c ≠ '`' ∧ isBlank c = false ∧ c ≠ '#' ∧ c ≠ '\n' := by decide
  have hletter : form.letter ∈ ['r', 'R'] := by
    rcases form.isLetter with heq | heq <;> rw [heq] <;> decide
  obtain ⟨hdelimiter, hbracket, hquote, hbacktick, hblank, hcomment, hbreak⟩ := table _ hletter
  refine ⟨_, _, htext, hblank, hcomment, hbreak, ?_⟩
  unfold readLexeme
  simp only [hdelimiter, if_neg hbracket, if_neg hquote, if_neg hbacktick,
    if_pos (And.intro form.isLetter form.isQuote), hraw]
  exact congrArg (fun s => Except.ok (Lexeme.text s, rest)) String.ofList_toList

/-! ## Numbers -/

theorem readLexeme_digit {c : Char} (hc : c.isDigit = true) (after : List Char) :
    readLexeme c after = Numeral.read (c :: after) := by
  have hne : ∀ d ∈ ['(', ')', '\x7b', '\x7d', ']', ',', ';', '[', '"', '\'', '`', 'r', 'R'],
      c ≠ d := by
    have table : ∀ d ∈ ['(', ')', '\x7b', '\x7d', ']', ',', ';', '[', '"', '\'', '`', 'r', 'R'],
        d.isDigit = false := by decide
    rintro d hd rfl
    rw [table c hd] at hc
    cases hc
  have hdelimiter : delimiter? c = none := by
    unfold delimiter?
    split
    · exact absurd rfl (hne '(' (by simp))
    · exact absurd rfl (hne ')' (by simp))
    · exact absurd rfl (hne '\x7b' (by simp))
    · exact absurd rfl (hne '\x7d' (by simp))
    · exact absurd rfl (hne ']' (by simp))
    · exact absurd rfl (hne ',' (by simp))
    · exact absurd rfl (hne ';' (by simp))
    · rfl
  have hdigit := Text.isDigit_of_ascii hc
  unfold readLexeme
  simp only [hdelimiter, hne '[' (by simp), hne '"' (by simp), hne '\'' (by simp),
    hne '`' (by simp), hne 'r' (by simp), hne 'R' (by simp), if_false, or_self, false_and,
    hdigit, Bool.true_or, if_true]
  split <;> rfl

theorem readsAs_number {cs rest after : List Char} {l : Lexeme}
    (h : ∃ c more, cs = c :: more ∧ c.isDigit = true)
    (hread : Numeral.read (cs ++ rest) = .ok (l, after)) : ReadsAs (cs ++ rest) l after := by
  obtain ⟨c, more, rfl, hc⟩ := h
  have table : ∀ d ∈ [' ', '\t', '\r', '\x0c', '#', '\n'], d.isDigit = false := by decide
  have hne : ∀ d ∈ [' ', '\t', '\r', '\x0c', '#', '\n'], c ≠ d := by
    rintro d hd rfl
    rw [table c hd] at hc
    cases hc
  refine ⟨c, more ++ rest, rfl, ?_, hne '#' (by simp), hne '\n' (by simp), ?_⟩
  · simp only [isBlank, beq_eq_false_iff_ne.mpr (hne ' ' (by simp)),
      beq_eq_false_iff_ne.mpr (hne '\t' (by simp)), beq_eq_false_iff_ne.mpr (hne '\r' (by simp)),
      beq_eq_false_iff_ne.mpr (hne '\x0c' (by simp)), Bool.or_self]
  · rw [readLexeme_digit hc]
    exact hread

/-! ## Operators -/

/-- The characters that operators start with. -/
def operatorStarts : List Char :=
  ['?', '=', '<', '-', '>', '~', '|', '&', '!', '+', '*', '/', ':', '^', '$', '@', '%']

theorem readLexeme_operator {c : Char} (hc : c ∈ operatorStarts) (after : List Char) :
    readLexeme c after = readWord c after := by
  have table : ∀ c ∈ operatorStarts, delimiter? c = none ∧ c ≠ '[' ∧ ¬ (c = '"' ∨ c = '\'') ∧
      c ≠ '`' ∧ ¬ (c = 'r' ∨ c = 'R') ∧ Text.isDigit c = false ∧ (c == '.') = false := by
    decide
  obtain ⟨hdelimiter, hbracket, hquote, hbacktick, hraw, hdigit, hpoint⟩ := table c hc
  unfold readLexeme
  simp only [hdelimiter, hbracket, hquote, hbacktick, hraw, hdigit, hpoint, if_false, false_and,
    Bool.false_and, Bool.or_self, Bool.false_eq_true]
  split <;> rfl

theorem readsAs_operator {c : Char} {cs rest after : List Char} {l : Lexeme}
    (hc : c ∈ operatorStarts) (h : readWord c (cs ++ rest) = .ok (l, after)) :
    ReadsAs (c :: cs ++ rest) l after := by
  have table : ∀ c ∈ operatorStarts, isBlank c = false ∧ c ≠ '#' ∧ c ≠ '\n' := by decide
  obtain ⟨hblank, hcomment, hbreak⟩ := table c hc
  exact ⟨c, cs ++ rest, rfl, hblank, hcomment, hbreak, (readLexeme_operator hc _).trans h⟩

theorem startsName_of_ne {c : Char} (hpoint : c ≠ '.') (hletter : Text.isLetter c = false)
    (cs : List Char) : startsName c cs = false := by
  unfold startsName
  rw [if_neg hpoint]
  exact hletter

/-- An operator between percent signs ends at the second one. -/
theorem specialRun?_append {cs : List Char} (h : ∀ c ∈ cs, c ≠ '%' ∧ c ≠ '\n')
    (rest : List Char) : specialRun? (cs ++ '%' :: rest) = some (cs ++ ['%'], rest) := by
  induction cs with
  | nil => rfl
  | cons c cs ih =>
    obtain ⟨⟨hpercent, hbreak⟩, hcs⟩ := List.forall_mem_cons.mp h
    simp only [List.cons_append, specialRun?, if_neg hpercent, if_neg hbreak, ih hcs,
      Option.map_some]

/-- The characters of a name between percent signs. -/
theorem Operator.toList_of_isSpecial {name : String} (h : isSpecial name = true) :
    name.toList = '%' :: (inner name ++ ['%']) := by
  simp only [isSpecial, Bool.and_eq_true, decide_eq_true_eq, beq_iff_eq] at h
  obtain ⟨⟨hlength, hhead⟩, hlast⟩ := h
  unfold inner
  cases hchars : name.toList with
  | nil => rw [hchars] at hhead; cases hhead
  | cons c cs =>
    rw [hchars] at hhead hlast hlength
    obtain rfl : c = '%' := Option.some.inj hhead
    have hne : cs ≠ [] := by
      rintro rfl
      exact absurd hlength (by decide)
    have hend : cs.getLast hne = '%' := by
      rw [List.getLast?_cons_of_ne_nil hne, List.getLast?_eq_some_getLast hne] at hlast
      exact Option.some.inj hlast
    rw [List.tail_cons, ← hend, List.dropLast_concat_getLast hne]

theorem readsAs_special {name : String} (hspecial : Operator.isSpecial name = true)
    (hinner : ∀ c ∈ Operator.inner name, c ≠ '%' ∧ c ≠ '\n') (rest : List Char) :
    ReadsAs (name.toList ++ rest) (.operator name) rest := by
  have hname := Operator.toList_of_isSpecial hspecial
  rw [hname]
  refine readsAs_operator (by decide) ?_
  have hstarts := startsName_of_ne (c := '%') (by decide) (by decide)
  have hrun : specialRun? (Operator.inner name ++ ['%'] ++ rest) =
      some (Operator.inner name ++ ['%'], rest) := by
    rw [List.append_assoc]
    exact specialRun?_append hinner rest
  have hbackslash : '%' ≠ '\\' := by decide
  unfold readWord
  simp only [hstarts, Bool.false_eq_true, if_false, hbackslash, if_true, hrun, ← hname,
    String.ofList_toList]

theorem readsAs_table {name : String} (hname : Operator.ofSpelling? name = some name)
    {rest : List Char} (hrest : ∀ c ∈ rest.head?, (!Operator.goesOn name c) = true) :
    ReadsAs (name.toList ++ rest) (.operator name) rest := by
  have table : ∀ s ∈ Operator.spellings, ∃ c ∈ operatorStarts, s.toList.head? = some c ∧
      c ≠ '%' := by decide
  obtain ⟨c, hc, hhead, hpercent⟩ := table name (Operator.mem_spellings hname)
  have hstops : ∀ c ∈ rest.head?, Operator.goesOn name c = false := by simpa using hrest
  have hlongest := Operator.longest?_append hname hstops
  cases hchars : name.toList with
  | nil => rw [hchars] at hhead; cases hhead
  | cons d cs =>
    rw [hchars] at hhead hlongest
    obtain rfl : d = c := Option.some.inj hhead
    refine readsAs_operator hc ?_
    have facts : ∀ c ∈ operatorStarts, c ≠ '\\' ∧ Text.isLetter c = false ∧ c ≠ '.' := by decide
    obtain ⟨hbackslash, hletter, hpoint⟩ := facts d hc
    have hstarts := startsName_of_ne hpoint hletter (cs ++ rest)
    unfold readWord
    simp only [hstarts, Bool.false_eq_true, if_false, hbackslash, hpercent, ← List.cons_append,
      hlongest]

/-! ## All lexemes -/

theorem readsAs_delimiter {c : Char} {l : Lexeme} (h : delimiter? c = some l) (rest : List Char) :
    ReadsAs (c :: rest) l rest := by
  refine ⟨c, rest, rfl, ?_, ?_, ?_, ?_⟩
  · unfold delimiter? at h
    split at h
    all_goals first | rfl | cases h
  · rintro rfl
    cases h
  · rintro rfl
    cases h
  · unfold readLexeme
    simp only [h]

/-- A lexeme is read back from its text if it does not go on with what follows. -/
theorem readLexeme_spelling {l : Lexeme} (h : l.IsReadable) {rest : List Char}
    (hrest : ∀ c ∈ rest.head?, l.endsBefore c = true) : ReadsAs (l.spelling ++ rest) l rest := by
  cases l with
  | leftParen | rightParen | leftBrace | rightBrace | rightBracket | comma | semicolon =>
    exact readsAs_delimiter rfl rest
  | leftBracket =>
    refine ⟨'[', rest, rfl, by decide, by decide, by decide, ?_⟩
    cases rest with
    | nil => rfl
    | cons c rest =>
      have : c ≠ '[' := by simpa [Lexeme.endsBefore] using hrest c rfl
      have hdelimiter : delimiter? '[' = none := rfl
      unfold readLexeme
      simp only [hdelimiter, if_true]
      split
      · next heq => exact absurd (List.cons.inj heq).1 this
      · rfl
  | leftDouble => exact ⟨'[', '[' :: rest, rfl, by decide, by decide, by decide, rfl⟩
  | integer n =>
    have hread := Numeral.read_integer h (stopsName_of_forall hrest)
    refine readsAs_number ?_ hread
    obtain ⟨c, more, -, -, hstart, -, hc, -⟩ := (Numeral.isNumber_toDigits n).ends
    exact ⟨c, more ++ ['L'], congrArg (· ++ ['L']) hstart, hc⟩
  | double x =>
    obtain ⟨hfinite, hsign⟩ := h
    have hread := Numeral.read_double hfinite hsign (stopsName_of_forall hrest)
    refine readsAs_number ?_ hread
    obtain ⟨n, e, hnumber, -⟩ := Numeral.exists_isNumber_double hfinite
    obtain ⟨c, more, -, -, hstart, -, hc, -⟩ := hnumber.ends
    exact ⟨c, more, hstart, hc⟩
  | text s => exact readsAs_text s rest
  | constant k =>
    have := readsAs_reserved (constant_isWord k) (stopsWord_of_forall hrest)
    cases k <;> exact this
  | symbol name =>
    rw [show (Lexeme.symbol name).spelling = Spelling.name name from rfl, Spelling.name]
    split
    · next hname =>
      refine readsAs_syntacticName hname (stopsWord_of_forall fun c hc => ?_)
      simpa [Lexeme.endsBefore, hname] using hrest c hc
    · exact readsAs_quotedName h rest
  | keyword k =>
    have := readsAs_reserved (keyword_isWord k) (stopsWord_of_forall hrest)
    cases k <;> exact this
  | operator name =>
    rcases h with htable | ⟨hspecial, hinner⟩
    · exact readsAs_table htable hrest
    · exact readsAs_special hspecial hinner rest
  | newline => cases h

/-- A lexeme at the start of a text is its first token, and the scan goes on behind it. -/
theorem TokenText.scan_readsAs {cs rest : List Char} {l : Lexeme} (h : ReadsAs cs l rest)
    (p : Position) (afterBreak : Bool) :
    scan p afterBreak cs =
      (scan (p.after (upTo cs rest)) false rest).map
        fun t => { t with tokens := ⟨l, p⟩ :: t.tokens } := by
  obtain ⟨c, after, rfl, hblank, hcomment, hbreak, hread⟩ := h
  rw [scan, hblank, if_neg hcomment, if_neg hbreak]
  simp only [Bool.false_eq_true, if_false]
  split
  · next fault heq => rw [hread] at heq; cases heq
  · next lexeme rest' heq =>
    rw [hread] at heq
    cases heq
    rfl

end RCode
