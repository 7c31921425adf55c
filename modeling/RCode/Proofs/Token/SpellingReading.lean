import RCode.Proofs.Token.Insertion
import RCode.Proofs.Token.Tiling

/-!
# Names and texts are read as they were spelled

A name is read back from its spelling, and without backticks from nothing but a word that is neither a
keyword nor a constant (`TokenText.name_reread`). A text is read back from between quotes, and from
every raw form whose terminator does not occur in it (`TokenText.text_reread`). Whatever follows, the
spelling is what the first token takes.
-/

set_option autoImplicit false

namespace RCode

open Numeral (isNameChar)

/-! ## Names without backticks -/

/-- The missing values, which are read as names but are not written as such. -/
def missingNames : List String :=
  ["NA", "NA_integer_", "NA_real_", "NA_character_"]

theorem IsWord.isNameChar {c : Char} {cs : List Char} (h : IsWord c cs) :
    ∀ d ∈ c :: cs, isNameChar d = true := by
  refine List.forall_mem_cons.mpr ⟨?_, h.all⟩
  rcases isLetter_of_startsName h.starts with rfl | hletter
  · decide
  · simp only [Numeral.isNameChar, Text.isAlphanumeric, hletter, Bool.true_or]

theorem isWord_of_missing {name : String} (h : name ∈ missingNames) :
    ∃ c cs, name.toList = c :: cs ∧ IsWord c cs ∧ ofWord name = .symbol name := by
  simp only [missingNames, List.mem_cons, List.not_mem_nil, or_false] at h
  rcases h with rfl | rfl | rfl | rfl <;>
    exact ⟨_, _, rfl, ⟨by decide, by decide⟩, ofWord_eq_symbol_iff.mpr ⟨rfl, by decide⟩⟩

/-- The words that stand for themselves are the syntactic names and the missing values. -/
theorem isSyntacticName_or_missing {name : String} :
    isSyntacticName name = true ∨ name ∈ missingNames ↔
      ∃ c cs, name.toList = c :: cs ∧ IsWord c cs ∧ ofWord name = .symbol name := by
  constructor
  · rintro (h | h)
    · exact isWord_of_isSyntacticName h
    · exact isWord_of_missing h
  · rintro ⟨c, cs, hname, hword, hsymbol⟩
    by_cases hmissing : name ∈ missingNames
    · exact .inr hmissing
    · have hreserved : name ∉ reservedWords := fun hmem =>
        (List.mem_append.mp hmem).elim (ofWord_eq_symbol_iff.mp hsymbol).2 hmissing
      refine .inl ?_
      simp only [isSyntacticName, hname, hword.starts, decide_eq_true hreserved, Bool.and_true,
        Bool.true_and]
      exact List.all_eq_true.mpr hword.isNameChar

/-! ## What a name is read from -/

theorem Numeral.read_ne_symbol {cs after : List Char} {name : String} :
    read cs ≠ .ok (.symbol name, after) := by
  intro h
  rcases read_cases h with ⟨n, heq, -⟩ | ⟨value, rest, heq, -⟩
  · cases heq
  · cases heq

/-- A name is read from a word or from between backticks. -/
theorem readLexeme_symbol {c : Char} {rest after : List Char} {name : String}
    (h : readLexeme c rest = .ok (.symbol name, after)) :
    (∃ unterminated, Literal.quotedRun '`' unterminated rest = .ok (name.toList, after)) ∨
      readWord c rest = .ok (.symbol name, after) := by
  unfold readLexeme at h
  dsimp only at h
  split at h
  · next hdelimiter =>
    obtain ⟨rfl, -⟩ := Prod.mk.inj (Except.ok.inj h)
    unfold delimiter? at hdelimiter
    split at hdelimiter <;> cases hdelimiter
  · split at h
    · split at h <;> cases h
    · split at h
      · obtain ⟨q, -, heq⟩ := Literal.map_eq_ok h
        cases heq
      · split at h
        · next hbacktick =>
          subst hbacktick
          split at h
          · cases h
          · cases h
          · next hrun =>
            cases h
            refine .inl ⟨⟨.unterminatedName, '`' :: rest⟩, ?_⟩
            rw [String.toList_ofList]
            exact hrun
        · split at h
          · split at h
            · obtain ⟨q, -, heq⟩ := Literal.map_eq_ok h
              cases heq
            · split at h
              · exact absurd h Numeral.read_ne_symbol
              · exact .inr h
          · split at h
            · exact absurd h Numeral.read_ne_symbol
            · exact .inr h

/-- What is read as a word is a word that stands for itself. -/
theorem readWord_symbol {c : Char} {rest after : List Char} {name : String}
    (h : readWord c rest = .ok (.symbol name, after)) :
    ∃ cs, cs ++ after = rest ∧ name.toList = c :: cs ∧ startsName c rest = true ∧
      (∀ d ∈ cs, isNameChar d = true) ∧ ofWord name = .symbol name := by
  unfold readWord at h
  dsimp only at h
  split at h
  · next hstarts =>
    obtain ⟨hword, rfl⟩ := Prod.mk.inj (Except.ok.inj h)
    obtain ⟨rfl, -⟩ := ofWord_eq_symbol_iff.mp hword
    exact ⟨_, List.takeWhile_append_dropWhile, String.toList_ofList, hstarts,
      fun d hd => List.mem_takeWhile_imp hd, hword⟩
  · split at h
    · cases h
    · split at h
      · split at h <;> cases h
      · split at h <;> cases h

/-- A name takes just its own characters, as a word, or more than it has. -/
theorem ReadsAs.symbol_cases {cs : List Char} {name : String} (h : ReadsAs cs (.symbol name) []) :
    (cs = name.toList ∧ (isSyntacticName name = true ∨ name ∈ missingNames)) ∨
      name.toList.length < cs.length := by
  obtain ⟨c, rest, rfl, -, -, -, hread⟩ := h
  rcases readLexeme_symbol hread with ⟨unterminated, hrun⟩ | hword
  -- between backticks there are as many characters as the name has, at least
  · have := Literal.quotedRun_length_lt hrun
    refine .inr ?_
    rw [List.length_cons]
    simp only [List.length_nil, Nat.add_zero] at this
    exact Nat.lt_succ_of_lt this
  · obtain ⟨cs, rfl, hname, hstarts, hall, hsymbol⟩ := readWord_symbol hword
    rw [List.append_nil] at hstarts ⊢
    exact .inl ⟨hname.symm, isSyntacticName_or_missing.mpr ⟨c, cs, hname, ⟨hstarts, hall⟩, hsymbol⟩⟩

theorem stopsWord_nil : StopsWord [] :=
  stopsWord_of_forall (by decide)

theorem readsAs_bare_iff {name : String} :
    ReadsAs name.toList (.symbol name) [] ↔ isSyntacticName name = true ∨ name ∈ missingNames := by
  constructor
  · intro h
    rcases h.symbol_cases with ⟨-, hbare⟩ | hlt
    · exact hbare
    · exact absurd hlt (Nat.lt_irrefl _)
  · intro h
    obtain ⟨c, cs, hname, hword, hsymbol⟩ := isSyntacticName_or_missing.mp h
    have hread := readsAs_word hword stopsWord_nil
    rw [List.append_nil, ← hname, String.ofList_toList, hsymbol] at hread
    exact hread

namespace TokenText

/-! ## The first token of a text -/

/-- The first lexeme takes its characters, and the rest is scanned from behind them. -/
theorem scan_append {cs rest : List Char} {l : Lexeme} (h : ReadsAs (cs ++ rest) l rest)
    (p : Position) (afterBreak : Bool) :
    scan p afterBreak (cs ++ rest) =
      (scan (p.after cs) false rest).map fun t => { t with tokens := ⟨l, p⟩ :: t.tokens } := by
  rw [scan_readsAs h, upTo_left]

theorem scan_alone {cs : List Char} {l : Lexeme} (h : ReadsAs cs l []) (p : Position)
    (afterBreak : Bool) : scan p afterBreak cs = .ok ⟨[⟨l, p⟩], p.after cs⟩ := by
  rw [← List.append_nil cs] at h ⊢
  rw [scan_append h, scan, List.append_nil]
  rfl

/-- The only token of a text is read from a part of the text. -/
theorem exists_readsAs {text : String} {t : TokenText} {l : Lexeme} (h : ofText text = .ok t)
    (htokens : t.tokens.map Token.lexeme = [l]) (hbreak : l ≠ .newline) :
    ∃ cs, ReadsAs cs l [] ∧ cs <:+: text.toList := by
  obtain ⟨tiles, last, htiles, htiled⟩ := (scans_of_scan h).tiled
  rw [← htiles, List.map_map] at htokens
  obtain ⟨tile, rfl, rfl⟩ := List.map_eq_singleton_iff.mp htokens
  generalize text.toList = cs at htiled
  cases htiled with
  | cons _ hlexeme =>
    -- only line breaks are not read from their characters
    have hplain : ¬ tile.isBreak = true := by
      intro hnewline
      unfold Tile.isBreak at hnewline
      split at hnewline
      · next heq => exact hbreak heq
      · cases hnewline
    rw [Tile.IsLexeme, if_neg hplain] at hlexeme
    exact ⟨tile.chars, hlexeme, tile.gap, _, rfl⟩

/-- A text that a lexeme fills is that lexeme and nothing else. -/
theorem ofText_alone {cs : List Char} {l : Lexeme} (h : ReadsAs cs l []) :
    ofText (String.ofList cs) = .ok ⟨[⟨l, .start⟩], Position.start.after cs⟩ := by
  rw [ofText, String.toList_ofList]
  exact scan_alone h .start false

/-! ## Names -/

/-- A name is read back from its spelling, whatever follows but what goes on with a word or turns it
into a raw text. Without backticks it is read from itself just if it is syntactic or a missing
value. -/
theorem name_reread (name : String) (hname : name ≠ "") :
    ofText (String.ofList (Spelling.name name)) =
        .ok ⟨[⟨.symbol name, .start⟩], Position.start.after (Spelling.name name)⟩ ∧
      (∀ rest : String, StopsWord rest.toList →
        ofText (String.ofList (Spelling.name name) ++ rest) =
          (scan (Position.start.after (Spelling.name name)) false rest.toList).map
            fun t => { t with tokens := ⟨.symbol name, .start⟩ :: t.tokens }) ∧
      ((ofText name).map (fun t => t.tokens.map Token.lexeme) = .ok [.symbol name] ↔
        isSyntacticName name = true ∨ name ∈ missingNames) := by
  have hread : ∀ rest, StopsWord rest →
      ReadsAs (Spelling.name name ++ rest) (.symbol name) rest := by
    intro rest hrest
    rw [Spelling.name]
    split
    · next hsyntactic => exact readsAs_syntacticName hsyntactic hrest
    · exact readsAs_quotedName hname rest
  have halone := hread [] stopsWord_nil
  rw [List.append_nil] at halone
  refine ⟨ofText_alone halone, fun rest hrest => ?_, ?_⟩
  · rw [ofText, String.toList_append, String.toList_ofList]
    exact scan_append (hread _ hrest) .start false
  · rw [← readsAs_bare_iff]
    constructor
    · intro h
      obtain ⟨t, ht, htokens⟩ := Literal.map_eq_ok h
      obtain ⟨cs, hcs, hinfix⟩ := exists_readsAs ht htokens (by rintro ⟨⟩)
      -- what the token takes is not longer than the name, so that it is the name as a word
      rcases hcs.symbol_cases with ⟨rfl, -⟩ | hlt
      · exact hcs
      · exact absurd hinfix.length_le (Nat.not_le.mpr hlt)
    · intro h
      have hscan := ofText_alone h
      rw [String.ofList_toList] at hscan
      rw [hscan]
      rfl

/-- A missing value is spelled as a quoted name, also in front of a bracket, and is read from itself
as well. -/
theorem name_reread_missing :
    "NA" ≠ "" ∧ isSyntacticName "NA" = false ∧ StopsWord ['('] ∧
      ofText "`NA`" = .ok ⟨[⟨.symbol "NA", ⟨1, 1⟩⟩], ⟨1, 5⟩⟩ ∧
      ofText "`NA`(" = .ok ⟨[⟨.symbol "NA", ⟨1, 1⟩⟩, ⟨.leftParen, ⟨1, 5⟩⟩], ⟨1, 6⟩⟩ ∧
      (ofText "NA").map (fun t => t.tokens.map Token.lexeme) = .ok [.symbol "NA"] := by
  have hname : "NA" ≠ "" := by decide
  have hstops : StopsWord ['('] := stopsWord_of_forall (by decide)
  have hquoted : Spelling.name "NA" = "`NA`".toList := by decide
  obtain ⟨halone, hfollowed, hbare⟩ := name_reread "NA" hname
  have hparen := hfollowed "(" hstops
  rw [hquoted] at halone hparen
  refine ⟨hname, by decide, hstops, halone, ?_, hbare.mpr (.inr (by decide))⟩
  refine hparen.trans ?_
  cbv

/-! ## Texts -/

/-- The text `cs` is a token by itself, and in front of any text that splits into tokens it is the
first one. What follows splits into the same lexemes as it does by itself. -/
def ReadsFirst (cs : List Char) (l : Lexeme) : Prop :=
  ofText (String.ofList cs) = .ok ⟨[⟨l, .start⟩], Position.start.after cs⟩ ∧
    ∀ (rest : String) (t : TokenText), ofText rest = .ok t →
      ∃ t', scan (Position.start.after cs) false rest.toList = .ok t' ∧
        ofText (String.ofList cs ++ rest) = .ok ⟨⟨l, .start⟩ :: t'.tokens, t'.stop⟩ ∧
        t'.tokens.map Token.lexeme = t.tokens.map Token.lexeme

theorem readsFirst {cs : List Char} {l : Lexeme} (h : ∀ rest, ReadsAs (cs ++ rest) l rest) :
    ReadsFirst cs l := by
  refine ⟨ofText_alone (List.append_nil cs ▸ h []), fun rest t ht => ?_⟩
  obtain ⟨us, stop, hus, hlexemes⟩ := (scans_of_scan ht).moved (Position.start.after cs)
  refine ⟨⟨us, stop⟩, hus.scan_eq, ?_, hlexemes⟩
  rw [ofText, String.toList_append, String.toList_ofList, scan_append (h _), hus.scan_eq]
  rfl

/-- No terminator with as many dashes as the text has characters occurs in it. -/
theorem exists_rawForm (form : Literal.RawForm) (s : String) :
    ∃ dashes, ¬ ({ form with dashes } : Literal.RawForm).terminator <:+: s.toList := by
  refine ⟨s.toList.length, fun hinfix => ?_⟩
  have hlength := hinfix.length_le
  simp only [Literal.RawForm.terminator, List.length_append, List.length_cons,
    List.length_replicate, List.length_nil] at hlength
  omega

/-- A text is read back from between quotes, and from a raw form that its characters do not end, which
there is for each kind of quotes and brackets. -/
theorem text_reread (s : String) :
    ReadsFirst (Spelling.text s) (.text s) ∧
      (∀ form : Literal.RawForm, ¬ form.terminator <:+: s.toList →
        ReadsFirst (form.spelling s) (.text s)) ∧
      ∀ form : Literal.RawForm, ∃ dashes,
        ReadsFirst (({ form with dashes } : Literal.RawForm).spelling s) (.text s) := by
  have hraw (form : Literal.RawForm) (h : ¬ form.terminator <:+: s.toList) :
      ReadsFirst (form.spelling s) (.text s) :=
    readsFirst (readsAs_rawText form h)
  refine ⟨readsFirst (readsAs_text s), hraw, fun form => ?_⟩
  obtain ⟨dashes, h⟩ := exists_rawForm form s
  exact ⟨dashes, hraw _ h⟩

/-- A closing bracket and a quote: in quotes the quote has a backslash, and in a raw text they stand
as they are, as they are no terminator without the dash. -/
theorem text_reread_bracket :
    let form : Literal.RawForm := ⟨'r', '"', '(', ')', 1, .inl rfl, .inl rfl, rfl⟩
    ¬ form.terminator <:+: ")\"".toList ∧
      ofText " x" = .ok ⟨[⟨.symbol "x", ⟨1, 2⟩⟩], ⟨1, 3⟩⟩ ∧
      ofText "\")\\\"\"" = .ok ⟨[⟨.text ")\"", ⟨1, 1⟩⟩], ⟨1, 6⟩⟩ ∧
      ofText "r\"-()\")-\"" = .ok ⟨[⟨.text ")\"", ⟨1, 1⟩⟩], ⟨1, 10⟩⟩ ∧
      ∃ t : TokenText, ofText "r\"-()\")-\" x" = .ok ⟨⟨.text ")\"", ⟨1, 1⟩⟩ :: t.tokens, t.stop⟩ ∧
        t.tokens.map Token.lexeme = [.symbol "x"] := by
  intro form
  have hterminator : ¬ form.terminator <:+: ")\"".toList := by decide
  have hrest : ofText " x" = .ok ⟨[⟨.symbol "x", ⟨1, 2⟩⟩], ⟨1, 3⟩⟩ := by cbv
  obtain ⟨hquoted, hraw, -⟩ := text_reread ")\""
  obtain ⟨halone, hfirst⟩ := hraw form hterminator
  obtain ⟨t, -, ht, hlexemes⟩ := hfirst " x" _ hrest
  exact ⟨hterminator, hrest, hquoted.1, halone, t, ht, hlexemes⟩

end TokenText

end RCode
