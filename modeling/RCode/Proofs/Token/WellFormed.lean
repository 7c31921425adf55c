import RCode.Operator
import RCode.Token.Lexer

/-!
# What a text splits into

The tokens of a text carry no empty names and no integers out of range (`TokenText.wellFormed`).
-/

set_option autoImplicit false

namespace RCode

/-- A name is not empty, and an integer is in range. -/
def Lexeme.WellFormed : Lexeme → Prop
  | .symbol name => name ≠ ""
  | .integer n => n ≤ Atom.integerLimit
  | _ => True

/-- Every lexeme in the row of tokens is well formed. -/
def WellFormedTokens (ts : List Token) : Prop :=
  ∀ t ∈ ts, t.lexeme.WellFormed

theorem WellFormedTokens.suffix {ts us : List Token} (h : WellFormedTokens us) (hts : ts <:+ us) :
    WellFormedTokens ts :=
  fun t ht => h t (hts.mem ht)

/-! ## Lexemes -/

theorem ofList_cons_ne_empty (c : Char) (cs : List Char) : String.ofList (c :: cs) ≠ "" := by
  intro h
  have := congrArg String.toList h
  rw [String.toList_ofList] at this
  cases this

theorem wellFormed_ofWord {word : String} (h : word ≠ "") : (ofWord word).WellFormed := by
  unfold ofWord
  split
  · trivial
  · split
    · trivial
    · exact h

namespace Numeral

theorem toInteger?_le {x : Float} {n : Nat} (h : toInteger? x = some n) :
    n ≤ Atom.integerLimit := by
  unfold toInteger? at h
  split at h
  · next hrange =>
    cases h
    simp only [Bool.and_eq_true, decide_eq_true_eq] at hrange
    exact hrange.2
  · cases h

/-- A number is an integer in range or the double that stands before its suffix. -/
theorem read_cases {cs : List Char} {r : Lexeme × List Char} (h : read cs = .ok r) :
    (∃ n, r.1 = .integer n ∧ n ≤ Atom.integerLimit) ∨
      ∃ value rest, r.1 = .double value ∧ unsuffixed cs = .ok (value, rest) := by
  unfold read at h
  split at h
  · cases h
  · next value rest hvalue =>
    split at h
    · cases h
    · next lexeme after hlexeme =>
      split at h
      · cases h
      · cases h
        unfold suffixed at hlexeme
        split at hlexeme
        · split at hlexeme
          · next n hn => cases hlexeme; exact .inl ⟨n, rfl, toInteger?_le hn⟩
          · cases hlexeme; exact .inr ⟨_, _, rfl, hvalue⟩
        · cases hlexeme
        · cases hlexeme; exact .inr ⟨_, _, rfl, hvalue⟩

end Numeral

/-- A word is a keyword, a named constant or a symbol with a name, or it is an operator. -/
theorem readWord_cases {c : Char} {rest : List Char} {r : Lexeme × List Char}
    (h : readWord c rest = .ok r) :
    (∃ word, word ≠ "" ∧ r.1 = ofWord word) ∨ r.1 = .keyword .functionWord ∨
      ∃ name, r.1 = .operator name := by
  unfold readWord at h
  dsimp only at h
  split at h
  · cases h; exact .inl ⟨_, ofList_cons_ne_empty c _, rfl⟩
  · split at h
    · cases h; exact .inr (.inl rfl)
    · split at h
      · split at h
        · cases h; exact .inr (.inr ⟨_, rfl⟩)
        · cases h
      · split at h
        · cases h; exact .inr (.inr ⟨_, rfl⟩)
        · cases h

/-- What is read at the start of a text. -/
inductive IsRead (c : Char) (rest : List Char) : Lexeme → Prop where
  | delimiter {l : Lexeme} : delimiter? c = some l → IsRead c rest l
  | leftBracket : IsRead c rest .leftBracket
  | leftDouble : IsRead c rest .leftDouble
  | text (s : String) : IsRead c rest (.text s)
  | name {s : String} : s ≠ "" → IsRead c rest (.symbol s)
  | number {r : Lexeme × List Char} : Numeral.read (c :: rest) = .ok r → IsRead c rest r.1
  | word {r : Lexeme × List Char} : readWord c rest = .ok r → IsRead c rest r.1

theorem isRead_readLexeme {c : Char} {rest : List Char} {r : Lexeme × List Char}
    (h : readLexeme c rest = .ok r) : IsRead c rest r.1 := by
  unfold readLexeme at h
  dsimp only at h
  split at h
  · next hdelimiter => cases h; exact .delimiter hdelimiter
  · split at h
    · split at h
      · cases h; exact .leftDouble
      · cases h; exact .leftBracket
    · split at h
      · obtain ⟨q, -, rfl⟩ := Literal.map_eq_ok h
        exact .text _
      · split at h
        · split at h
          · cases h
          · cases h
          · next chars after hne hq =>
            cases h
            cases chars with
            | nil => exact (hne rfl).elim
            | cons d ds => exact .name (ofList_cons_ne_empty d ds)
        · split at h
          · split at h
            · obtain ⟨q, -, rfl⟩ := Literal.map_eq_ok h
              exact .text _
            · split at h
              · exact .number h
              · exact .word h
          · split at h
            · exact .number h
            · exact .word h

theorem IsRead.wellFormed {c : Char} {rest : List Char} {l : Lexeme} (h : IsRead c rest l) :
    l.WellFormed := by
  cases h with
  | delimiter h => unfold delimiter? at h; split at h <;> cases h <;> trivial
  | leftBracket | leftDouble | text => trivial
  | name h => exact h
  | number h =>
    rcases Numeral.read_cases h with ⟨n, hl, hn⟩ | ⟨value, _, hl, -⟩
    · rw [hl]; exact hn
    · rw [hl]; trivial
  | word h =>
    rcases readWord_cases h with ⟨word, hword, hl⟩ | hl | ⟨name, hl⟩
    · rw [hl]; exact wellFormed_ofWord hword
    · rw [hl]; trivial
    · rw [hl]; trivial

/-- Line breaks are not read as lexemes: the scan makes them itself. -/
theorem IsRead.ne_newline {c : Char} {rest : List Char} {l : Lexeme} (h : IsRead c rest l) :
    l ≠ .newline := by
  rintro rfl
  generalize hl : Lexeme.newline = l at h
  cases h with
  | delimiter h => subst hl; unfold delimiter? at h; split at h <;> cases h
  | leftBracket | leftDouble | text | name => cases hl
  | number h =>
    rcases Numeral.read_cases h with ⟨n, hn, -⟩ | ⟨value, _, hvalue, -⟩
    · rw [hn] at hl; cases hl
    · rw [hvalue] at hl; cases hl
  | word h =>
    rcases readWord_cases h with ⟨word, -, hword⟩ | hword | ⟨name, hname⟩
    · rw [hword, ofWord] at hl
      split at hl
      · cases hl
      · split at hl <;> cases hl
    · rw [hword] at hl; cases hl
    · rw [hname] at hl; cases hl

/-! ## Texts -/

namespace TokenText

/-- Each step of the scan adds at most one lexeme, which is well formed. -/
theorem wellFormed_scan {p : Position} {afterBreak : Bool} {cs : List Char} {t : TokenText}
    (h : scan p afterBreak cs = .ok t) : WellFormedTokens t.tokens := by
  fun_induction scan p afterBreak cs generalizing t with
  | case1 => cases h; exact fun t ht => absurd ht List.not_mem_nil
  | case2 _ _ _ _ _ ih => exact ih h
  | case3 _ _ _ _ ih => exact ih h
  | case4 _ _ _ _ ih => exact ih h
  | case5 _ _ _ _ _ _ ih =>
    obtain ⟨t', ht', rfl⟩ := Literal.map_eq_ok h
    exact List.forall_mem_cons.mpr ⟨trivial, ih ht'⟩
  | case6 => cases h
  | case7 _ _ _ _ _ _ _ _ _ hread ih =>
    obtain ⟨t', ht', rfl⟩ := Literal.map_eq_ok h
    exact List.forall_mem_cons.mpr ⟨(isRead_readLexeme hread).wellFormed, ih ht'⟩

/-- The tokens of a text are well formed. -/
theorem wellFormed {text : String} {t : TokenText} (h : ofText text = .ok t) :
    WellFormedTokens t.tokens :=
  wellFormed_scan h

end TokenText

end RCode
