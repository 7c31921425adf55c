import RCode.Operator
import RCode.Token.Numeral

/-!
# Splitting a text into tokens

What a token is does not depend on where it stands: `readLexeme` looks at the text from the token on
and at nothing before it. `TokenText.scan` puts lexemes in a row, skips blanks and comments between
them, merges line breaks that follow each other, and keeps count of the position.
-/

set_option autoImplicit false

namespace RCode

/-- Blanks separate tokens and are no tokens themselves. -/
def isBlank (c : Char) : Bool :=
  c == ' ' || c == '\t' || c == '\r' || c == '\x0c'

/-- The character starts a name when `rest` follows it. -/
def startsName (c : Char) (rest : List Char) : Bool :=
  if c = '.' then
    match rest with
    | [] => true
    | next :: _ => !Text.isDigit next
  else Text.isLetter c

/-- The lexeme of a word: a keyword, a named constant or a symbol. -/
def ofWord (word : String) : Lexeme :=
  match Keyword.ofWord? word with
  | some k => .keyword k
  | none =>
    match NamedConstant.ofWord? word with
    | some c => .constant c
    | none => .symbol word

/-- The text of a `%name%` operator after the first percent sign, its end included. -/
def specialRun? : List Char → Option (List Char × List Char)
  | [] => none
  | c :: rest =>
    if c = '%' then some ([c], rest)
    else if c = '\n' then none
    else (specialRun? rest).map fun (chars, after) => (c :: chars, after)

theorem specialRun?_length {cs : List Char} {r : List Char × List Char}
    (h : specialRun? cs = some r) : r.2.length < cs.length := by
  induction cs generalizing r with
  | nil => cases h
  | cons c rest ih =>
    simp only [specialRun?] at h
    split at h
    · cases h; exact Nat.lt_succ_self _
    · split at h
      · cases h
      · obtain ⟨q, hq, rfl⟩ := Option.map_eq_some_iff.mp h
        have := ih hq
        exact Nat.lt_succ_of_lt this

/-- A lexeme of a single character. -/
def delimiter? : Char → Option Lexeme
  | '(' => some .leftParen
  | ')' => some .rightParen
  | '\x7b' => some .leftBrace
  | '\x7d' => some .rightBrace
  | ']' => some .rightBracket
  | ',' => some .comma
  | ';' => some .semicolon
  | _ => none

/-- The lexeme of a name, a word or an operator that starts with `c`. -/
def readWord (c : Char) (rest : List Char) : Except LexicalFault (Lexeme × List Char) :=
  let cs := c :: rest
  if startsName c rest then
    .ok (ofWord (String.ofList (c :: rest.takeWhile Numeral.isNameChar)),
      rest.dropWhile Numeral.isNameChar)
  else if c = '\\' then .ok (.keyword .functionWord, rest)
  else if c = '%' then
    match specialRun? rest with
    | some (chars, after) => .ok (.operator (String.ofList (c :: chars)), after)
    | none => .error ⟨.unterminatedOperator, cs⟩
  else
    match Operator.longest? cs with
    | some (name, after) => .ok (.operator name, after)
    | none => .error ⟨.unexpected c, cs⟩

theorem readWord_length {c : Char} {rest : List Char} {r : Lexeme × List Char}
    (h : readWord c rest = .ok r) : r.2.length ≤ rest.length := by
  unfold readWord at h
  dsimp only at h
  split at h
  · cases h; exact (List.dropWhile_suffix _).length_le
  · split at h
    · cases h; exact Nat.le_refl _
    · split at h
      · split at h
        · next chars after hrun => cases h; exact Nat.le_of_lt (specialRun?_length hrun)
        · cases h
      · split at h
        · next name after hop => cases h; exact Nat.le_of_lt_succ (Operator.longest?_length hop)
        · cases h

/-- The lexeme at the start of a text, and the text after it. The first character is neither a
blank nor a line break and starts no comment. -/
def readLexeme (c : Char) (rest : List Char) : Except LexicalFault (Lexeme × List Char) :=
  let cs := c :: rest
  match delimiter? c with
  | some l => .ok (l, rest)
  | none =>
    if c = '[' then
      match rest with
      | '[' :: after => .ok (.leftDouble, after)
      | _ => .ok (.leftBracket, rest)
    else if c = '"' ∨ c = '\'' then
      (Literal.quotedRun c ⟨.unterminatedText, cs⟩ rest).map fun (chars, after) =>
        (.text (String.ofList chars), after)
    else if c = '`' then
      match Literal.quotedRun c ⟨.unterminatedName, cs⟩ rest with
      | .error e => .error e
      | .ok ([], _) => .error ⟨.emptyName, cs⟩
      | .ok (chars, after) => .ok (.symbol (String.ofList chars), after)
    else
      match rest with
      | next :: body =>
        if (c = 'r' ∨ c = 'R') ∧ (next = '"' ∨ next = '\'') then
          (Literal.rawText cs next body).map fun (chars, after) =>
            (.text (String.ofList chars), after)
        else if Text.isDigit c || (c == '.' && Text.isDigit next) then Numeral.read cs
        else readWord c rest
      | [] => if Text.isDigit c then Numeral.read cs else readWord c rest

theorem readLexeme_length {c : Char} {rest : List Char} {r : Lexeme × List Char}
    (h : readLexeme c rest = .ok r) : r.2.length < (c :: rest).length := by
  refine Nat.lt_succ_of_le ?_
  unfold readLexeme at h
  dsimp only at h
  split at h
  · cases h; exact Nat.le_refl _
  · split at h
    · split at h <;> cases h
      · exact Nat.le_succ _
      · exact Nat.le_refl _
    · split at h
      · obtain ⟨q, hq, rfl⟩ := Literal.map_eq_ok h
        exact Nat.le_of_lt (Literal.quotedRun_length hq)
      · split at h
        · split at h
          · cases h
          · cases h
          · next hq => cases h; exact Nat.le_of_lt (Literal.quotedRun_length hq)
        · split at h
          · split at h
            · obtain ⟨q, hq, rfl⟩ := Literal.map_eq_ok h
              exact Nat.le_succ_of_le (Literal.rawText_length hq)
            · split at h
              · exact Nat.le_of_lt_succ (Numeral.read_length h)
              · exact readWord_length h
          · split at h
            · exact Nat.le_of_lt_succ (Numeral.read_length h)
            · exact readWord_length h

namespace TokenText

/-- The characters of a text before its end `rest`. -/
def upTo (cs rest : List Char) : List Char :=
  cs.take (cs.length - rest.length)

/-- The tokens of a text that starts at `p`. After a line break (`afterBreak`) further ones are no
tokens. -/
def scan (p : Position) (afterBreak : Bool) (cs : List Char) :
    Except (LexicalProblem × Position) TokenText :=
  match cs with
  | [] => .ok ⟨[], p⟩
  | c :: rest =>
    if isBlank c then scan (p.next c) afterBreak rest
    else if c = '#' then
      scan (p.after ((c :: rest).takeWhile (· != '\n'))) afterBreak (rest.dropWhile (· != '\n'))
    else if c = '\n' then
      if afterBreak then scan (p.next c) true rest
      else (scan (p.next c) true rest).map fun t => { t with tokens := ⟨.newline, p⟩ :: t.tokens }
    else
      match _h : readLexeme c rest with
      | .error fault => .error (fault.problem, p.after (upTo (c :: rest) fault.rest))
      | .ok (lexeme, after) =>
        (scan (p.after (upTo (c :: rest) after)) false after).map
          fun t => { t with tokens := ⟨lexeme, p⟩ :: t.tokens }
termination_by cs.length
decreasing_by
  · exact Nat.lt_succ_self _
  · exact Nat.lt_succ_of_le (List.dropWhile_suffix _).length_le
  · exact Nat.lt_succ_self _
  · exact Nat.lt_succ_self _
  · exact readLexeme_length ‹_›

/-- The tokens of a text. -/
def ofText (text : String) : Except (LexicalProblem × Position) TokenText :=
  scan .start false text.toList

end TokenText

end RCode
