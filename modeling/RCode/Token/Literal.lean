import RCode.Token.Problem

/-!
# Quoted texts and names

Texts stand between single or double quotes and names between backticks; in both a backslash starts
an escape. Raw texts have no escapes: `r"--(...)--"` ends at the closing bracket that is followed by
as many dashes as the opening one follows, and the quote.

Texts are rows of Unicode scalar values. An escape by the code point of a surrogate is refused like
one by a number that is too large for a code point: there is no text that it could stand for.

Each reader returns what it read and the text after it, which is never longer than the text it was
given.
-/

set_option autoImplicit false

namespace RCode.Literal

/-- A mapped result is the image of a result. -/
theorem map_eq_ok {ε α β : Type} {f : α → β} {x : Except ε α} {b : β}
    (h : x.map f = .ok b) : ∃ a, x = .ok a ∧ f a = b := by
  cases x with
  | error e => cases h
  | ok a => cases h; exact ⟨a, rfl, rfl⟩

/-- The value of a hexadecimal digit. -/
def hexDigit? (c : Char) : Option Nat :=
  if '0' ≤ c ∧ c ≤ '9' then some (c.toNat - '0'.toNat)
  else if 'a' ≤ c ∧ c ≤ 'f' then some (c.toNat - 'a'.toNat + 10)
  else if 'A' ≤ c ∧ c ≤ 'F' then some (c.toNat - 'A'.toNat + 10)
  else none

/-- At most `limit` hexadecimal digits at the start of a text, and the text after them. -/
def hexRun : Nat → List Char → List Nat × List Char
  | 0, cs => ([], cs)
  | _ + 1, [] => ([], [])
  | limit + 1, c :: rest =>
    match hexDigit? c with
    | some d =>
      let (ds, after) := hexRun limit rest
      (d :: ds, after)
    | none => ([], c :: rest)

theorem hexRun_length (limit : Nat) (cs : List Char) :
    (hexRun limit cs).2.length ≤ cs.length := by
  fun_induction hexRun limit cs with
  | case1 => exact Nat.le_refl _
  | case2 => exact Nat.le_refl _
  | case3 limit c rest d h ds after heq ih =>
    simp only [heq] at ih
    exact Nat.le_succ_of_le ih
  | case4 => exact Nat.le_refl _

/-- The number with the given hexadecimal digits. -/
def ofHexDigits (digits : List Nat) : Nat :=
  digits.foldl (fun n d => 16 * n + d) 0

/-- The character a one-letter escape stands for. -/
def letterEscape? : Char → Option Char
  | 'n' => some '\n'
  | 't' => some '\t'
  | 'r' => some '\r'
  | '0' => some '\x00'
  | 'a' => some '\x07'
  | 'b' => some '\x08'
  | 'f' => some '\x0c'
  | 'v' => some '\x0b'
  | '\\' => some '\\'
  | '"' => some '"'
  | '\'' => some '\''
  | '`' => some '`'
  | ' ' => some ' '
  | _ => none

/-- The character with the given hexadecimal digits, read by the escape `letter` at `start`. -/
def codePoint (start : List Char) (letter : Char) (digits : List Nat) (after : List Char) :
    Except LexicalFault (Char × List Char) :=
  if digits.isEmpty then .error ⟨.noHexDigits letter, start⟩
  else
    let n := ofHexDigits digits
    if n.isValidChar then .ok (Char.ofNat n, after) else .error ⟨.noSuchCharacter n, start⟩

/-- An escape by code point of at most `limit` digits, which may stand in braces. -/
def longEscape (start : List Char) (letter : Char) (limit : Nat) (cs : List Char) :
    Except LexicalFault (Char × List Char) :=
  match cs with
  | '\x7b' :: inner =>
    match hexRun limit inner with
    | (digits, '\x7d' :: after) => codePoint start letter digits after
    | _ => .error ⟨.unclosedEscape, start⟩
  | _ =>
    let (digits, after) := hexRun limit cs
    codePoint start letter digits after

/-- The escape after a backslash; `start` is the text from the backslash on. -/
def escape (start : List Char) : List Char → Except LexicalFault (Char × List Char)
  | [] => .error ⟨.unterminatedEscape, start⟩
  | c :: rest =>
    match letterEscape? c with
    | some meant => .ok (meant, rest)
    | none =>
      if c = 'x' then
        let (digits, after) := hexRun 2 rest
        codePoint start c digits after
      else if c = 'u' then longEscape start c 4 rest
      else if c = 'U' then longEscape start c 8 rest
      else .error ⟨.unknownEscape c, start⟩

theorem codePoint_length {start : List Char} {letter : Char} {digits : List Nat}
    {after : List Char} {r : Char × List Char} (h : codePoint start letter digits after = .ok r) :
    r.2 = after := by
  unfold codePoint at h
  split at h
  · cases h
  · dsimp only at h
    split at h
    · cases h; rfl
    · cases h

theorem longEscape_length {start : List Char} {letter : Char} {limit : Nat} {cs : List Char}
    {r : Char × List Char} (h : longEscape start letter limit cs = .ok r) :
    r.2.length ≤ cs.length := by
  unfold longEscape at h
  split at h
  · next inner =>
    split at h
    · next digits after heq =>
      have := hexRun_length limit inner
      rw [heq] at this
      rw [codePoint_length h]
      simp only [List.length_cons] at this ⊢
      omega
    · cases h
  · have := hexRun_length limit cs
    rw [codePoint_length h]
    exact this

theorem escape_length {start cs : List Char} {r : Char × List Char}
    (h : escape start cs = .ok r) : r.2.length < cs.length := by
  cases cs with
  | nil => cases h
  | cons c rest =>
    simp only [escape] at h
    simp only [List.length_cons]
    split at h
    · cases h; exact Nat.lt_succ_self _
    · split at h
      · have := hexRun_length 2 rest
        rw [codePoint_length h]
        omega
      · split at h
        · exact Nat.lt_succ_of_le (longEscape_length h)
        · split at h
          · exact Nat.lt_succ_of_le (longEscape_length h)
          · cases h

/-- The characters up to the closing `quote`, and the text after it. `unterminated` is the fault
when there is none. -/
def quotedRun (quote : Char) (unterminated : LexicalFault) (cs : List Char) :
    Except LexicalFault (List Char × List Char) :=
  match cs with
  | [] => .error unterminated
  | c :: rest =>
    if c = quote then .ok ([], rest)
    else if c = '\\' then
      match _h : escape (c :: rest) rest with
      | .error e => .error e
      | .ok (meant, after) =>
        (quotedRun quote unterminated after).map fun (chars, after) => (meant :: chars, after)
    else (quotedRun quote unterminated rest).map fun (chars, after) => (c :: chars, after)
termination_by cs.length
decreasing_by
  · have := escape_length ‹_›
    simp only [List.length_cons] at this ⊢
    omega
  · exact Nat.lt_succ_self _

theorem quotedRun_length {quote : Char} {unterminated : LexicalFault} {cs : List Char}
    {r : List Char × List Char} (h : quotedRun quote unterminated cs = .ok r) :
    r.2.length < cs.length := by
  fun_induction quotedRun quote unterminated cs generalizing r with
  | case1 => cases h
  | case2 rest => cases h; exact Nat.lt_succ_self _
  | case3 => cases h
  | case4 rest _ meant after hescape ih =>
    obtain ⟨q, hq, rfl⟩ := map_eq_ok h
    have := escape_length hescape
    have := ih hq
    simp only [List.length_cons] at *
    omega
  | case5 c rest _ _ ih =>
    obtain ⟨q, hq, rfl⟩ := map_eq_ok h
    have := ih hq
    exact Nat.lt_succ_of_lt this

/-- The closing bracket of a raw text. -/
def closing? : Char → Option Char
  | '(' => some ')'
  | '[' => some ']'
  | '\x7b' => some '\x7d'
  | _ => none

/-- The characters before the first occurrence of a terminator, and the text after it. -/
def splitAt? (terminator : List Char) : List Char → Option (List Char × List Char)
  | [] => if terminator.isEmpty then some ([], []) else none
  | c :: rest =>
    if terminator.isPrefixOf (c :: rest) then some ([], (c :: rest).drop terminator.length)
    else (splitAt? terminator rest).map fun (chars, after) => (c :: chars, after)

theorem splitAt?_length {terminator cs : List Char} {r : List Char × List Char}
    (h : splitAt? terminator cs = some r) : r.2.length ≤ cs.length := by
  induction cs generalizing r with
  | nil =>
    simp only [splitAt?] at h
    split at h
    · cases h; exact Nat.le_refl _
    · cases h
  | cons c rest ih =>
    simp only [splitAt?] at h
    split at h
    · cases h; simp only [List.length_drop]; exact Nat.sub_le _ _
    · obtain ⟨q, hq, rfl⟩ := Option.map_eq_some_iff.mp h
      have := ih hq
      exact Nat.le_succ_of_le this

/-- The raw text after the letter and the quote; `start` is the text from the letter on. -/
def rawText (start : List Char) (quote : Char) (cs : List Char) :
    Except LexicalFault (List Char × List Char) :=
  let dashes := cs.takeWhile (· == '-')
  match cs.dropWhile (· == '-') with
  | [] => .error ⟨.malformedRawText, start⟩
  | opener :: body =>
    match closing? opener with
    | none => .error ⟨.malformedRawText, start⟩
    | some closer =>
      match splitAt? (closer :: dashes ++ [quote]) body with
      | some found => .ok found
      | none => .error ⟨.unterminatedRawText, start⟩

theorem rawText_length {start : List Char} {quote : Char} {cs : List Char}
    {r : List Char × List Char} (h : rawText start quote cs = .ok r) :
    r.2.length ≤ cs.length := by
  have hsuffix := (List.dropWhile_suffix (l := cs) (· == '-')).length_le
  unfold rawText at h
  dsimp only at h
  split at h
  · cases h
  · next opener body heq =>
    rw [heq] at hsuffix
    split at h
    · cases h
    · split at h
      · next found hfound =>
        cases h
        exact Nat.le_trans (splitAt?_length hfound) (Nat.le_trans (Nat.le_succ _) hsuffix)
      · cases h

end RCode.Literal
