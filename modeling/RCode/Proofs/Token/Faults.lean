import RCode.Proofs.Failure
import RCode.Proofs.Token.Joining
import RCode.Proofs.Token.Locality

/-!
# Why a text does not split into tokens

The problem of a text that does not split into tokens lies at a place of the text
(`TokenText.scan_faults`). All problems but two are reported there. Those two are numbers out of range:
the text writes the code point of no character there, or a hexadecimal number too large for a double.
-/

set_option autoImplicit false

namespace RCode

/-! ## Numbers out of range -/

namespace Literal

/-- The most digits that an escape by code point takes. -/
def longLimit? : Char → Option Nat
  | 'u' => some 4
  | 'U' => some 8
  | _ => none

/-- The text starts with an escape by code point, in braces or not, of the code point `n`. -/
inductive EscapesTo (n : Nat) : List Char → Prop where
  | plain {letter : Char} {limit : Nat} {rest : List Char} :
      longLimit? letter = some limit → ofHexDigits (hexRun limit rest).1 = n →
        EscapesTo n ('\\' :: letter :: rest)
  | braced {letter : Char} {limit : Nat} {digits : List Nat} {inner after : List Char} :
      longLimit? letter = some limit → hexRun limit inner = (digits, '\x7d' :: after) →
        ofHexDigits digits = n → EscapesTo n ('\\' :: letter :: '\x7b' :: inner)

end Literal

/-- The text starts with the hexadecimal number `n`. -/
def Numeral.WritesHexadecimal (n : Nat) (cs : List Char) : Prop :=
  ∃ x rest, cs = '0' :: x :: rest ∧ (x = 'x' ∨ x = 'X') ∧
    Literal.ofHexDigits (Literal.hexRun rest.length rest).1 = n

namespace LexicalProblem

/-- The problem is one of the text, not of the range of a type. -/
def isReported : LexicalProblem → Bool
  | .noSuchCharacter _ => false
  | .hexNumberTooLarge => false
  | _ => true

/-- The problem is a number out of range, and the text starts with that number. -/
def IsOutOfRange (cs : List Char) : LexicalProblem → Prop
  | .noSuchCharacter n => Literal.EscapesTo n cs ∧ ¬ n.isValidChar
  | .hexNumberTooLarge => ∃ n : Nat, Numeral.WritesHexadecimal n cs ∧ Double.ofInt? n = none
  | _ => False

end LexicalProblem

/-- The fault lies in the text. -/
structure LexicalFault.IsFaultOf (cs : List Char) (fault : LexicalFault) : Prop where
  suffix : fault.rest <:+ cs
  range : fault.problem.isReported = true ∨ fault.problem.IsOutOfRange fault.rest

namespace LexicalFault

theorem IsFaultOf.mono {cs ds : List Char} {fault : LexicalFault} (h : fault.IsFaultOf cs)
    (hsuffix : cs <:+ ds) : fault.IsFaultOf ds :=
  ⟨h.suffix.trans hsuffix, h.range⟩

/-- A problem that is reported where the text starts. -/
theorem isFaultOf_start {problem : LexicalProblem} (h : problem.isReported = true)
    (cs : List Char) : LexicalFault.IsFaultOf cs ⟨problem, cs⟩ :=
  ⟨List.suffix_refl cs, .inl h⟩

end LexicalFault

open LexicalFault (IsFaultOf isFaultOf_start)

/-! ## Escapes -/

namespace Literal

theorem hexDigit?_lt {c : Char} {d : Nat} (h : hexDigit? c = some d) : d < 16 := by
  have h0 : '0'.toNat = 48 := rfl
  have ha : 'a'.toNat = 97 := rfl
  have hA : 'A'.toNat = 65 := rfl
  unfold hexDigit? at h
  split at h
  · next hrange =>
    cases h
    have : c.toNat ≤ 57 := hrange.2
    omega
  · split at h
    · next hrange =>
      cases h
      have : c.toNat ≤ 102 := hrange.2
      omega
    · split at h
      · next hrange =>
        cases h
        have : c.toNat ≤ 70 := hrange.2
        omega
      · cases h

/-- At most `limit` digits follow the number `n`. -/
theorem foldl_hexRun_lt (limit : Nat) (cs : List Char) (n : Nat) :
    (hexRun limit cs).1.foldl (fun n d => 16 * n + d) n < (n + 1) * 16 ^ limit := by
  have hnone : ∀ limit n : Nat, n < (n + 1) * 16 ^ limit := fun limit n =>
    Nat.lt_of_lt_of_le (Nat.lt_succ_self n) (Nat.le_mul_of_pos_right _ (Nat.pow_pos (by decide)))
  fun_induction hexRun limit cs generalizing n with
  | case1 => exact hnone 0 n
  | case2 limit => exact hnone (limit + 1) n
  | case3 limit c rest d hd ds after heq ih =>
    have hd := hexDigit?_lt hd
    rw [heq] at ih
    calc ds.foldl (fun n d => 16 * n + d) (16 * n + d)
        < (16 * n + d + 1) * 16 ^ limit := ih _
      _ ≤ ((n + 1) * 16) * 16 ^ limit := Nat.mul_le_mul_right _ (by omega)
      _ = (n + 1) * 16 ^ (limit + 1) := by rw [Nat.mul_assoc, Nat.pow_succ, Nat.mul_comm 16]
  | case4 limit => exact hnone (limit + 1) n

/-- Two digits never name a code point without a character. -/
theorem isValidChar_two (cs : List Char) : (ofHexDigits (hexRun 2 cs).1).isValidChar := by
  have : ofHexDigits (hexRun 2 cs).1 < (0 + 1) * 16 ^ 2 := foldl_hexRun_lt 2 cs 0
  exact .inl (by omega)

/-- A code point that no character has is written at the start of its escape. -/
theorem codePoint_faults {start : List Char} {letter : Char} {digits : List Nat} {after : List Char}
    (h : ¬ (ofHexDigits digits).isValidChar → EscapesTo (ofHexDigits digits) start) :
    FailsOnly (IsFaultOf start) (codePoint start letter digits after) := by
  unfold codePoint
  split
  · exact .error (isFaultOf_start rfl start)
  · dsimp only
    split
    · exact .ok _
    · next hvalid => exact .error ⟨List.suffix_refl start, .inr ⟨h hvalid, hvalid⟩⟩

theorem longEscape_faults {letter : Char} {limit : Nat} (h : longLimit? letter = some limit)
    (cs : List Char) : FailsOnly (IsFaultOf ('\\' :: letter :: cs))
      (longEscape ('\\' :: letter :: cs) letter limit cs) := by
  unfold longEscape
  split
  · split
    · next heq => exact codePoint_faults fun _ => .braced h heq rfl
    · exact .error (isFaultOf_start rfl _)
  · exact codePoint_faults fun _ => .plain h rfl

/-- The fault of an escape lies at its backslash. -/
theorem escape_faults (cs : List Char) :
    FailsOnly (IsFaultOf ('\\' :: cs)) (escape ('\\' :: cs) cs) := by
  unfold escape
  split
  · exact .error (isFaultOf_start rfl _)
  · next c rest =>
    split
    · exact .ok _
    · split
      -- `\x` takes two digits, the other escapes take more
      · exact codePoint_faults fun hvalid => absurd (isValidChar_two rest) hvalid
      · split
        · next hu => subst hu; exact longEscape_faults rfl rest
        · split
          · next hU => subst hU; exact longEscape_faults rfl rest
          · exact .error (isFaultOf_start rfl _)

/-! ## Quoted and raw texts -/

theorem quotedRun_faults {quote : Char} {unterminated : LexicalFault} {cs ds : List Char}
    (hquote : unterminated.IsFaultOf ds) (hcs : cs <:+ ds) :
    FailsOnly (IsFaultOf ds) (quotedRun quote unterminated cs) := by
  fun_induction quotedRun quote unterminated cs with
  | case1 => exact .error hquote
  | case2 => exact .ok _
  -- an escape is at fault at its own backslash, whatever quote was opened before it
  | case3 rest e _ hescape => exact .error ((escape_faults rest e hescape).mono hcs)
  | case4 rest _ meant after hescape ih =>
    have hafter := (escape_local hescape []).suffix.trans (List.suffix_cons '\\' rest)
    exact (ih (hafter.trans hcs)).map _
  | case5 c rest _ _ ih => exact (ih ((List.suffix_cons c rest).trans hcs)).map _

theorem rawText_faults (start : List Char) (quote : Char) (cs : List Char) :
    FailsOnly (IsFaultOf start) (rawText start quote cs) := by
  unfold rawText
  dsimp only
  split
  · exact .error (isFaultOf_start rfl start)
  · split
    · exact .error (isFaultOf_start rfl start)
    · split
      · exact .ok _
      · exact .error (isFaultOf_start rfl start)

end Literal

/-! ## Numbers -/

namespace Numeral

theorem decimal_faults (cs : List Char) :
    FailsOnly (IsFaultOf cs) (unsuffixed.decimal cs) := by
  unfold unsuffixed.decimal
  dsimp only
  split
  · exact .ok _
  · exact .error (isFaultOf_start rfl cs)

theorem hexadecimal_faults {start : List Char} {digits : List Nat}
    (h : WritesHexadecimal (Literal.ofHexDigits digits) start) :
    FailsOnly (IsFaultOf start) (hexadecimal start digits) := by
  unfold hexadecimal
  split
  · exact .error (isFaultOf_start rfl start)
  · split
    · exact .ok _
    · next hrange => exact .error ⟨List.suffix_refl start, .inr ⟨_, h, hrange⟩⟩

theorem unsuffixed_faults (cs : List Char) : FailsOnly (IsFaultOf cs) (unsuffixed cs) := by
  unfold unsuffixed
  split
  · next x rest =>
    split
    · next hx => exact (hexadecimal_faults ⟨x, rest, rfl, hx, rfl⟩).map _
    · exact decimal_faults _
  · exact decimal_faults cs

theorem suffixed_faults (start : List Char) (value : Float) (cs : List Char) :
    FailsOnly (IsFaultOf start) (suffixed start value cs) := by
  unfold suffixed
  split
  · split
    · exact .ok _
    · exact .ok _
  · exact .error (isFaultOf_start rfl start)
  · exact .ok _

theorem read_faults (cs : List Char) : FailsOnly (IsFaultOf cs) (read cs) := by
  unfold read
  split
  · next e he => exact .error (unsuffixed_faults cs e he)
  · next value rest hvalue =>
    split
    · next e he => exact .error (suffixed_faults cs value rest e he)
    · next after hlexeme =>
      split
      -- the character after the number is at fault
      · have hafter := (suffixed_local hlexeme cs).suffix.trans (unsuffixed_local hvalue).suffix
        exact .error ⟨hafter, .inl rfl⟩
      · exact .ok _

end Numeral

/-! ## Lexemes -/

theorem readWord_faults (c : Char) (rest : List Char) :
    FailsOnly (IsFaultOf (c :: rest)) (readWord c rest) := by
  unfold readWord
  dsimp only
  split
  · exact .ok _
  · split
    · exact .ok _
    · split
      · split
        · exact .ok _
        · exact .error (isFaultOf_start rfl _)
      · split
        · exact .ok _
        · exact .error (isFaultOf_start rfl _)

theorem readPlain_faults (c : Char) (rest : List Char) :
    FailsOnly (IsFaultOf (c :: rest)) (readPlain c rest) := by
  unfold readPlain
  split
  · split
    · exact (Literal.rawText_faults _ _ _).map _
    · split
      · exact Numeral.read_faults _
      · exact readWord_faults _ _
  · split
    · exact Numeral.read_faults _
    · exact readWord_faults _ _

theorem readLexeme_faults (c : Char) (rest : List Char) :
    FailsOnly (IsFaultOf (c :: rest)) (readLexeme c rest) := by
  by_cases hplain : delimiter? c = none ∧ c ≠ '[' ∧ ¬ (c = '"' ∨ c = '\'') ∧ c ≠ '`'
  · obtain ⟨hdelimiter, hbracket, hquote, hbacktick⟩ := hplain
    rw [readLexeme_eq_plain hdelimiter hbracket hquote hbacktick]
    exact readPlain_faults c rest
  · have hrest := List.suffix_cons c rest
    unfold readLexeme
    dsimp only
    split
    · exact .ok _
    · next hdelimiter =>
      split
      · split
        · exact .ok _
        · exact .ok _
      · next hbracket =>
        split
        · exact (Literal.quotedRun_faults (isFaultOf_start rfl _) hrest).map _
        · next hquote =>
          split
          · split
            · next e he =>
              exact .error (Literal.quotedRun_faults (isFaultOf_start rfl _) hrest e he)
            · exact .error (isFaultOf_start rfl _)
            · exact .ok _
          · next hbacktick => exact absurd ⟨hdelimiter, hbracket, hquote, hbacktick⟩ hplain

/-! ## Texts -/

namespace TokenText

/-- The problem lies behind a part of the text that starts at `p`, and what follows explains it. -/
def FaultAt (p : Position) (cs : List Char) (fault : LexicalProblem × Position) : Prop :=
  ∃ pre post, pre ++ post = cs ∧ fault.2 = p.after pre ∧
    (fault.1.isReported = true ∨ fault.1.IsOutOfRange post)

theorem FaultAt.prepend {p : Position} {cs : List Char} {fault : LexicalProblem × Position}
    (skipped : List Char) (h : FaultAt (p.after skipped) cs fault) :
    FaultAt p (skipped ++ cs) fault := by
  obtain ⟨pre, post, rfl, hplace, hrange⟩ := h
  refine ⟨skipped ++ pre, post, List.append_assoc _ _ _, ?_, hrange⟩
  rw [hplace, Position.after_append]

/-- The fault of a text is the first one of its lexemes. -/
theorem scan_faults (p : Position) (afterBreak : Bool) (cs : List Char) :
    FailsOnly (FaultAt p cs) (scan p afterBreak cs) := by
  fun_induction scan p afterBreak cs with
  | case1 => exact .ok _
  | case2 p afterBreak c rest _ ih => exact ih.mono fun _ => FaultAt.prepend [c]
  | case3 p afterBreak rest _ ih =>
    refine ih.mono fun fault hfault => ?_
    have hcomment := List.takeWhile_append_dropWhile (p := (· != '\n')) (l := '#' :: rest)
    rw [← hcomment]
    exact hfault.prepend _
  | case4 p rest _ _ ih => exact ih.mono fun _ => FaultAt.prepend ['\n']
  | case5 p afterBreak rest _ _ _ ih =>
    exact (ih.mono fun _ => FaultAt.prepend ['\n']).map _
  | case6 p afterBreak c rest _ _ _ fault hread =>
    obtain ⟨hsuffix, hrange⟩ := readLexeme_faults c rest fault hread
    exact .error ⟨_, fault.rest, upTo_append hsuffix, rfl, hrange⟩
  | case7 p afterBreak c rest _ _ _ l after hread ih =>
    have hsuffix := (readLexeme_local hread).suffix.trans (List.suffix_cons c rest)
    refine (ih.mono fun fault hfault => ?_).map _
    have := hfault.prepend (upTo (c :: rest) after)
    rwa [upTo_append hsuffix] at this

end TokenText

end RCode
