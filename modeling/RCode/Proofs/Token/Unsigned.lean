import RCode.Proofs.Double.Bits
import RCode.Proofs.Node.Writable
import RCode.Proofs.Token.Joining
import RCode.Proofs.Token.WellFormed

/-!
# Tokens have no sign

A number in a text starts with a digit or a point. A sign before it is a token of its own, so that no
token stands for a number below zero (`TokenText.Scans.unsigned`).
-/

set_option autoImplicit false

namespace RCode

namespace Double

/-- The code points of the characters ignored around a number. -/
def margins : List Nat :=
  [9, 10, 11, 12, 13, 0x20, 0x85, 0xa0, 0x1680, 0x2000, 0x2001, 0x2002, 0x2003, 0x2004, 0x2005,
    0x2006, 0x2007, 0x2008, 0x2009, 0x200a, 0x2028, 0x2029, 0x202f, 0x205f, 0x3000]

theorem isMargin_of_isDigit {c : Char} (h : Text.isDigit c = true) : isMargin c = false := by
  -- the ignored characters are few, so that each of them can be tried
  have table : ∀ n ∈ margins, Text.isDigit (Char.ofNat n) = false := by decide +kernel
  have hmargin : isMargin c = true → c.toNat ∈ margins := by
    simp only [isMargin, Bool.or_eq_true, Bool.and_eq_true, decide_eq_true_eq, beq_iff_eq, margins,
      List.mem_cons, List.not_mem_nil, or_false]
    omega
  refine Bool.eq_false_iff.mpr fun hc => ?_
  have := table _ (hmargin hc)
  rw [Char.ofNat_toNat, h] at this
  cases this

/-- A text that starts with a character that is neither ignored nor a minus has no minus. -/
theorem signOf_trimMargins {cs : List Char}
    (h : ∀ c ∈ cs.head?, isMargin c = false ∧ c ≠ '-') : (signOf (trimMargins cs)).1 = false := by
  cases cs with
  | nil => rfl
  | cons c rest =>
    obtain ⟨hmargin, hminus⟩ := h c rfl
    have hdrop : (c :: rest).dropWhile isMargin = c :: rest := by
      rw [List.dropWhile_cons, hmargin]
      rfl
    obtain ⟨behind, hbehind⟩ := List.dropWhile_suffix (l := (c :: rest).reverse) isMargin
    have htrim : trimMargins (c :: rest) ++ behind.reverse = c :: rest := by
      rw [trimMargins, hdrop, ← List.reverse_append, hbehind, List.reverse_reverse]
    cases htext : trimMargins (c :: rest) with
    | nil => rfl
    | cons d ds =>
      rw [htext] at htrim
      obtain ⟨rfl, -⟩ := List.cons.inj htrim
      unfold signOf
      split
      · next heq => exact absurd (List.cons.inj heq).1 hminus
      · rfl
      · rfl

theorem isBelowZero_ofMagnitude {m : Nat} (h : m ≤ infiniteMagnitude) :
    (Atom.double (ofMagnitude false m)).isBelowZero = false := by
  rw [Atom.isBelowZero, isNegative_ofMagnitude h, Bool.false_and, Bool.and_false]

theorem nearest_le (n d : Nat) : nearest n d ≤ infiniteMagnitude :=
  Nat.min_le_right _ _

theorem ofDecimal_le (n : Nat) (e : Int) : ofDecimal n e ≤ infiniteMagnitude := by
  unfold ofDecimal
  dsimp only
  split
  · exact Nat.zero_le _
  · split
    · exact Nat.le_refl _
    · split
      · exact nearest_le _ _
      · exact nearest_le _ _

theorem isBelowZero_ofInt {n : Nat} {x : Float} (h : ofInt? n = some x) :
    (Atom.double x).isBelowZero = false := by
  unfold ofInt? at h
  dsimp only at h
  split at h
  · cases h
  · cases h
    rw [decide_eq_false (Int.not_lt.mpr (Int.natCast_nonneg n))]
    exact isBelowZero_ofMagnitude (nearest_le _ _)

/-- What is read without a minus is not below zero. -/
theorem isBelowZero_read {cs : List Char} {x : Float}
    (hsign : (signOf (trimMargins cs)).1 = false) (h : read? cs = some x) :
    (Atom.double x).isBelowZero = false := by
  unfold read? at h
  dsimp only at h
  rw [hsign] at h
  obtain ⟨m, hm, rfl⟩ := Option.map_eq_some_iff.mp h
  rcases Option.or_eq_some_iff.mp hm with hdecimal | ⟨-, hword⟩
  · unfold readDecimal? at hdecimal
    dsimp only at hdecimal
    split at hdecimal
    · cases hdecimal
    · obtain ⟨e, -, he⟩ := Option.bind_eq_some_iff.mp hdecimal
      cases he
      exact isBelowZero_ofMagnitude (ofDecimal_le _ _)
  · unfold readWord? at hword
    dsimp only at hword
    split at hword
    · cases hword
      exact isBelowZero_ofMagnitude (Nat.le_refl _)
    · split at hword
      · cases hword
        rw [Atom.isBelowZero, show isNaN (ofMagnitude false (infiniteMagnitude + 2 ^ 51)) = true from
          isNaN_nan]
        rfl
      · cases hword

end Double

namespace Numeral

/-- A written number starts with a digit, a point or the mark of its exponent. -/
theorem head_decimalRun (cs : List Char) :
    ∀ c ∈ (decimalRun cs).head?, Text.isDigit c = true ∨ c = '.' ∨ c = 'e' ∨ c = 'E' := by
  have hwhole : ∀ c ∈ (cs.takeWhile Text.isDigit).head?, Text.isDigit c = true :=
    fun c hc => List.mem_takeWhile_imp (List.mem_of_mem_head? hc)
  have hmantissa : ∀ c ∈ (mantissaRun cs).head?, Text.isDigit c = true ∨ c = '.' := by
    intro c hc
    unfold mantissaRun at hc
    split at hc
    · rw [List.head?_append] at hc
      rcases Option.or_eq_some_iff.mp hc with hc | ⟨-, hc⟩
      · exact .inl (hwhole c hc)
      · exact .inr (Option.some.inj hc).symm
    · exact .inl (hwhole c hc)
  have hexponent : ∀ c ∈ (exponentRun (cs.drop (mantissaRun cs).length)).head?, c = 'e' ∨ c = 'E' := by
    intro c hc
    unfold exponentRun at hc
    split at hc
    · split at hc
      · next he =>
        split at hc
        · exact Option.some.inj hc ▸ he
        · split at hc
          · exact Option.some.inj hc ▸ he
          · cases hc
      · cases hc
    · cases hc
  -- the exponent comes first only where nothing is written before it
  intro c hc
  rw [decimalRun_eq, List.head?_append] at hc
  rcases Option.or_eq_some_iff.mp hc with hc | ⟨-, hc⟩
  · exact (hmantissa c hc).imp_right .inl
  · exact .inr (.inr (hexponent c hc))

theorem isBelowZero_unsuffixed {cs rest : List Char} {x : Float}
    (h : unsuffixed cs = .ok (x, rest)) : (Atom.double x).isBelowZero = false := by
  have hdecimal : ∀ {rest}, unsuffixed.decimal cs = .ok (x, rest) →
      (Atom.double x).isBelowZero = false := by
    intro rest hread
    unfold unsuffixed.decimal at hread
    dsimp only at hread
    split at hread
    · next value hvalue =>
      cases hread
      refine Double.isBelowZero_read (Double.signOf_trimMargins fun c hc => ?_) hvalue
      rcases head_decimalRun cs c hc with hdigit | rfl | rfl | rfl
      · refine ⟨Double.isMargin_of_isDigit hdigit, ?_⟩
        rintro rfl
        exact absurd hdigit (by decide)
      all_goals exact ⟨rfl, by decide⟩
    · cases hread
  unfold unsuffixed at h
  split at h
  · split at h
    · -- a hexadecimal number is a natural one
      obtain ⟨value, hvalue, heq⟩ := Literal.map_eq_ok h
      cases heq
      unfold hexadecimal at hvalue
      split at hvalue
      · cases hvalue
      · split at hvalue
        · next hx => cases hvalue; exact Double.isBelowZero_ofInt hx
        · cases hvalue
    · exact hdecimal h
  · exact hdecimal h

end Numeral

/-! ## Lexemes and texts -/

theorem isBelowZero_ofWord (word : String) : (ofWord word).value.isBelowZero = false := by
  have table : ∀ c : NamedConstant, c.value.isBelowZero = false := by
    intro c
    cases c <;> decide +kernel
  unfold ofWord
  split
  · rfl
  · split
    · next c _ => exact table c
    · rfl

theorem IsRead.unsigned {c : Char} {rest : List Char} {l : Lexeme} (h : IsRead c rest l) :
    l.value.isBelowZero = false := by
  cases h with
  | delimiter h => unfold delimiter? at h; split at h <;> cases h <;> rfl
  | leftBracket | leftDouble | text | name => rfl
  | number h =>
    rcases Numeral.read_cases h with ⟨n, hl, -⟩ | ⟨value, _, hl, hvalue⟩
    · rw [hl]
      exact decide_eq_false (Int.not_lt.mpr (Int.natCast_nonneg n))
    · rw [hl]
      exact Numeral.isBelowZero_unsuffixed hvalue
  | word h =>
    rcases readWord_cases h with ⟨word, -, hl⟩ | hl | ⟨name, hl⟩
    · rw [hl]
      exact isBelowZero_ofWord word
    · rw [hl]
      rfl
    · rw [hl]
      rfl

/-- No token of a text stands for a number below zero. -/
theorem TokenText.Scans.unsigned {p stop : Position} {afterBreak : Bool} {cs : List Char}
    {ts : List Token} (h : Scans p afterBreak cs ts stop) :
    ∀ t ∈ ts, t.lexeme.value.isBelowZero = false := by
  induction h with
  | done => exact fun _ ht => absurd ht List.not_mem_nil
  | blank _ _ ih | comment _ ih | merged _ ih => exact ih
  | lineBreak _ ih => exact List.forall_mem_cons.mpr ⟨rfl, ih⟩
  | lexeme _ _ _ hread _ ih =>
    exact List.forall_mem_cons.mpr ⟨(isRead_readLexeme hread).unsigned, ih⟩

end RCode
