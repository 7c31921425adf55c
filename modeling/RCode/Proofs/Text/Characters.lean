import RCode.Token.Numeral

/-!
# Classes of characters

Letters and digits are apart, so that the first character of a word tells it from a number. The
ASCII digits have their usual values.
-/

set_option autoImplicit false

namespace RCode.Text

/-! ## Deciding over a few characters

What is said of every character of a list is decided along the list. These instances go before those
that run through all characters there are.
-/

section

variable {P : Char → Prop} [DecidablePred P]

instance (priority := high) decidableForallMem (cs : List Char) : Decidable (∀ c ∈ cs, P c) :=
  List.decidableBAll P cs

instance (priority := high) decidableExistsMem (cs : List Char) : Decidable (∃ c ∈ cs, P c) :=
  List.decidableBEx P cs

instance (priority := high) decidableForallMemOption (c? : Option Char) :
    Decidable (∀ c ∈ c?, P c) :=
  Option.decidableForallMem c?

end

namespace CharTable

/-- A code point that is found lies in a range of the table. -/
theorem exists_range {t : CharTable} {n : Nat} (h : t.contains n = true) :
    ∃ r ∈ t, r.1 ≤ n ∧ n ≤ r.2 := by
  induction t with
  | nil => cases h
  | cons r t ih =>
    obtain ⟨low, high⟩ := r
    simp only [contains] at h
    split at h
    · cases h
    · next hlow =>
      split at h
      · next hhigh => exact ⟨(low, high), List.mem_cons_self, Nat.le_of_not_lt hlow, hhigh⟩
      · obtain ⟨r, hr, hrange⟩ := ih h
        exact ⟨r, List.mem_cons_of_mem _ hr, hrange⟩

/-- No range of one table meets a range of the other. -/
def apart (s t : CharTable) : Bool :=
  s.all fun a => t.all fun b => Nat.blt a.2 b.1 || Nat.blt b.2 a.1

theorem not_contains_of_apart {s t : CharTable} (h : apart s t = true) {n : Nat}
    (hs : s.contains n = true) : t.contains n = false := by
  cases ht : t.contains n with
  | false => rfl
  | true =>
    obtain ⟨a, ha, ha₁, ha₂⟩ := exists_range hs
    obtain ⟨b, hb, hb₁, hb₂⟩ := exists_range ht
    have := List.all_eq_true.mp (List.all_eq_true.mp h a ha) b hb
    simp only [Bool.or_eq_true, Nat.blt_eq] at this
    omega

end CharTable

/-- The decimal digits of all scripts as ranges. -/
def decimalRanges : CharTable :=
  decimalZeros.map fun start => (start, start + 9)

theorem exists_decimalRange {c : Char} (h : (decimalValue? c).isSome = true) :
    ∃ r ∈ decimalRanges, r.1 ≤ c.toNat ∧ c.toNat ≤ r.2 := by
  obtain ⟨d, hd⟩ := Option.isSome_iff_exists.mp h
  obtain ⟨start, hstart, hvalue⟩ := Option.bind_eq_some_iff.mp hd
  split at hvalue
  · next hlow =>
    refine ⟨(start, start + 9), List.mem_map_of_mem (List.mem_of_find?_eq_some hstart), hlow, ?_⟩
    simpa using List.find?_some hstart
  · cases hvalue

/-- A letter is no digit. -/
theorem isDigit_of_isLetter {c : Char} (h : isLetter c = true) : isDigit c = false := by
  have hspecial : specialDigits.contains c.toNat = false :=
    CharTable.not_contains_of_apart (by decide +kernel) h
  have hdecimal : (decimalValue? c).isSome = false := by
    cases hsome : (decimalValue? c).isSome with
    | false => rfl
    | true =>
      obtain ⟨a, ha, ha₁, ha₂⟩ := CharTable.exists_range h
      obtain ⟨b, hb, hb₁, hb₂⟩ := exists_decimalRange hsome
      have hapart : CharTable.apart letters decimalRanges = true := by decide +kernel
      have := List.all_eq_true.mp (List.all_eq_true.mp hapart a ha) b hb
      simp only [Bool.or_eq_true, Nat.blt_eq] at this
      omega
  rw [isDigit, hdecimal, hspecial]
  rfl

/-- The value of an ASCII digit. -/
theorem decimalValue?_of_isDigit {c : Char} (h : c.isDigit = true) :
    decimalValue? c = some (c.toNat - '0'.toNat) := by
  obtain ⟨hlow, hhigh⟩ := Char.isDigit_iff_toNat.mp h
  have hfirst : decimalZeros.find? (fun start => decide (c.toNat ≤ start + 9)) = some 0x30 :=
    List.find?_cons_of_pos (decide_eq_true hhigh)
  rw [decimalValue?, hfirst]
  exact if_pos hlow

theorem isDigit_of_ascii {c : Char} (h : c.isDigit = true) : isDigit c = true := by
  rw [isDigit, decimalValue?_of_isDigit h]
  rfl

end RCode.Text

namespace RCode.Numeral

theorem isNameChar_of_isDigit {c : Char} (h : Text.isDigit c = true) : isNameChar c = true := by
  simp only [isNameChar, Text.isAlphanumeric, h, Bool.or_true, Bool.true_or]

/-- Nothing that a name or a number could go on with follows. -/
def StopsName (rest : List Char) : Prop :=
  ∀ c ∈ rest.head?, isNameChar c = false

theorem StopsName.takeWhile {p : Char → Bool} (hp : ∀ c, p c = true → isNameChar c = true)
    {rest : List Char} (h : StopsName rest) : rest.takeWhile p = [] := by
  cases rest with
  | nil => rfl
  | cons c rest =>
    have hc : p c = false := by
      cases hc : p c with
      | false => rfl
      | true => exact absurd (hp c hc) (by rw [h c rfl]; decide)
    rw [List.takeWhile_cons, hc]
    rfl

end RCode.Numeral
