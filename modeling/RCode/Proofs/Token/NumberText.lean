import RCode.Proofs.Double.Decimal
import RCode.Proofs.Text.Characters

/-!
# Texts of numbers

`IsNumber` describes the decimal numbers that are written: digits, a point with digits after it, and
an exponent with a sign. The lexer takes such a text up to its end (`decimalRun_number`), and its
value is the one that its digits have (`read?_number`).
-/

set_option autoImplicit false

namespace RCode.Numeral

open Double (digitRun fractionRun readExponent? readDecimal? read? ofDigits ofDecimal ofMagnitude)

/-- The characters are ASCII digits. -/
def AreDigits (cs : List Char) : Prop :=
  ∀ c ∈ cs, c.isDigit = true

/-- The number with the given digits. -/
abbrev value (cs : List Char) : Nat :=
  Nat.ofDigitChars 10 cs 0

theorem areDigits_toDigits (n : Nat) : AreDigits (Nat.toDigits 10 n) := fun _ hc =>
  Nat.isDigit_of_mem_toDigits (by decide) (by decide) hc

theorem AreDigits.append {cs ds : List Char} (hcs : AreDigits cs) (hds : AreDigits ds) :
    AreDigits (cs ++ ds) := fun c hc =>
  (List.mem_append.mp hc).elim (hcs c) (hds c)

theorem areDigits_zeros (n : Nat) : AreDigits (List.replicate n '0') := by
  intro c hc
  rw [List.eq_of_mem_replicate hc]
  decide

/-- A written number without its exponent: its text, its digits, and how many of them stand after
the point. -/
inductive IsMantissa : List Char → List Char → Nat → Prop
  | whole {cs : List Char} : AreDigits cs → cs ≠ [] → IsMantissa cs cs 0
  | pointed {cs ds : List Char} : AreDigits cs → cs ≠ [] → AreDigits ds → ds ≠ [] →
      IsMantissa (cs ++ '.' :: ds) (cs ++ ds) ds.length

/-- A written exponent and its value. -/
inductive IsExponent : List Char → Int → Prop
  | absent : IsExponent [] 0
  | plus {cs : List Char} : AreDigits cs → cs ≠ [] → IsExponent ('e' :: '+' :: cs) (value cs)
  | minus {cs : List Char} : AreDigits cs → cs ≠ [] →
      IsExponent ('e' :: '-' :: cs) (-(value cs : Int))

/-- A written decimal number, and the whole number and the power of ten that it is the product
of. -/
inductive IsNumber : List Char → Nat → Int → Prop
  | intro {mantissa digits exponent : List Char} {places : Nat} {e : Int} :
      IsMantissa mantissa digits places → IsExponent exponent e →
      IsNumber (mantissa ++ exponent) (value digits) (e - places)

/-! ## Runs of digits -/

theorem AreDigits.takeWhile {cs : List Char} (h : AreDigits cs) (rest : List Char) :
    (cs ++ rest).takeWhile Text.isDigit = cs ++ rest.takeWhile Text.isDigit :=
  List.takeWhile_append_of_pos fun c hc => Text.isDigit_of_ascii (h c hc)

/-- The digits of a run and what stops it. -/
theorem digitRun_append {cs : List Char} (h : AreDigits cs) {rest : List Char}
    (hrest : ∀ c ∈ rest.head?, Text.decimalValue? c = none ∧ c ≠ '_') (afterDigit : Bool) :
    digitRun afterDigit (cs ++ rest) = (cs.map fun c => c.toNat - '0'.toNat, rest) := by
  induction cs generalizing afterDigit with
  | nil =>
    cases rest with
    | nil => rfl
    | cons c rest =>
      obtain ⟨hvalue, hunderscore⟩ := hrest c rfl
      simp only [List.nil_append, digitRun, hvalue, beq_eq_false_iff_ne.mpr hunderscore,
        Bool.and_false, Bool.false_and, Bool.false_eq_true, if_false, List.map_nil]
  | cons c cs ih =>
    obtain ⟨hc, hcs⟩ := List.forall_mem_cons.mp h
    simp only [List.cons_append, digitRun, Text.decimalValue?_of_isDigit hc, ih hcs true,
      List.map_cons]

theorem digitRun_digits {cs : List Char} (h : AreDigits cs) (afterDigit : Bool) :
    digitRun afterDigit cs = (cs.map fun c => c.toNat - '0'.toNat, []) := by
  have hnil : ∀ c ∈ ([] : List Char).head?, Text.decimalValue? c = none ∧ c ≠ '_' :=
    fun c hc => (Option.not_mem_none c hc).elim
  have := digitRun_append h hnil afterDigit
  rw [List.append_nil] at this
  exact this

theorem ofDigits_eq_value (cs : List Char) :
    ofDigits (cs.map fun c => c.toNat - '0'.toNat) = value cs := by
  rw [ofDigits, List.foldl_map]
  rfl

/-! ## Reading -/

theorem readExponent?_exponent {cs : List Char} {e : Int} (h : IsExponent cs e) :
    readExponent? cs = some e := by
  have hrun : ∀ cs : List Char, AreDigits cs → cs ≠ [] →
      ∃ d ds, digitRun false cs = (d :: ds, []) ∧ ofDigits (d :: ds) = value cs := by
    intro cs hcs hne
    cases cs with
    | nil => exact absurd rfl hne
    | cons c cs => exact ⟨_, _, digitRun_digits hcs false, ofDigits_eq_value (c :: cs)⟩
  cases h with
  | absent => rfl
  | @plus cs hcs hne =>
    obtain ⟨d, ds, hds, hvalue⟩ := hrun cs hcs hne
    simp only [readExponent?, Double.signOf, hds, hvalue, true_or, if_true, Bool.false_eq_true,
      if_false]
  | @minus cs hcs hne =>
    obtain ⟨d, ds, hds, hvalue⟩ := hrun cs hcs hne
    simp only [readExponent?, Double.signOf, hds, hvalue, true_or, if_true]

/-- What follows a run of digits in a number is no digit. -/
theorem IsExponent.stopsDigits {cs : List Char} {e : Int} (h : IsExponent cs e) :
    ∀ c ∈ cs.head?, Text.decimalValue? c = none ∧ c ≠ '_' := by
  have he : Text.decimalValue? 'e' = none ∧ 'e' ≠ '_' := by decide
  cases h with
  | absent => exact fun c hc => (Option.not_mem_none c hc).elim
  | plus | minus =>
    rintro c ⟨⟩
    exact he

/-- A number that is read from its digits, its fraction and its exponent. -/
theorem readDecimal?_of_runs {cs afterWhole afterFraction : List Char} {whole fraction : List Nat}
    {e : Int} (hwhole : digitRun false cs = (whole, afterWhole)) (hne : whole ≠ [])
    (hfraction : fractionRun afterWhole = (fraction, afterFraction))
    (hexponent : readExponent? afterFraction = some e) :
    readDecimal? cs = some (ofDecimal (ofDigits (whole ++ fraction)) (e - fraction.length)) := by
  unfold readDecimal?
  rw [hwhole]
  dsimp only
  rw [hfraction]
  have hsome : (whole.isEmpty && fraction.isEmpty) = false := by
    rw [List.isEmpty_eq_false_iff.mpr hne]
    rfl
  simp only [hsome, Bool.false_eq_true, if_false, hexponent]
  rfl

theorem readDecimal?_number {cs : List Char} {n : Nat} {e : Int} (h : IsNumber cs n e) :
    readDecimal? cs = some (ofDecimal n e) := by
  cases h with
  | @intro mantissa digits exponent places e hmantissa hexponent =>
    have hread := readExponent?_exponent hexponent
    cases hmantissa with
    | whole hdigits hne =>
      have hrun := digitRun_append hdigits hexponent.stopsDigits false
      have hfraction : fractionRun exponent = ([], exponent) := by
        cases hexponent with
        | absent | plus | minus => rfl
      have := readDecimal?_of_runs hrun (fun h => hne (List.map_eq_nil_iff.mp h)) hfraction hread
      rw [List.append_nil, ofDigits_eq_value] at this
      exact this
    | @pointed cs ds hcs hne hds hne' =>
      have hdot : ∀ c ∈ ('.' :: (ds ++ exponent)).head?,
          Text.decimalValue? c = none ∧ c ≠ '_' := by
        rintro c ⟨⟩
        decide
      have hrun := digitRun_append hcs hdot false
      have hfraction := digitRun_append hds hexponent.stopsDigits false
      have := readDecimal?_of_runs hrun (fun h => hne (List.map_eq_nil_iff.mp h)) hfraction hread
      rw [← List.map_append, ofDigits_eq_value, List.length_map] at this
      rw [List.append_assoc, List.cons_append]
      exact this

/-! ## Margins and signs -/

theorem isDigit_facts {c : Char} (h : c.isDigit = true) :
    Double.isMargin c = false ∧ c ≠ '-' ∧ c ≠ '+' := by
  obtain ⟨hlow, hhigh⟩ := Char.isDigit_iff_toNat.mp h
  have hlow' : 48 ≤ c.toNat := hlow
  have hhigh' : c.toNat ≤ 57 := hhigh
  refine ⟨?_, ?_, ?_⟩
  · simp only [Double.isMargin, Bool.or_eq_false_iff, Bool.and_eq_false_iff, decide_eq_false_iff_not,
      beq_eq_false_iff_ne]
    omega
  · rintro rfl
    exact absurd hlow' (by decide)
  · rintro rfl
    exact absurd hlow' (by decide)

/-- A text without margins at its ends. -/
theorem trimMargins_eq {c : Char} {cs : List Char} (hfirst : Double.isMargin c = false)
    {d : Char} {ds : List Char} (hlast : Double.isMargin d = false) (h : c :: cs = ds ++ [d]) :
    Double.trimMargins (c :: cs) = c :: cs := by
  have hdrop : (c :: cs).dropWhile Double.isMargin = c :: cs := by
    rw [List.dropWhile_cons, hfirst]
    rfl
  rw [Double.trimMargins, hdrop, h, List.reverse_append, List.reverse_singleton,
    List.singleton_append, List.dropWhile_cons, hlast]
  simp only [Bool.false_eq_true, if_false, List.reverse_cons, List.reverse_reverse]

/-- A written number starts and ends with a digit. -/
theorem IsNumber.ends {cs : List Char} {n : Nat} {e : Int} (h : IsNumber cs n e) :
    ∃ c rest d front, cs = c :: rest ∧ cs = front ++ [d] ∧ c.isDigit = true ∧
      d.isDigit = true := by
  have hends : ∀ ds : List Char, AreDigits ds → ds ≠ [] →
      ∃ c rest d front, ds = c :: rest ∧ ds = front ++ [d] ∧ c.isDigit = true ∧
        d.isDigit = true := by
    intro ds hds hne
    obtain ⟨c, rest, rfl⟩ := List.exists_cons_of_ne_nil hne
    refine ⟨c, rest, _, _, rfl, (List.dropLast_concat_getLast hne).symm, hds c List.mem_cons_self,
      hds _ (List.getLast_mem hne)⟩
  cases h with
  | @intro mantissa digits exponent places e hmantissa hexponent =>
    have hmantissa' : ∃ c rest d front, mantissa = c :: rest ∧ mantissa = front ++ [d] ∧
        c.isDigit = true ∧ d.isDigit = true := by
      cases hmantissa with
      | whole hdigits hne => exact hends _ hdigits hne
      | @pointed cs ds hcs hne hds hne' =>
        obtain ⟨c, rest, -, -, rfl, -, hc, -⟩ := hends cs hcs hne
        obtain ⟨-, -, d, front, -, rfl, -, hd⟩ := hends ds hds hne'
        exact ⟨c, _, d, c :: rest ++ '.' :: front, rfl, by simp, hc, hd⟩
    obtain ⟨c, rest, d, front, hstart, hend, hc, hd⟩ := hmantissa'
    cases hexponent with
    | absent =>
      rw [List.append_nil]
      exact ⟨c, rest, d, front, hstart, hend, hc, hd⟩
    | @plus ds hds hne | @minus ds hds hne =>
      obtain ⟨-, -, d, front, -, rfl, -, hd⟩ := hends ds hds hne
      subst hstart
      exact ⟨c, _, d, _, rfl, by rw [← List.cons_append, ← List.cons_append, ← List.append_assoc],
        hc, hd⟩

/-- The value of a written number. -/
theorem read?_number {cs : List Char} {n : Nat} {e : Int} (h : IsNumber cs n e) :
    read? cs = some (ofMagnitude false (ofDecimal n e)) := by
  obtain ⟨c, rest, d, front, hstart, hend, hc, hd⟩ := h.ends
  obtain ⟨hmargin, hminus, hplus⟩ := isDigit_facts hc
  have htrim : Double.trimMargins cs = cs := by
    rw [hstart]
    exact trimMargins_eq hmargin (isDigit_facts hd).1 (hstart.symm.trans hend)
  have hsign : Double.signOf cs = (false, cs) := by
    rw [hstart]
    unfold Double.signOf
    split
    · next heq => exact absurd (List.cons.inj heq).1 hminus
    · next heq => exact absurd (List.cons.inj heq).1 hplus
    · rfl
  unfold read?
  rw [htrim, hsign]
  simp only [readDecimal?_number h, Option.some_or, Option.map_some]

end RCode.Numeral
