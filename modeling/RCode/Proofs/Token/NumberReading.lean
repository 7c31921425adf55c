import RCode.Proofs.Double.Bits
import RCode.Proofs.Token.NumberText
import RCode.Token.Spelling

/-!
# Reading number literals

The literal of a double reads back as the double, and that of an integer as the integer, unless a
character follows that a name could go on with.
-/

set_option autoImplicit false

namespace RCode.Numeral

open Double (nearestDecimal ofDecimal ofMagnitude read?)

/-! ## The end of a number -/

/-- A number does not go on here. -/
structure EndsNumber (rest : List Char) : Prop where
  noDigit : rest.takeWhile Text.isDigit = []
  noPoint : ∀ after, rest ≠ '.' :: after
  noExponent : exponentRun rest = []
  noHex : ∀ c ∈ rest.head?, ¬ (c = 'x' ∨ c = 'X')

/-- A number ends where no name could go on. -/
theorem StopsName.endsNumber {rest : List Char} (h : StopsName rest) : EndsNumber rest := by
  have hne : ∀ c ∈ rest.head?, c ≠ '.' ∧ ¬ (c = 'e' ∨ c = 'E') ∧ ¬ (c = 'x' ∨ c = 'X') := by
    have table : ∀ d ∈ ['.', 'e', 'E', 'x', 'X'], isNameChar d = true :=
      List.all_eq_true.mp (by decide)
    intro c hc
    have hnot : ∀ d ∈ ['.', 'e', 'E', 'x', 'X'], c ≠ d := by
      rintro d hd rfl
      exact absurd (h c hc) (by rw [table c hd]; decide)
    refine ⟨hnot '.' (by simp), ?_, ?_⟩
    · exact fun he => he.elim (hnot 'e' (by simp)) (hnot 'E' (by simp))
    · exact fun hx => hx.elim (hnot 'x' (by simp)) (hnot 'X' (by simp))
  refine ⟨h.takeWhile fun _ => isNameChar_of_isDigit, ?_, ?_, fun c hc => (hne c hc).2.2⟩
  · rintro after rfl
    exact (hne '.' rfl).1 rfl
  · unfold exponentRun
    split
    · next e sign after => exact if_neg (hne e rfl).2.1
    · rfl

/-- A number ends before the suffix of integers. -/
theorem endsNumber_suffix (rest : List Char) : EndsNumber ('L' :: rest) := by
  refine ⟨List.takeWhile_cons_of_neg (by decide), fun after h => ?_, ?_, ?_⟩
  · exact absurd (List.cons.inj h).1 (by decide)
  · cases rest with
    | nil => rfl
    | cons c rest =>
      simp only [exponentRun]
      exact if_neg (by decide)
  · rintro c ⟨⟩
    decide

theorem exponentRun_exponent {cs : List Char} {e : Int} (h : IsExponent cs e) {rest : List Char}
    (hrest : EndsNumber rest) : exponentRun (cs ++ rest) = cs := by
  have hrun : ∀ (sign : Char) (ds : List Char), AreDigits ds → ds ≠ [] →
      Text.isDigit sign = false → sign = '+' ∨ sign = '-' →
      exponentRun ('e' :: sign :: (ds ++ rest)) = 'e' :: sign :: ds := by
    intro sign ds hds hne hdigit hsign
    have hfirst : (ds ++ rest).head?.any Text.isDigit = true := by
      obtain ⟨d, ds, rfl⟩ := List.exists_cons_of_ne_nil hne
      exact Text.isDigit_of_ascii (hds d List.mem_cons_self)
    simp only [exponentRun, true_or, if_true, hdigit, Bool.false_eq_true, if_false, hsign, hfirst,
      and_self, hds.takeWhile rest, hrest.noDigit, List.append_nil]
  cases h with
  | absent => exact hrest.noExponent
  | plus hds hne => exact hrun '+' _ hds hne (by decide) (.inl rfl)
  | minus hds hne => exact hrun '-' _ hds hne (by decide) (.inr rfl)

theorem IsExponent.isDigit_head {cs : List Char} {e : Int} (h : IsExponent cs e) {rest : List Char}
    (hrest : EndsNumber rest) : (cs ++ rest).takeWhile Text.isDigit = [] := by
  cases h with
  | absent => exact hrest.noDigit
  | plus | minus => exact List.takeWhile_cons_of_neg (by decide)

/-- The mantissa of a written number is taken up to its exponent. -/
theorem mantissa_taken {mantissa digits : List Char} {places : Nat}
    (h : IsMantissa mantissa digits places) {rest : List Char}
    (hdigit : rest.takeWhile Text.isDigit = []) (hpoint : ∀ after, rest ≠ '.' :: after) :
    decimalRun (mantissa ++ rest) = mantissa ++ exponentRun rest := by
  have hdrop : ∀ cs ds : List Char, (cs ++ ds).drop cs.length = ds := fun cs ds =>
    List.drop_left
  unfold decimalRun
  cases h with
  | whole hdigits hne =>
    simp only [hdigits.takeWhile, hdigit, List.append_nil, hdrop]
  | @pointed cs ds hcs hne hds hne' =>
    have hwhole : (cs ++ '.' :: ds ++ rest).takeWhile Text.isDigit = cs := by
      rw [List.append_assoc, hcs.takeWhile, List.cons_append,
        List.takeWhile_cons_of_neg (by decide), List.append_nil]
    have hafter : (cs ++ '.' :: ds ++ rest).drop cs.length = '.' :: (ds ++ rest) := by
      rw [List.append_assoc, hdrop]
      rfl
    simp only [hwhole, hafter, hds.takeWhile, hdigit, List.append_nil, hdrop]

/-- A written number is taken up to its end. -/
theorem decimalRun_number {cs : List Char} {n : Nat} {e : Int} (h : IsNumber cs n e)
    {rest : List Char} (hrest : EndsNumber rest) : decimalRun (cs ++ rest) = cs := by
  cases h with
  | @intro mantissa digits exponent places e hmantissa hexponent =>
    have hpoint : ∀ after, exponent ++ rest ≠ '.' :: after := by
      intro after heq
      cases hexponent with
      | absent => exact hrest.noPoint after heq
      | plus | minus => cases heq
    rw [List.append_assoc, mantissa_taken hmantissa (hexponent.isDigit_head hrest) hpoint,
      exponentRun_exponent hexponent hrest]

/-- No written number is hexadecimal. -/
theorem IsNumber.second_ne {cs : List Char} {n : Nat} {e : Int} (h : IsNumber cs n e)
    {rest : List Char} (hrest : EndsNumber rest) {c x : Char} {after : List Char}
    (heq : cs ++ rest = c :: x :: after) : ¬ (x = 'x' ∨ x = 'X') := by
  have hdigits : ∀ ds : List Char, AreDigits ds → ∀ d ∈ ds, ¬ (d = 'x' ∨ d = 'X') := by
    intro ds hds d hd
    have := hds d hd
    rintro (rfl | rfl)
    · exact absurd this (by decide)
    · exact absurd this (by decide)
  have hall : ∀ d ∈ cs, ¬ (d = 'x' ∨ d = 'X') := by
    cases h with
    | @intro mantissa digits exponent places e hmantissa hexponent =>
      intro d hd
      rcases List.mem_append.mp hd with hd | hd
      · cases hmantissa with
        | whole hds => exact hdigits _ hds d hd
        | pointed hcs _ hds =>
          rcases List.mem_append.mp hd with hd | hd
          · exact hdigits _ hcs d hd
          · rcases List.mem_cons.mp hd with rfl | hd
            · decide
            · exact hdigits _ hds d hd
      · cases hexponent with
        | absent => cases hd
        | plus hds | minus hds =>
          simp only [List.mem_cons] at hd
          rcases hd with rfl | rfl | hd
          · decide
          · decide
          · exact hdigits _ hds d hd
  obtain ⟨first, others, -, -, hstart, -, -, -⟩ := h.ends
  rw [hstart, List.cons_append] at heq
  obtain ⟨-, heq⟩ := List.cons.inj heq
  cases others with
  | nil => exact hrest.noHex x (by rw [show rest = x :: after from heq]; rfl)
  | cons y others =>
    obtain ⟨rfl, -⟩ := List.cons.inj heq
    refine hall y ?_
    rw [hstart]
    simp

/-- The value of a written number and the text after it. -/
theorem unsuffixed_number {cs : List Char} {n : Nat} {e : Int} (h : IsNumber cs n e)
    {rest : List Char} (hrest : EndsNumber rest) :
    unsuffixed (cs ++ rest) = .ok (ofMagnitude false (ofDecimal n e), rest) := by
  have hdecimal : unsuffixed.decimal (cs ++ rest) =
      .ok (ofMagnitude false (ofDecimal n e), rest) := by
    unfold unsuffixed.decimal
    simp only [decimalRun_number h hrest, read?_number h, List.drop_left]
  unfold unsuffixed
  split
  · next x after heq => rw [if_neg (h.second_ne hrest heq), ← hdecimal, heq]
  · exact hdecimal

/-- No suffix starts where no name could go on. -/
theorem suffixed_of_stops {start : List Char} {x : Float} {rest : List Char}
    (h : StopsName rest) : suffixed start x rest = .ok (.double x, rest) := by
  unfold suffixed
  split
  · exact absurd (h 'L' rfl) (by decide)
  · exact absurd (h 'i' rfl) (by decide)
  · rfl

theorem StopsName.head?_filter {rest : List Char} (h : StopsName rest) :
    rest.head?.filter isNameChar = none := by
  cases hhead : rest.head? with
  | none => rfl
  | some c => rw [Option.filter_some, h c hhead]; rfl

/-- A written number reads as a double. -/
theorem read_number {cs : List Char} {n : Nat} {e : Int} (h : IsNumber cs n e)
    {rest : List Char} (hrest : StopsName rest) :
    read (cs ++ rest) = .ok (.double (ofMagnitude false (ofDecimal n e)), rest) := by
  simp only [read, unsuffixed_number h hrest.endsNumber, suffixed_of_stops hrest,
    hrest.head?_filter]

/-! ## Integers -/

/-- A whole number in the range of integers is a double without a fractional part. -/
theorem toInteger?_whole {n : Nat} (hn : n ≤ Atom.integerLimit) :
    toInteger? (ofMagnitude false (ofDecimal n 0)) = some n := by
  have hlt : n < 2 ^ 53 := Nat.lt_of_le_of_lt hn (by decide)
  obtain ⟨hunits, hfinite⟩ := Double.units_nearest hlt
  have hmagnitude : Double.magnitude (ofMagnitude false (Double.nearest n 1)) =
      Double.nearest n 1 := Double.magnitude_ofMagnitude (Nat.le_of_lt hfinite)
  have hintegral : Double.isIntegral (ofMagnitude false (Double.nearest n 1)) = true := by
    rw [Double.isIntegral, Double.isFinite, hmagnitude, hunits, Nat.mul_mod_left,
      decide_eq_true hfinite]
    rfl
  have htruncate : Double.truncate (ofMagnitude false (Double.nearest n 1)) = n := by
    rw [Double.truncate, hmagnitude, hunits, Nat.mul_div_cancel n Double.one_pos,
      Double.isNegative_ofMagnitude (Nat.le_of_lt hfinite)]
    rfl
  rw [Double.ofDecimal_zero_exponent, toInteger?, hintegral, htruncate, Int.natAbs_natCast,
    decide_eq_true hn]
  rfl

theorem isNumber_toDigits (n : Nat) : IsNumber (Nat.toDigits 10 n) n 0 := by
  have := IsNumber.intro (.whole (areDigits_toDigits n) Nat.toDigits_ne_nil) .absent
  rw [List.append_nil, value, Nat.ofDigitChars_ten_toDigits] at this
  exact this

/-- The literal of an integer reads as the integer. -/
theorem read_integer {n : Nat} (hn : n ≤ Atom.integerLimit) {rest : List Char}
    (hrest : StopsName rest) :
    read (Nat.toDigits 10 n ++ ['L'] ++ rest) = .ok (.integer n, rest) := by
  rw [List.append_assoc]
  simp only [read, unsuffixed_number (isNumber_toDigits n) (endsNumber_suffix rest),
    List.singleton_append, suffixed, toInteger?_whole hn, hrest.head?_filter]

/-! ## Doubles -/

theorem value_zeros_append (zeros : Nat) (cs : List Char) :
    value ('0' :: List.replicate zeros '0' ++ cs) = value cs := by
  rw [← List.replicate_succ, value, Nat.ofDigitChars_append, Nat.ofDigitChars_replicate_zero,
    Nat.mul_zero]

theorem value_append_zeros (cs : List Char) (zeros : Nat) :
    value (cs ++ List.replicate zeros '0') = value cs * 10 ^ zeros := by
  rw [value, Nat.ofDigitChars_append, Nat.ofDigitChars_replicate_zero, Nat.mul_comm]

/-- A text is a number of the given value. -/
def HasValue (cs : List Char) (n : Nat) (e : Int) : Prop :=
  ∃ n' e', IsNumber cs n' e' ∧ ofDecimal n' e' = ofDecimal n e

theorem IsNumber.hasValue {cs : List Char} {n n' : Nat} {e e' : Int} (h : IsNumber cs n' e')
    (hn : n' = n) (he : e' = e) : HasValue cs n e :=
  ⟨n', e', h, by rw [hn, he]⟩

/-- A number between zero and one in positional notation. -/
theorem hasValue_small {digits : List Char} (hdigits : AreDigits digits) (hne : digits ≠ [])
    {e : Int} (h : e + digits.length ≤ 0) :
    HasValue (Double.positional digits (e + digits.length)) (value digits) e := by
  have hzero : AreDigits ['0'] := areDigits_zeros 1
  have hmantissa := IsMantissa.pointed hzero (List.cons_ne_nil _ _)
    ((areDigits_zeros (e + digits.length).natAbs).append hdigits)
    (List.append_ne_nil_of_right_ne_nil _ hne)
  have hnumber := IsNumber.intro hmantissa .absent
  rw [List.append_nil] at hnumber
  rw [Double.positional, if_pos h]
  refine hnumber.hasValue (value_zeros_append _ _) ?_
  rw [List.length_append, List.length_replicate]
  omega

/-- A number that is not whole in positional notation. -/
theorem hasValue_pointed {digits : List Char} (hdigits : AreDigits digits) {e : Int} (he : e < 0)
    (h : ¬ e + digits.length ≤ 0) :
    HasValue (Double.positional digits (e + digits.length)) (value digits) e := by
  obtain ⟨before, hbefore, hlt, hpos⟩ : ∃ before : Nat, e + digits.length = before ∧
      before < digits.length ∧ 0 < before := ⟨(e + digits.length).toNat, by omega⟩
  have htake : AreDigits (digits.take before) := fun c hc => hdigits c (List.mem_of_mem_take hc)
  have hdrop : AreDigits (digits.drop before) := fun c hc => hdigits c (List.mem_of_mem_drop hc)
  have hne : digits.take before ≠ [] := by
    intro hnil
    have := congrArg List.length hnil
    rw [List.length_take, List.length_nil] at this
    omega
  have hne' : digits.drop before ≠ [] := by
    intro hnil
    have := congrArg List.length hnil
    rw [List.length_drop, List.length_nil] at this
    omega
  have hnumber := IsNumber.intro (IsMantissa.pointed htake hne hdrop hne') .absent
  rw [List.append_nil, List.take_append_drop] at hnumber
  have htext : Double.positional digits (e + digits.length) =
      digits.take before ++ '.' :: digits.drop before := by
    have hpad : before - digits.length = 0 := by omega
    rw [hbefore] at h ⊢
    simp only [Double.positional, if_neg h, Int.toNat_natCast, hpad, List.replicate_zero,
      List.append_nil, List.isEmpty_eq_false_iff.mpr hne', Bool.false_eq_true, if_false]
  rw [htext]
  refine hnumber.hasValue rfl ?_
  rw [List.length_drop]
  omega

/-- A whole number in positional notation. -/
theorem hasValue_whole {digits : List Char} (hdigits : AreDigits digits) (hne : digits ≠ []) {e : Int}
    (he : 0 ≤ e) : HasValue (Double.positional digits (e + digits.length)) (value digits) e := by
  obtain ⟨zeros, rfl⟩ := Int.eq_ofNat_of_zero_le he
  have hpos : ¬ (zeros : Int) + digits.length ≤ 0 := by
    have := List.length_pos_iff.mpr hne
    omega
  have hdrop : digits.drop (zeros + digits.length) = [] :=
    List.drop_eq_nil_of_le (Nat.le_add_left _ _)
  have htake : digits.take (zeros + digits.length) = digits :=
    List.take_of_length_le (Nat.le_add_left _ _)
  have htext : Double.positional digits (zeros + digits.length) =
      (digits ++ List.replicate zeros '0') ++ '.' :: ['0'] := by
    have htoNat : ((zeros : Int) + digits.length).toNat = zeros + digits.length := by omega
    rw [Double.positional, if_neg hpos, htoNat, hdrop, htake, Nat.add_sub_cancel]
    rfl
  have hnumber := IsNumber.intro (IsMantissa.pointed (hdigits.append (areDigits_zeros zeros))
    (List.append_ne_nil_of_left_ne_nil hne _) (areDigits_zeros 1) (List.cons_ne_nil _ _)) .absent
  rw [List.append_nil] at hnumber
  refine ⟨_, _, htext ▸ hnumber, ?_⟩
  have hvalue : value (digits ++ List.replicate zeros '0' ++ List.replicate 1 '0') =
      value digits * 10 ^ (zeros + 1) := by
    rw [List.append_assoc, List.replicate_append_replicate, value_append_zeros]
  have hleft : (0 : Int) - (List.replicate 1 '0').length = (0 : Nat) - (1 : Nat) := rfl
  have hright : (zeros : Int) = ((zeros + 1 : Nat) : Int) - (1 : Nat) := by omega
  rw [hvalue, Double.ofDecimal_eq, Double.ofDecimal_eq, Double.nearestDecimal_eq _ hleft,
    Double.nearestDecimal_eq _ hright, Nat.pow_zero, Nat.mul_one]

theorem positional_hasValue {digits : List Char} (hdigits : AreDigits digits) (hne : digits ≠ [])
    (e : Int) : HasValue (Double.positional digits (e + digits.length)) (value digits) e := by
  by_cases hsmall : e + digits.length ≤ 0
  · exact hasValue_small hdigits hne hsmall
  · rcases Int.lt_or_le e 0 with hneg | hnonneg
    · exact hasValue_pointed hdigits hneg hsmall
    · exact hasValue_whole hdigits hne hnonneg

/-- The digits of an exponent, padded with zeros. -/
theorem isExponent_padded (e : Int) (zeros : Nat) :
    IsExponent ('e' :: (if e < 0 then '-' else '+') ::
      (List.replicate zeros '0' ++ Nat.toDigits 10 e.natAbs)) e := by
  have hdigits : AreDigits (List.replicate zeros '0' ++ Nat.toDigits 10 e.natAbs) :=
    (areDigits_zeros zeros).append (areDigits_toDigits _)
  have hne : List.replicate zeros '0' ++ Nat.toDigits 10 e.natAbs ≠ [] :=
    List.append_ne_nil_of_right_ne_nil _ Nat.toDigits_ne_nil
  have hvalue : value (List.replicate zeros '0' ++ Nat.toDigits 10 e.natAbs) = e.natAbs := by
    rw [value, Nat.ofDigitChars_append, Nat.ofDigitChars_replicate_zero, Nat.mul_zero,
      Nat.ofDigitChars_ten_toDigits]
  split
  · have := IsExponent.minus hdigits hne
    rw [hvalue, show -(e.natAbs : Int) = e by omega] at this
    exact this
  · have := IsExponent.plus hdigits hne
    rw [hvalue, show (e.natAbs : Int) = e by omega] at this
    exact this

/-- A number with an exponent. -/
theorem withExponent_hasValue (layout : Double.Layout) {digits : List Char}
    (hdigits : AreDigits digits) (hne : digits ≠ []) (e : Int) :
    HasValue (Double.withExponent layout digits (e + digits.length - 1)) (value digits) e := by
  have hexponent := isExponent_padded (e + digits.length - 1)
    (layout.exponentDigits - (Nat.toDigits 10 (e + digits.length - 1).natAbs).length)
  cases digits with
  | nil => exact absurd rfl hne
  | cons first rest =>
    obtain ⟨hfirst, hrest⟩ := List.forall_mem_cons.mp hdigits
    cases rest with
    | nil =>
      have hnumber := IsNumber.intro (.whole hdigits hne) hexponent
      simp only [Double.withExponent, List.append_assoc, List.cons_append]
      refine hnumber.hasValue rfl ?_
      simp only [List.length_cons, List.length_nil]
      omega
    | cons second rest =>
      have hsingle : AreDigits [first] := List.forall_mem_singleton.mpr hfirst
      have hnumber := IsNumber.intro
        (.pointed hsingle (List.cons_ne_nil _ _) hrest (List.cons_ne_nil _ _)) hexponent
      simp only [Double.withExponent, List.append_assoc, List.cons_append]
      refine hnumber.hasValue rfl ?_
      simp only [List.length_cons]
      omega

/-- A decimal number is written as a number of its value. -/
theorem hasValue_write (layout : Double.Layout) (d : Double.Decimal) :
    HasValue (d.write layout) d.digits d.exponent := by
  have hdigits := areDigits_toDigits d.digits
  have hne : Nat.toDigits 10 d.digits ≠ [] := Nat.toDigits_ne_nil
  have hvalue : value (Nat.toDigits 10 d.digits) = d.digits := Nat.ofDigitChars_ten_toDigits
  unfold Double.Decimal.write
  dsimp only
  split
  · have := positional_hasValue hdigits hne d.exponent
    rw [hvalue] at this
    rw [Int.sub_add_cancel]
    exact this
  · have := withExponent_hasValue layout hdigits hne d.exponent
    rw [hvalue] at this
    exact this

/-- The literal of a double has the magnitude of the double. -/
theorem exists_isNumber_double {x : Float} (hfinite : Double.isFinite x = true) :
    ∃ n e, IsNumber (Spelling.double x) n e ∧ ofDecimal n e = Double.magnitude x := by
  have hlt : Double.magnitude x < Double.infiniteMagnitude := of_decide_eq_true hfinite
  unfold Spelling.double
  dsimp only
  split
  · next hwhole =>
    obtain ⟨hintegral, -⟩ := Bool.and_eq_true_iff.mp hwhole
    have hunits : Double.units (Double.magnitude x) % Double.one = 0 :=
      beq_iff_eq.mp (Bool.and_eq_true_iff.mp hintegral).2
    have htruncate : (Double.truncate x).natAbs =
        Double.units (Double.magnitude x) / Double.one := by
      simp only [Double.truncate]
      split
      · rw [Int.natAbs_neg, Int.natAbs_natCast]
      · rw [Int.natAbs_natCast]
    rw [htruncate]
    exact ⟨_, _, isNumber_toDigits _, Double.ofDecimal_whole hlt hunits⟩
  · have hnan : ¬ Double.infiniteMagnitude < Double.magnitude x := by omega
    have hinfinite : Double.magnitude x ≠ Double.infiniteMagnitude := by omega
    rw [Double.writeMagnitude, if_neg hnan, if_neg hinfinite]
    split
    · next hzero =>
      rw [hzero]
      have := IsNumber.intro (.pointed (areDigits_zeros 1) (List.cons_ne_nil _ _) (areDigits_zeros 1)
        (List.cons_ne_nil _ _)) .absent
      exact ⟨_, _, this, by decide +kernel⟩
    · obtain ⟨n, e, hnumber, hvalue⟩ := hasValue_write Double.standardLayout
        (Double.shortest (Double.magnitude x))
      exact ⟨n, e, hnumber, hvalue.trans (Double.ofDecimal_shortest hlt)⟩

/-- The literal of a double without a sign reads as the double. -/
theorem read_double {x : Float} (hfinite : Double.isFinite x = true)
    (hsign : Double.isNegative x = false) {rest : List Char} (hrest : StopsName rest) :
    read (Spelling.double x ++ rest) = .ok (.double x, rest) := by
  obtain ⟨n, e, hnumber, hvalue⟩ := exists_isNumber_double hfinite
  rw [read_number hnumber hrest, hvalue, Double.ofMagnitude_magnitude hfinite hsign]

end RCode.Numeral
