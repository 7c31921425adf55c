import RCode.Double.Reading
import RCode.Double.Shortest
import RCode.Proofs.Double.Nearest

/-!
# Decimal numbers and doubles

The magnitude nearest to a decimal number is found by `ofDecimal`, which takes a short cut for
numbers far out of range; `ofDecimal_eq` says that the short cut makes no difference. The shortest
digits of a finite magnitude read back as the magnitude (`ofDecimal_shortest`), and so does a whole
number (`ofDecimal_whole`).
-/

set_option autoImplicit false

namespace RCode.Double

/-- The magnitude nearest to `digits * 10 ^ exponent`. -/
def nearestDecimal (digits : Nat) (exponent : Int) : Nat :=
  if 0 ≤ exponent then nearest (digits * 10 ^ exponent.toNat) 1
  else nearest digits (10 ^ exponent.natAbs)

theorem ten_pow_pos (k : Nat) : 0 < 10 ^ k :=
  Nat.pow_pos (by decide)

/-- The decimal number as a ratio of whole numbers. -/
theorem nearestDecimal_eq (digits : Nat) {e : Int} {j k : Nat} (h : e = (j : Int) - k) :
    nearestDecimal digits e = nearest (digits * 10 ^ j) (10 ^ k) := by
  unfold nearestDecimal
  split
  · next hnonneg =>
    have hj : j = k + e.toNat := by omega
    rw [← nearest_scale (ten_pow_pos k), hj, Nat.pow_add, Nat.mul_left_comm, Nat.mul_one]
  · next hneg =>
    have hk : k = j + e.natAbs := by omega
    rw [← nearest_scale (ten_pow_pos j), hk, Nat.pow_add, Nat.mul_comm digits]

/-! ## The short cut -/

theorem lt_pow_length (n : Nat) : n < 10 ^ (Nat.toDigits 10 n).length :=
  (Nat.length_toDigits_le_iff (by decide) Nat.length_toDigits_pos).mp (Nat.le_refl _)

theorem pow_length_le {n : Nat} (hn : n ≠ 0) : 10 ^ ((Nat.toDigits 10 n).length - 1) ≤ n := by
  rcases Nat.eq_zero_or_pos ((Nat.toDigits 10 n).length - 1) with hzero | hpos
  · rw [hzero]
    exact Nat.pos_of_ne_zero hn
  · refine Nat.le_of_not_lt fun hlt => ?_
    have := (Nat.length_toDigits_le_iff (by decide) hpos).mpr hlt
    omega

theorem half_of_least : 2 * one ≤ 10 ^ 330 := by
  decide +kernel

theorem beyond_greatest : 2 ^ 1025 ≤ 10 ^ 310 := by
  decide +kernel

theorem nearestDecimal_tiny {n k : Nat} {e : Int} (hk : 2 * one ≤ 10 ^ k)
    (h : (Nat.toDigits 10 n).length + e < -k) : nearestDecimal n e = 0 := by
  rw [nearestDecimal, if_neg (by omega)]
  refine nearest_eq_zero ?_
  calc 2 * (n * one) = n * (2 * one) := Nat.mul_left_comm 2 n one
    _ < 10 ^ (Nat.toDigits 10 n).length * (2 * one) :=
      (Nat.mul_lt_mul_right (Nat.mul_pos (by decide) one_pos)).mpr (lt_pow_length n)
    _ ≤ 10 ^ (Nat.toDigits 10 n).length * 10 ^ k := Nat.mul_le_mul_left _ hk
    _ = 10 ^ ((Nat.toDigits 10 n).length + k) := (Nat.pow_add _ _ _).symm
    _ ≤ 10 ^ e.natAbs := Nat.pow_le_pow_right (by decide) (by omega)

theorem nearestDecimal_huge {n k : Nat} {e : Int} (hk : 2 ^ 1025 ≤ 10 ^ k) (hn : n ≠ 0)
    (h : k < (Nat.toDigits 10 n).length + e) : nearestDecimal n e = infiniteMagnitude := by
  have hlow := pow_length_le hn
  have hlength := Nat.length_toDigits_pos (b := 10) (n := n)
  rw [nearestDecimal]
  split
  · refine nearest_eq_infinite Nat.one_pos hk ?_
    calc 1 * 10 ^ k = 10 ^ k := Nat.one_mul _
      _ ≤ 10 ^ ((Nat.toDigits 10 n).length - 1 + e.toNat) :=
        Nat.pow_le_pow_right (by decide) (by omega)
      _ = 10 ^ ((Nat.toDigits 10 n).length - 1) * 10 ^ e.toNat := Nat.pow_add _ _ _
      _ ≤ n * 10 ^ e.toNat := Nat.mul_le_mul_right _ hlow
  · refine nearest_eq_infinite (ten_pow_pos _) hk ?_
    calc 10 ^ e.natAbs * 10 ^ k = 10 ^ (e.natAbs + k) := (Nat.pow_add _ _ _).symm
      _ ≤ 10 ^ ((Nat.toDigits 10 n).length - 1) := Nat.pow_le_pow_right (by decide) (by omega)
      _ ≤ n := hlow

/-- The short cut makes no difference. -/
theorem ofDecimal_eq (n : Nat) (e : Int) : ofDecimal n e = nearestDecimal n e := by
  unfold ofDecimal
  dsimp only
  split
  · next hsmall =>
    rcases hsmall with rfl | htiny
    · rw [nearestDecimal, Nat.zero_mul]
      split
      · exact (nearest_zero Nat.one_pos).symm
      · exact (nearest_zero (ten_pow_pos _)).symm
    · exact (nearestDecimal_tiny half_of_least htiny).symm
  · next hsmall =>
    split
    · next hlarge => exact (nearestDecimal_huge beyond_greatest (fun h => hsmall (.inl h)) hlarge).symm
    · rfl

/-! ## Digits that read back -/

/-- Zeros at the end of the digits are factors of ten. -/
theorem stripZeros_spec (n : Nat) (e : Int) :
    ∃ zeros : Nat, n = (stripZeros n e).digits * 10 ^ zeros ∧ (stripZeros n e).exponent = e + zeros := by
  fun_induction stripZeros n e with
  | case1 n e h ih =>
    obtain ⟨zeros, hdigits, hexponent⟩ := ih
    refine ⟨zeros + 1, ?_, ?_⟩
    · rw [Nat.pow_succ, ← Nat.mul_assoc, ← hdigits]
      omega
    · rw [hexponent]
      omega
  | case2 n e => exact ⟨0, (Nat.mul_one n).symm, (Int.add_zero e).symm⟩

theorem nearestDecimal_stripZeros (n : Nat) (e : Int) :
    nearestDecimal (stripZeros n e).digits (stripZeros n e).exponent = nearestDecimal n e := by
  obtain ⟨zeros, hdigits, hexponent⟩ := stripZeros_spec n e
  obtain ⟨j, k, hjk⟩ : ∃ j k : Nat, e = (j : Int) - k := ⟨e.toNat, (-e).toNat, by omega⟩
  have hleft : (stripZeros n e).exponent = ((zeros + j : Nat) : Int) - k := by omega
  rw [nearestDecimal_eq _ hleft, nearestDecimal_eq _ hjk, Nat.pow_add, ← Nat.mul_assoc, ← hdigits]

theorem readsBack_iff {m n k : Nat} :
    readsBack m n k = true ↔ nearest (n * 10 ^ k) (10 ^ finestPlace) = m := by
  unfold readsBack
  exact beq_iff_eq

/-- The nearer neighbour is an accepted one. -/
theorem accepts_of_nearer? {accepts : Nat → Bool} {low rest width n : Nat}
    (h : nearer? accepts low rest width = some n) : accepts n = true := by
  unfold nearer? at h
  split at h
  · next hlow hhigh =>
    split at h
    · cases h; exact hlow
    · split at h
      · cases h; exact hhigh
      · obtain rfl := Option.some.inj h
        rcases Nat.mod_two_eq_zero_or_one low with heven | hodd
        · rw [heven, Nat.add_zero]; exact hlow
        · rw [hodd]; exact hhigh
  · next hlow _ => cases h; exact hlow
  · next _ hhigh => cases h; exact hhigh
  · cases h

/-- The exact value reads back. -/
theorem nearestDecimal_exactDecimal {m : Nat} (hm : m < infiniteMagnitude) :
    nearestDecimal (exactDecimal m).digits (exactDecimal m).exponent = m := by
  rw [exactDecimal, nearestDecimal_stripZeros,
    nearestDecimal_eq _ (Int.zero_sub _).symm, Nat.pow_zero, Nat.mul_one, Nat.mul_comm,
    show 10 = 5 * 2 by decide, Nat.mul_pow, nearest_scale (Nat.pow_pos (by decide))]
  exact nearest_units hm

/-- What is found on a grid reads back. -/
theorem nearestDecimal_onGrid? {m total k : Nat} {d : Decimal} (h : onGrid? m total k = some d) :
    nearestDecimal d.digits d.exponent = m := by
  obtain ⟨digits, hcandidate, rfl⟩ := Option.map_eq_some_iff.mp h
  unfold candidate? at hcandidate
  have haccepted := accepts_of_nearer? hcandidate
  have hplace : (k : Int) - (finestPlace : Int) = (k : Int) - (finestPlace : Nat) := rfl
  rw [nearestDecimal_stripZeros, nearestDecimal_eq digits hplace]
  exact readsBack_iff.mp haccepted

/-- Rounded digits read back. -/
theorem nearestDecimal_rounded? {m : Nat} {d : Decimal} (h : rounded? m = some d) :
    nearestDecimal d.digits d.exponent = m := by
  unfold rounded? at h
  obtain ⟨count, -, hcount⟩ := List.exists_of_findSome?_eq_some h
  exact nearestDecimal_onGrid? hcount

/-- The shortest digits of a finite magnitude read back as the magnitude. -/
theorem ofDecimal_shortest {m : Nat} (hm : m < infiniteMagnitude) :
    ofDecimal (shortest m).digits (shortest m).exponent = m := by
  rw [ofDecimal_eq, shortest]
  cases hrounded : rounded? m with
  | none =>
    rw [Option.getD_none]
    exact nearestDecimal_exactDecimal hm
  | some d =>
    rw [Option.getD_some]
    exact nearestDecimal_rounded? hrounded

theorem ofDecimal_zero_exponent (n : Nat) : ofDecimal n 0 = nearest n 1 := by
  rw [ofDecimal_eq, nearestDecimal, if_pos (Int.le_refl 0), Int.toNat_zero, Nat.pow_zero,
    Nat.mul_one]

/-- A whole number of units of one is read back from its digits. -/
theorem ofDecimal_whole {m : Nat} (hm : m < infiniteMagnitude) (hwhole : units m % one = 0) :
    ofDecimal (units m / one) 0 = m := by
  have hunits : one * (units m / one) = units m := by
    have := Nat.div_add_mod (units m) one
    rw [hwhole, Nat.add_zero] at this
    exact this
  calc ofDecimal (units m / one) 0 = nearest (units m / one) 1 := ofDecimal_zero_exponent _
    _ = nearest (one * (units m / one)) (one * 1) := (nearest_scale one_pos _ _).symm
    _ = m := by rw [hunits, Nat.mul_one, nearest_units hm]

end RCode.Double
