import RCode.Double.Rounding

/-!
# Properties of rounding

Rounding depends on the ratio alone (`nearest_scale`), and an exact double is its own nearest one
(`nearest_units`). Ratios far below the least double round to zero, ratios far above the greatest to
infinity.
-/

set_option autoImplicit false

namespace RCode.Double

/-! ## Ratios -/

theorem roundDiv_scale {k : Nat} (hk : 0 < k) (n d : Nat) :
    roundDiv (k * n) (k * d) = roundDiv n d := by
  unfold roundDiv
  simp only [Nat.mul_div_mul_left n d hk, Nat.mul_mod_mul_left, Nat.mul_left_comm 2 k,
    Nat.mul_lt_mul_left hk]

/-- A common factor makes no difference. -/
theorem nearest_scale {k : Nat} (hk : 0 < k) (n d : Nat) :
    nearest (k * n) (k * d) = nearest n d := by
  simp only [nearest, Nat.mul_assoc, Nat.mul_div_mul_left _ _ hk, roundDiv_scale hk]

theorem roundDiv_exact {k d : Nat} (hd : 0 < d) : roundDiv (k * d) d = k := by
  unfold roundDiv
  simp only [Nat.mul_mod_left, Nat.mul_div_cancel k hd, Nat.mul_zero, hd, if_true]

/-! ## Exact values -/

/-- The significand and the shift that a magnitude consists of. -/
theorem significand_bounds (m : Nat) :
    (shift m = 0 ∧ significand m = m ∧ m < 2 ^ 53) ∨
      (2 ^ 52 ≤ significand m ∧ significand m < 2 ^ 53 ∧
        shift m * 2 ^ 52 + significand m = m) := by
  unfold significand shift
  omega

theorem one_pos : 0 < one := by
  decide +kernel

theorem log2_shifted {a : Nat} (hlow : 2 ^ 52 ≤ a) (hhigh : a < 2 ^ 53) (s : Nat) :
    (a * 2 ^ s).log2 = 52 + s := by
  have hpow : 0 < 2 ^ s := Nat.two_pow_pos s
  have hpos : a * 2 ^ s ≠ 0 := Nat.mul_ne_zero (by omega) (Nat.ne_of_gt hpow)
  refine (Nat.log2_eq_iff hpos).mpr ⟨?_, ?_⟩
  · rw [Nat.pow_add]
    exact Nat.mul_le_mul_right _ hlow
  · rw [show 52 + s + 1 = 53 + s by omega, Nat.pow_add]
    exact (Nat.mul_lt_mul_right hpow).mpr hhigh

/-- A whole number of at most 53 bits, shifted, is exact where its units are counted. -/
theorem nearest_exact {n d a s : Nat} (hd : 0 < d) (htotal : n * one = a * (d * 2 ^ s))
    (hs : (a * 2 ^ s).log2 - 52 = s) :
    nearest n d = min (s * 2 ^ 52 + a) infiniteMagnitude := by
  have hpow : 0 < 2 ^ s := Nat.two_pow_pos s
  have hquotient : n * one / d = a * 2 ^ s := by
    rw [htotal, Nat.mul_left_comm, Nat.mul_div_cancel_left _ hd]
  simp only [nearest, hquotient, hs]
  rw [htotal, roundDiv_exact (Nat.mul_pos hd hpow)]

/-- A finite double is the nearest to its own value. -/
theorem nearest_units {m : Nat} (hm : m < infiniteMagnitude) : nearest (units m) one = m := by
  have htotal : units m * one = significand m * (one * 2 ^ shift m) := by
    rw [units, Nat.mul_assoc, Nat.mul_comm one]
  rcases significand_bounds m with ⟨hshift, hsignificand, hlt⟩ | ⟨hlow, hhigh, hsum⟩
  · have hlog : (significand m * 2 ^ shift m).log2 - 52 = shift m := by
      rw [hshift, hsignificand, Nat.pow_zero, Nat.mul_one]
      by_cases hzero : m = 0
      · rw [hzero]
        rfl
      · have := (Nat.log2_lt hzero).mpr hlt
        omega
    rw [nearest_exact one_pos htotal hlog, hshift, hsignificand]
    omega
  · have hlog : (significand m * 2 ^ shift m).log2 - 52 = shift m := by
      rw [log2_shifted hlow hhigh]
      omega
    rw [nearest_exact one_pos htotal hlog, hsum]
    omega

/-- The units of a magnitude with a given shift and a significand with the hidden bit. -/
theorem units_of_normal {a s : Nat} (hlow : 2 ^ 52 ≤ a) (hhigh : a < 2 ^ 53) :
    units (s * 2 ^ 52 + a) = a * 2 ^ s := by
  have hshift : shift (s * 2 ^ 52 + a) = s := by
    unfold shift
    omega
  have hsignificand : significand (s * 2 ^ 52 + a) = a := by
    rw [significand, hshift]
    omega
  rw [units, hshift, hsignificand]

/-- A whole number of at most 53 bits as a magnitude. -/
theorem nearest_whole {n : Nat} (hpos : 0 < n) (hn : n < 2 ^ 53) :
    ∃ a s, 2 ^ 52 ≤ a ∧ a < 2 ^ 53 ∧ n * one = a * 2 ^ s ∧ nearest n 1 = s * 2 ^ 52 + a ∧
      s * 2 ^ 52 + a < infiniteMagnitude := by
  have hne : n ≠ 0 := Nat.ne_of_gt hpos
  have hlog : n.log2 < 53 := (Nat.log2_lt hne).mpr hn
  obtain ⟨a, rise, ha, hrise⟩ : ∃ a rise, a = n * 2 ^ rise ∧ rise + n.log2 = 52 :=
    ⟨_, 52 - n.log2, rfl, by omega⟩
  have hlow : 2 ^ 52 ≤ a := by
    rw [ha, ← hrise, Nat.add_comm, Nat.pow_add]
    exact Nat.mul_le_mul_right _ (Nat.log2_self_le hne)
  have hhigh : a < 2 ^ 53 := by
    rw [ha, show 53 = n.log2 + 1 + rise by omega, Nat.pow_add]
    exact (Nat.mul_lt_mul_right (Nat.two_pow_pos rise)).mpr Nat.lt_log2_self
  have hplaces : unitPlaces = 1074 := rfl
  have htotal : n * one = a * (1 * 2 ^ (unitPlaces - rise)) := by
    rw [ha, Nat.one_mul, Nat.mul_assoc, ← Nat.pow_add,
      show rise + (unitPlaces - rise) = unitPlaces by omega]
    rfl
  have hs : (a * 2 ^ (unitPlaces - rise)).log2 - 52 = unitPlaces - rise := by
    rw [log2_shifted hlow hhigh]
    omega
  have hfinite : (unitPlaces - rise) * 2 ^ 52 + a < infiniteMagnitude := by
    unfold infiniteMagnitude
    omega
  refine ⟨a, unitPlaces - rise, hlow, hhigh, by rw [htotal, Nat.one_mul], ?_, hfinite⟩
  rw [nearest_exact Nat.one_pos htotal hs, Nat.min_eq_left (Nat.le_of_lt hfinite)]

theorem nearest_zero {d : Nat} (hd : 0 < d) : nearest 0 d = 0 := by
  have hround : roundDiv 0 d = 0 := by
    have := roundDiv_exact (k := 0) hd
    rw [Nat.zero_mul] at this
    exact this
  have hlog : Nat.log2 0 - 52 = 0 := rfl
  simp only [nearest, Nat.zero_mul, Nat.zero_div, hlog, Nat.pow_zero, Nat.mul_one, hround]
  rfl

/-- A whole number of at most 53 bits is a double. -/
theorem units_nearest {n : Nat} (hn : n < 2 ^ 53) :
    units (nearest n 1) = n * one ∧ nearest n 1 < infiniteMagnitude := by
  rcases Nat.eq_zero_or_pos n with rfl | hpos
  · rw [nearest_zero Nat.one_pos, Nat.zero_mul]
    exact ⟨rfl, by decide⟩
  · obtain ⟨a, s, hlow, hhigh, htotal, hnearest, hfinite⟩ := nearest_whole hpos hn
    rw [hnearest, units_of_normal hlow hhigh, htotal]
    exact ⟨rfl, hfinite⟩

/-! ## Far out of range -/

/-- What is less than half of the least double rounds to zero. -/
theorem nearest_eq_zero {n d : Nat} (h : 2 * (n * one) < d) : nearest n d = 0 := by
  have hquotient : n * one / d = 0 := Nat.div_eq_of_lt (by omega)
  have hlog : Nat.log2 0 - 52 = 0 := rfl
  have hround : roundDiv (n * one) d = 0 := by
    have hmod : n * one % d = n * one := Nat.mod_eq_of_lt (by omega)
    simp only [roundDiv, hquotient, hmod, h, if_true]
  simp only [nearest, hquotient, hlog, Nat.pow_zero, Nat.mul_one, Nat.zero_mul, hround]
  rfl

/-- What is at least 2¹⁰²⁵ rounds to infinity. -/
theorem nearest_eq_infinite {n d b : Nat} (hd : 0 < d) (hb : 2 ^ 1025 ≤ b) (h : d * b ≤ n) :
    nearest n d = infiniteMagnitude := by
  have hshifted : ∀ a b : Nat, d * 2 ^ a ≤ n → 2 ^ (a + b) ≤ n * 2 ^ b / d := by
    intro a b h
    rw [Nat.le_div_iff_mul_le hd, Nat.pow_add, Nat.mul_right_comm, Nat.mul_comm (2 ^ a)]
    exact Nat.mul_le_mul_right _ h
  have hquotient : 2 ^ (1025 + unitPlaces) ≤ n * one / d := by
    rw [one]
    exact hshifted 1025 unitPlaces (Nat.le_trans (Nat.mul_le_mul_left d hb) h)
  have hne : n * one / d ≠ 0 := by
    intro hzero
    rw [hzero] at hquotient
    exact Nat.ne_of_gt (Nat.two_pow_pos _) (Nat.le_zero.mp hquotient)
  have hlog : 1025 + unitPlaces ≤ (n * one / d).log2 := (Nat.le_log2 hne).mpr hquotient
  refine Nat.min_eq_right ?_
  have : 2047 ≤ (n * one / d).log2 - 52 := by
    have hplaces : unitPlaces = 1074 := rfl
    omega
  have hshift := Nat.mul_le_mul_right (2 ^ 52) this
  exact Nat.le_trans hshift (Nat.le_add_right _ _)

end RCode.Double
