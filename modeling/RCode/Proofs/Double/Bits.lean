import Mathlib
import RCode.Double.Basic

/-!
# Bit patterns

Every bit pattern that is no NaN is the pattern of a double (`toBits_ofBits`). The sign and the
magnitude of a double can therefore be chosen freely: a double built from them has them
(`magnitude_ofMagnitude`, `isNegative_ofMagnitude`), and dropping the sign keeps the magnitude.
-/

set_option autoImplicit false

namespace RCode.Double

open Float.Model Float.Model.UnpackedFloat

/-! ## Doubles with given bits -/

/-- The pattern of a number has no mantissa under the largest exponent. -/
theorem isNaNBits_eq_false {u : UInt64} (h : u.toNat % 2 ^ 63 ≤ infiniteMagnitude) :
    @isNaNBits Format.binary64 u.toBitVec = false := by
  refine decide_eq_false fun ⟨hexponent, hmantissa⟩ => hmantissa (BitVec.eq_of_toNat_eq ?_)
  have he : (@unpackExponent Format.binary64 u.toBitVec).toNat = u.toNat / 2 ^ 52 % 2 ^ 11 := by
    rw [unpackExponent_def, BitVec.extractLsb'_toNat, Nat.shiftRight_eq_div_pow]
    rfl
  have hm : (@unpackMantissa Format.binary64 u.toBitVec).toNat = u.toNat % 2 ^ 52 := by
    rw [unpackMantissa_def, BitVec.extractLsb'_toNat, Nat.shiftRight_zero]
    rfl
  have hall : u.toNat / 2 ^ 52 % 2 ^ 11 = 2047 := he.symm.trans (congrArg BitVec.toNat hexponent)
  have hlt := u.toNat_lt
  rw [hm]
  change u.toNat % 2 ^ 52 = 0
  simp only [infiniteMagnitude] at h
  omega

/-- Every bit pattern that is no NaN is the pattern of a double. -/
theorem toBits_ofBits {u : UInt64} (h : u.toNat % 2 ^ 63 ≤ infiniteMagnitude) :
    (Float.ofBits u).toBits = u := by
  have hpacked : UnpackedFloat.pack Format.binary64
      (UnpackedFloat.unpack Format.binary64 u.toBitVec) = u.toBitVec := by
    rw [pack_unpack, isNaNBits_eq_false h]
    rfl
  unfold Float.ofBits Float.toBits
  simp only [Float.Model.ofBits, Float.Model.pack, hpacked]

/-- The bits of the double with a sign and a magnitude. -/
theorem toBits_ofMagnitude {negative : Bool} {m : Nat} (h : m ≤ infiniteMagnitude) :
    (ofMagnitude negative m).toBits.toNat = if negative then 2 ^ 63 + m else m := by
  unfold ofMagnitude
  have hlt : (if negative then 2 ^ 63 + m else m) < 2 ^ 64 := by
    simp only [infiniteMagnitude] at h
    split <;> omega
  have hnat : (UInt64.ofNat (if negative then 2 ^ 63 + m else m)).toNat =
      if negative then 2 ^ 63 + m else m :=
    UInt64.toNat_ofNat_of_lt hlt
  rw [toBits_ofBits, hnat]
  rw [hnat]
  simp only [infiniteMagnitude] at h ⊢
  split <;> omega

theorem magnitude_ofMagnitude {negative : Bool} {m : Nat} (h : m ≤ infiniteMagnitude) :
    magnitude (ofMagnitude negative m) = m := by
  unfold magnitude
  rw [toBits_ofMagnitude h]
  simp only [infiniteMagnitude] at h
  split <;> omega

theorem isNegative_ofMagnitude {negative : Bool} {m : Nat} (h : m ≤ infiniteMagnitude) :
    isNegative (ofMagnitude negative m) = negative := by
  unfold isNegative
  rw [toBits_ofMagnitude h]
  simp only [infiniteMagnitude] at h
  cases negative with
  | true => simp
  | false =>
    simp only [Bool.false_eq_true, if_false, decide_eq_false_iff_not]
    omega

/-! ## Signs -/

theorem isNaN_nan : isNaN nan = true := by decide +kernel

theorem absolute_of_isInfinite {x : Float} (h : isInfinite x = true) : absolute x = infinity := by
  rw [absolute, beq_iff_eq.mp h, infinity]

section

variable {x : Float}

/-- The magnitude of what is a number. -/
theorem magnitude_le_of_not_isNaN (h : isNaN x = false) : magnitude x ≤ infiniteMagnitude :=
  Nat.le_of_not_lt (of_decide_eq_false h)

theorem magnitude_absolute (h : isNaN x = false) : magnitude (absolute x) = magnitude x :=
  magnitude_ofMagnitude (magnitude_le_of_not_isNaN h)

theorem isNegative_absolute (h : isNaN x = false) : isNegative (absolute x) = false :=
  isNegative_ofMagnitude (magnitude_le_of_not_isNaN h)

theorem isNaN_absolute (h : isNaN x = false) : isNaN (absolute x) = false := by
  rw [isNaN, magnitude_absolute h]
  exact h

theorem absolute_absolute (h : isNaN x = false) : absolute (absolute x) = absolute x := by
  rw [absolute, magnitude_absolute h, absolute]

theorem isInfinite_absolute (h : isNaN x = false) : isInfinite (absolute x) = isInfinite x := by
  rw [isInfinite, magnitude_absolute h, isInfinite]

theorem isFinite_absolute (h : isNaN x = false) : isFinite (absolute x) = isFinite x := by
  rw [isFinite, magnitude_absolute h, isFinite]

theorem isFinite_of_not_isInfinite (h : isNaN x = false) (hfinite : isInfinite x = false) :
    isFinite x = true := by
  have hle := magnitude_le_of_not_isNaN h
  have hne : magnitude x ≠ infiniteMagnitude := by
    simpa [isInfinite] using hfinite
  exact decide_eq_true (Nat.lt_of_le_of_ne hle hne)

/-- A number without the sign bit is its own absolute value. -/
theorem ofMagnitude_magnitude (h : isFinite x = true) (hsign : isNegative x = false) :
    ofMagnitude false (magnitude x) = x := by
  have hle : magnitude x ≤ infiniteMagnitude := Nat.le_of_lt (of_decide_eq_true h)
  refine Float.toBits_inj.mp (UInt64.toNat_inj.mp ?_)
  rw [toBits_ofMagnitude hle]
  have hlt : x.toBits.toNat < 2 ^ 63 := Nat.lt_of_not_le (of_decide_eq_false hsign)
  exact Nat.mod_eq_of_lt hlt

/-- What is not below zero is its absolute value; zero has no sign. -/
theorem same_absolute (h : isNaN x = false) (hsign : (isNegative x && !isZero x) = false) :
    same x (absolute x) = true := by
  have hkey : orderKey x = orderKey (absolute x) := by
    rw [orderKey, orderKey, isNegative_absolute h, magnitude_absolute h]
    cases hneg : isNegative x with
    | false => rfl
    | true =>
      rw [hneg, Bool.true_and, Bool.not_eq_false'] at hsign
      have hzero : magnitude x = 0 := beq_iff_eq.mp hsign
      rw [hzero]
      rfl
  rw [same, h, isNaN_absolute h, hkey, beq_self_eq_true]
  rfl

end

end RCode.Double
