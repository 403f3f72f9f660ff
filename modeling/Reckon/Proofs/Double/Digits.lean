import Mathlib.Algebra.Order.Floor.Semifield
import Mathlib.Data.Nat.Cast.Order.Field
import Mathlib.Data.Rat.Floor
import Reckon.Double.Digits
import Reckon.Proofs.Double.Nearest

/-! # Digits of a rounded double

The decade of a double is found from the digits of its whole part, or of its reciprocal's. A double
rounded to so many digits has all of them, since its magnitude is not below its decade.
-/

namespace Reckon

theorem lt_pow_digitCount (n : Nat) : n < 10 ^ digitCount n :=
  (Nat.length_toDigits_le_iff (by decide) Nat.length_toDigits_pos).mp (Nat.le_refl _)

/-- A number has more digits than the power of ten has zeros. -/
theorem lt_digitCount_of_pow_le {n zeros : Nat} (large : 10 ^ zeros ≤ n) :
    zeros < digitCount n := by
  by_contra few
  have small := lt_pow_digitCount n
  have power : 10 ^ digitCount n ≤ 10 ^ zeros := Nat.pow_le_pow_right (by decide) (by omega)
  omega

theorem pow_digitCount_le {n : Nat} (pos : 0 < n) : 10 ^ (digitCount n - 1) ≤ n := by
  rcases Nat.eq_zero_or_pos (digitCount n - 1) with none | some
  · rw [none]
    exact pos
  · by_contra small
    have few := (Nat.length_toDigits_le_iff (b := 10) (by decide) some).mpr (Nat.lt_of_not_le small)
    have count : digitCount n = (Nat.toDigits 10 n).length := rfl
    omega

namespace Double

variable {d : Double}

theorem pow_decade_le (notZero : d.units ≠ 0) : (10 : ℚ) ^ (d.decade - 1) ≤ d.magnitude := by
  have pos : 0 < d.units := Nat.pos_of_ne_zero notZero
  unfold decade
  split
  · next large =>
    -- The whole part has the digits of the magnitude.
    have one : 0 < unitsOfOne := Nat.cast_pos.mp unitsOfOne_pos
    have whole : 10 ^ (digitCount (d.units / unitsOfOne) - 1) ≤ d.units / unitsOfOne :=
      pow_digitCount_le (Nat.div_pos large one)
    have digits : 0 < digitCount (d.units / unitsOfOne) := Nat.length_toDigits_pos
    have exponent : (digitCount (d.units / unitsOfOne) : ℤ) - 1 =
        (digitCount (d.units / unitsOfOne) - 1 : Nat) := by omega
    rw [exponent, zpow_natCast]
    have quotient : ((d.units / unitsOfOne : Nat) : ℚ) ≤ d.magnitude := Nat.cast_div_le
    exact le_trans (by exact_mod_cast whole) quotient
  · -- The reciprocal has no more than that many digits before its point.
    generalize reciprocal : (unitsOfOne + d.units - 1) / d.units - 1 = n
    have covers : unitsOfOne ≤ (n + 1) * d.units := by
      have division := Nat.div_add_mod' (unitsOfOne + d.units - 1) d.units
      have rest := Nat.mod_lt (unitsOfOne + d.units - 1) pos
      have least : (unitsOfOne + d.units - 1) / d.units ≤ n + 1 := by omega
      have scaled := Nat.mul_le_mul_right d.units least
      omega
    have power : n + 1 ≤ 10 ^ digitCount n := lt_pow_digitCount n
    have scaled := covers.trans (Nat.mul_le_mul_right d.units power)
    have exponent : (1 - digitCount n : ℤ) - 1 = -digitCount n := by omega
    rw [exponent, zpow_neg, zpow_natCast, magnitude, inv_eq_one_div,
      div_le_div_iff₀ (by positivity) unitsOfOne_pos, one_mul, mul_comm]
    exact_mod_cast scaled

/-- The quotient that is rounded is the magnitude, in units of the last place. -/
theorem inLastPlace_eq (d : Double) (count : Nat) :
    ((d.inLastPlace count).1 : ℚ) / (d.inLastPlace count).2 =
      d.magnitude * 10 ^ (count - d.decade) := by
  have place : d.units * (10 : ℚ) ^ (count - d.decade) =
      (⟨d.units, -(d.decade - count)⟩ : Decimal).value := by rw [Decimal.value, neg_sub]
  rw [magnitude, div_mul_eq_mul_div, place, Decimal.value_eq, neg_neg, div_div]
  simp only [inLastPlace, Nat.cast_mul, mul_comm]

/-- A significand keeps its digits in the decade, with or without a carry. -/
theorem pow_le_ofDigits (d : Double) {count significand : Nat}
    (large : 10 ^ (count - 1) ≤ significand) :
    10 ^ (count - 1) ≤ (d.ofDigits count significand).significand := by
  have power : tenTo (count - 1) = 10 ^ (count - 1) := rfl
  rw [ofDigits]
  split
  · exact large
  · exact Nat.le_of_eq power.symm

theorem pow_le_rounded (notZero : d.units ≠ 0) {count : Nat} (pos : 0 < count) :
    10 ^ (count - 1) ≤ (d.rounded count).significand := by
  have place := d.inLastPlace_eq count
  have rounds : d.rounded count = d.ofDigits count
      (roundHalfEven (d.inLastPlace count).1 (d.inLastPlace count).2) := rfl
  rw [rounds]
  refine d.pow_le_ofDigits ?_
  generalize (d.inLastPlace count).1 = num at *
  generalize (d.inLastPlace count).2 = den at *
  have large : 10 ^ (count - 1) ≤ num / den := by
    have exponent : ((count - 1 : Nat) : ℤ) = (d.decade - 1) + (count - d.decade) := by omega
    have decade := mul_le_mul_of_nonneg_right (pow_decade_le notZero)
      (zpow_nonneg (by decide : (0 : ℚ) ≤ 10) (count - d.decade))
    rw [← zpow_add₀ (by decide), ← exponent, zpow_natCast, ← place] at decade
    rw [← Nat.floor_div_eq_div (K := ℚ)]
    exact Nat.le_floor (by exact_mod_cast decade)
  obtain ⟨⟨quotient, -⟩ | ⟨next, -⟩, -⟩ := roundHalfEven_cases num den <;> omega

end Double

end Reckon
