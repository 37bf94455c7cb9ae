import Stencil.Proofs.Decimal.Value

/-!
# Remainders

Main statement: the magnitude of the remainder of two decimals is what the magnitude of the second
leaves of that of the first, whatever signs and scales the two have. Both are brought to the larger
scale, where no digit is lost, so that the remainder of the unscaled integers is that of the numbers.
-/

namespace Stencil.Decimal

theorem abs_value_unscaledAt {d : Decimal} {s : ℤ} (h : d.scale ≤ s) :
    |d.value| = (d.unscaledAt s).natAbs * 10 ^ (-s) := by
  rw [← value_unscaledAt h, abs_mul_pow, Nat.cast_natAbs, Int.cast_abs]

theorem cast_emod (m n : ℤ) : ((m % n : ℤ) : ℚ) = m - n * (m / n : ℤ) := by
  rw [eq_sub_iff_add_eq]
  exact_mod_cast Int.emod_add_mul_ediv m n

variable (a b : Decimal)

/-- The magnitude of a remainder is the remainder of the magnitudes. -/
theorem abs_remainder : (a.remainder b).abs =
    ⟨((a.unscaledAt (max a.scale b.scale)).natAbs % (b.unscaledAt (max a.scale b.scale)).natAbs : ℕ),
      max a.scale b.scale⟩ := by
  rw [abs, remainder, Int.natAbs_tmod]

/-- The magnitude of the first number is the remainder and as many times that of the second as fit
into it. -/
theorem value_abs_remainder :
    (a.remainder b).abs.value = |a.value| - |b.value| * ⌊|a.value| / |b.value|⌋ := by
  have hpow := ten_zpow_pos (-max a.scale b.scale)
  rw [abs_value_unscaledAt (le_max_left a.scale b.scale),
    abs_value_unscaledAt (le_max_right a.scale b.scale), mul_div_mul_right _ _ hpow.ne',
    Rat.floor_natCast_div_natCast, abs_remainder, value]
  dsimp only
  rw [Int.natCast_mod, cast_emod, Int.cast_natCast, Int.cast_natCast]
  ring

/-- The remainder lies below the magnitude of a number that is not zero. -/
theorem value_abs_remainder_bounds (hb : b.value ≠ 0) :
    0 ≤ (a.remainder b).abs.value ∧ (a.remainder b).abs.value < |b.value| := by
  have hpos := abs_pos.mpr hb
  rw [value_abs_remainder, mul_comm]
  exact ⟨Int.sub_floor_div_mul_nonneg _ hpos, Int.sub_floor_div_mul_lt _ hpos⟩

/-- Signs do not count. -/
theorem value_abs_remainder_congr {a b a' b' : Decimal} (ha : |a'.value| = |a.value|)
    (hb : |b'.value| = |b.value|) : (a'.remainder b').abs.value = (a.remainder b).abs.value := by
  rw [value_abs_remainder, value_abs_remainder, ha, hb]

end Stencil.Decimal
