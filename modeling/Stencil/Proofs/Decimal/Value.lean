import Mathlib.Data.Rat.Floor
import Mathlib.Tactic.FieldSimp
import Mathlib.Tactic.Linarith
import Mathlib.Tactic.Positivity
import Mathlib.Tactic.Ring
import Stencil.Decimal.Basic

/-!
# Decimals as rational numbers

The scale of a result is a convention, its value is not: sums, differences and products of decimals
have the sum, the difference and the product of the two numbers as their value, whatever scales the
operands have. The integer part of a decimal is that of its value, toward zero.
-/

namespace Stencil

theorem ten_ne_zero : (10 : ℚ) ≠ 0 := by norm_num

theorem ten_zpow_pos (s : ℤ) : (0 : ℚ) < 10 ^ s := zpow_pos (by norm_num) s

theorem ten_zpow_le {s t : ℤ} (h : s ≤ t) : (10 : ℚ) ^ s ≤ 10 ^ t :=
  zpow_le_zpow_right₀ (by norm_num) h

/-- The integer part of a rational number: the number without its fraction, toward zero. -/
def towardZero (q : ℚ) : ℤ := if q < 0 then ⌈q⌉ else ⌊q⌋

theorem towardZero_intCast (n : ℤ) : towardZero n = n := by
  unfold towardZero
  split <;> simp

theorem towardZero_neg (q : ℚ) : towardZero (-q) = -towardZero q := by
  unfold towardZero
  rcases lt_trichotomy q 0 with hneg | rfl | hpos
  · have hlt : ¬-q < 0 := by linarith
    rw [if_pos hneg, if_neg hlt, Int.floor_neg]
  · simp
  · have hlt : ¬q < 0 := by linarith
    rw [if_pos (by linarith), if_neg hlt, Int.ceil_neg]

theorem towardZero_natCast_div (m n : ℕ) : towardZero ((m : ℚ) / n) = (m / n : ℕ) := by
  have hnonneg : ¬(m : ℚ) / n < 0 := not_lt.mpr (by positivity)
  have hfloor := Rat.floor_intCast_div_natCast (m : ℤ) n
  rw [Int.cast_natCast] at hfloor
  rw [towardZero, if_neg hnonneg, hfloor, Int.natCast_div]

theorem abs_towardZero_le (q : ℚ) : |(towardZero q : ℚ)| ≤ |q| := by
  unfold towardZero
  split
  · next h =>
    have hceil : ((⌈q⌉ : ℤ) : ℚ) ≤ 0 := by exact_mod_cast Int.ceil_le.mpr (by exact_mod_cast h.le)
    rw [abs_of_nonpos hceil, abs_of_neg h]
    exact neg_le_neg (Int.le_ceil q)
  · next h =>
    have hfloor : (0 : ℚ) ≤ ⌊q⌋ := by exact_mod_cast Int.floor_nonneg.mpr (not_lt.mp h)
    rw [abs_of_nonneg hfloor, abs_of_nonneg (not_lt.mp h)]
    exact Int.floor_le q

namespace Decimal

/-- The rational number that a decimal is. -/
def value (d : Decimal) : ℚ := d.unscaled * 10 ^ (-d.scale)

/-! ## Signs -/

theorem signed_of_neg {u : ℤ} (h : u < 0) (m : ℕ) : signed u m = -(m : ℤ) := if_pos h

theorem signed_of_nonneg {u : ℤ} (h : 0 ≤ u) (m : ℕ) : signed u m = m := if_neg (not_lt.mpr h)

theorem signed_mul (u : ℤ) (m k : ℕ) : signed u (m * k) = signed u m * k := by
  rcases lt_or_ge u 0 with h | h
  · rw [signed_of_neg h, signed_of_neg h, Int.natCast_mul, neg_mul]
  · rw [signed_of_nonneg h, signed_of_nonneg h, Int.natCast_mul]

/-- A sign that was put aside comes back. -/
theorem signed_natAbs (u : ℤ) : signed u u.natAbs = u := by
  rcases lt_or_ge u 0 with h | h
  · rw [signed_of_neg h]
    omega
  · rw [signed_of_nonneg h]
    omega

theorem cast_of_neg {u : ℤ} (h : u < 0) : (u : ℚ) = -(u.natAbs : ℚ) := by
  rw [Nat.cast_natAbs, Int.cast_abs, abs_of_neg (Int.cast_lt_zero.mpr h), neg_neg]

theorem cast_of_nonneg {u : ℤ} (h : 0 ≤ u) : (u : ℚ) = (u.natAbs : ℚ) := by
  rw [Nat.cast_natAbs, Int.cast_abs, abs_of_nonneg (Int.cast_nonneg h)]

theorem abs_mul_pow (q : ℚ) (s : ℤ) : |q * 10 ^ s| = |q| * 10 ^ s := by
  rw [abs_mul, abs_of_pos (ten_zpow_pos s)]

theorem abs_value (d : Decimal) : |d.value| = d.unscaled.natAbs * 10 ^ (-d.scale) := by
  rw [value, abs_mul_pow, Nat.cast_natAbs, Int.cast_abs]

theorem value_neg_iff (d : Decimal) : d.value < 0 ↔ d.unscaled < 0 := by
  have hpow := ten_zpow_pos (-d.scale)
  constructor
  · intro h
    exact Int.cast_lt_zero.mp (neg_of_mul_neg_left h hpow.le)
  · intro h
    exact mul_neg_of_neg_of_pos (Int.cast_lt_zero.mpr h) hpow

/-! ## Scales -/

theorem isZero_iff (d : Decimal) : d.isZero = true ↔ d.unscaled = 0 := beq_iff_eq

theorem value_of_isZero {d : Decimal} (h : d.isZero = true) : d.value = 0 := by
  rw [value, (isZero_iff d).mp h, Int.cast_zero, zero_mul]

theorem value_eq_zero_iff (d : Decimal) : d.value = 0 ↔ d.isZero = true := by
  constructor
  · intro h
    rw [isZero_iff]
    exact Int.cast_eq_zero.mp ((mul_eq_zero.mp h).resolve_right (ten_zpow_pos _).ne')
  · exact value_of_isZero

theorem value_natCast_scale (u : ℤ) (n : ℕ) : value ⟨u, n⟩ = u / 10 ^ n := by
  rw [value, zpow_neg, zpow_natCast, div_eq_mul_inv]

/-- Zeros that are appended make up for the places. -/
theorem value_appended (u s : ℤ) (n : ℕ) : value ⟨u * 10 ^ n, s + n⟩ = value ⟨u, s⟩ := by
  simp only [value]
  rw [neg_add, zpow_add₀ ten_ne_zero, zpow_neg (10 : ℚ) (n : ℤ), zpow_natCast]
  push_cast
  field_simp

theorem unscaledAt_of_le {d : Decimal} {s : ℤ} (h : d.scale ≤ s) :
    d.unscaledAt s = d.unscaled * 10 ^ (s - d.scale).toNat := by
  rw [unscaledAt, if_pos h, appendZeros_eq, signed_mul, signed_natAbs, Nat.pow_eq]
  push_cast
  rfl

/-- A number keeps its value at a scale that has room for all its places. -/
theorem value_withScale {d : Decimal} {s : ℤ} (h : d.scale ≤ s) :
    (d.withScale s).value = d.value := by
  have hscale : d.scale + ((s - d.scale).toNat : ℤ) = s := by omega
  have hvalue := value_appended d.unscaled d.scale (s - d.scale).toNat
  rwa [hscale, ← unscaledAt_of_le h] at hvalue

theorem value_unscaledAt {d : Decimal} {s : ℤ} (h : d.scale ≤ s) :
    (d.unscaledAt s : ℚ) * 10 ^ (-s) = d.value :=
  value_withScale h

/-- The integer part of a decimal is that of its value. -/
theorem truncate_eq (d : Decimal) : d.truncate = towardZero d.value := by
  unfold truncate
  rcases le_or_gt d.scale 0 with hle | hpos
  · have hvalue := value_unscaledAt hle
    rw [neg_zero, zpow_zero, mul_one] at hvalue
    rw [← hvalue, towardZero_intCast]
  · obtain ⟨n, hn⟩ : ∃ n : ℕ, d.scale = n := ⟨d.scale.toNat, by omega⟩
    have hdropped : d.unscaledAt 0 = signed d.unscaled (d.unscaled.natAbs / 10 ^ n) := by
      rw [unscaledAt, if_neg (not_le.mpr hpos), dropDigits_eq, Nat.pow_eq]
      congr 3
      omega
    have hvalue : d.value = d.unscaled / (10 ^ n : ℕ) := by
      have h := value_natCast_scale d.unscaled n
      rw [← hn] at h
      rw [h]
      push_cast
      rfl
    rw [hdropped, hvalue]
    rcases lt_or_ge d.unscaled 0 with hneg | hnonneg
    · rw [signed_of_neg hneg, cast_of_neg hneg, neg_div, towardZero_neg, towardZero_natCast_div]
    · rw [signed_of_nonneg hnonneg, cast_of_nonneg hnonneg, towardZero_natCast_div]

/-- A decimal is whole where its value is an integer. -/
theorem isWhole_iff (d : Decimal) : d.isWhole = true ↔ ∃ k : ℤ, d.value = k := by
  unfold isWhole
  rcases le_or_gt d.scale 0 with hle | hpos
  · have hvalue := value_unscaledAt hle
    rw [neg_zero, zpow_zero, mul_one] at hvalue
    refine iff_of_true ?_ ⟨_, hvalue.symm⟩
    rw [decide_eq_true hle, Bool.true_or]
  · obtain ⟨n, hn⟩ : ∃ n : ℕ, d.scale = n := ⟨d.scale.toNat, by omega⟩
    have hvalue := value_natCast_scale d.unscaled n
    rw [← hn] at hvalue
    rw [hvalue, decide_eq_false (not_le.mpr hpos), Bool.false_or, beq_iff_eq, hn, Int.toNat_natCast,
      Nat.pow_eq, ← Int.dvd_iff_emod_eq_zero]
    apply exists_congr
    intro k
    rw [div_eq_iff (by positivity), mul_comm]
    exact_mod_cast Iff.rfl

/-! ## Operations -/

theorem value_addZero (d : Decimal) (s : ℤ) : (d.addZero s).value = d.value := by
  unfold addZero
  apply value_withScale
  unfold zeroPlaces
  omega

theorem pow_trailingZeros_dvd (n : ℕ) : 10 ^ trailingZeros n ∣ n := by
  induction n using trailingZeros.induct with
  | case1 n h ih =>
    rw [trailingZeros, dif_pos h, pow_succ]
    obtain ⟨m, hm⟩ := ih
    refine ⟨m, ?_⟩
    calc n = 10 * (n / 10) := by omega
      _ = 10 ^ trailingZeros (n / 10) * 10 * m := by
        nth_rewrite 1 [hm]
        ring
  | case2 n h =>
    rw [trailingZeros, dif_neg h]
    exact one_dvd n

theorem value_normalized (d : Decimal) : d.normalized.value = d.value := by
  unfold normalized
  split
  · next h =>
    rw [value_of_isZero h]
    simp [value]
  · -- What is dropped are zeros, so that appending them gives the number again.
    obtain ⟨m, hm⟩ := pow_trailingZeros_dvd d.unscaled.natAbs
    dsimp only
    generalize trailingZeros d.unscaled.natAbs = zeros at hm ⊢
    have hquotient : d.unscaled.natAbs / Nat.pow 10 zeros = m := by
      rw [hm, Nat.pow_eq]
      exact Nat.mul_div_cancel_left m (by positivity)
    have hunscaled : signed d.unscaled m * 10 ^ zeros = d.unscaled := by
      have h := signed_mul d.unscaled m (10 ^ zeros)
      rw [mul_comm, ← hm, signed_natAbs] at h
      push_cast at h
      exact h.symm
    have hvalue := value_appended (signed d.unscaled m) (d.scale - zeros) zeros
    rw [hunscaled, sub_add_cancel] at hvalue
    rw [hquotient]
    exact hvalue.symm

theorem value_of_isOne {d : Decimal} (h : d.isOne = true) : d.value = 1 := by
  simp only [isOne, Bool.and_eq_true, decide_eq_true_eq, beq_iff_eq] at h
  obtain ⟨⟨hscale, -⟩, hunscaled⟩ := h
  obtain ⟨n, hn⟩ : ∃ n : ℕ, d.scale = n := ⟨d.scale.toNat, by omega⟩
  have hvalue := value_natCast_scale d.unscaled n
  rw [← hn] at hvalue
  rw [hvalue, hunscaled, hn, Int.toNat_natCast, Nat.pow_eq]
  push_cast
  exact div_self (by positivity)

/-- Adding is exact. -/
theorem value_add (a b : Decimal) : (a.add b).value = a.value + b.value := by
  unfold add
  split
  · next h => rw [value_addZero, value_of_isZero h, add_zero]
  · split
    · next h => rw [value_addZero, value_of_isZero h, zero_add]
    · rw [← value_unscaledAt (le_max_left a.scale b.scale),
        ← value_unscaledAt (le_max_right a.scale b.scale), value]
      push_cast
      ring

/-- Subtracting is exact. -/
theorem value_sub (a b : Decimal) : (a.sub b).value = a.value - b.value := by
  rw [← value_unscaledAt (le_max_left a.scale b.scale),
    ← value_unscaledAt (le_max_right a.scale b.scale), sub, value]
  push_cast
  ring

/-- Multiplying is exact. -/
theorem value_mul (a b : Decimal) : (a.mul b).value = a.value * b.value := by
  unfold mul
  split
  · next h => rw [value_normalized, value_of_isOne h, one_mul]
  · split
    · next h => rw [value_normalized, value_of_isOne h, mul_one]
    · simp only [value]
      rw [neg_add, zpow_add₀ ten_ne_zero]
      push_cast
      ring

end Decimal
end Stencil
