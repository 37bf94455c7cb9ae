import Stencil.Proofs.Arithmetic.FloatText
import Stencil.Proofs.Arithmetic.PowerGuard

/-!
# The size of powers

Main statement: the integer that a power is written as has at most the digits of the power of the
unscaled integer, which the guard bounds, and the zeros that the power of the scale appends. The
guard does not count these zeros. Where the base is written without a power of ten there are none,
so that the bound of the guard holds for the integer too.
-/

namespace Stencil.Arithmetic
open Decimal Fallible

section
variable {left right s : Text} {a b : Decimal} {e : ℕ} {k : ℤ}

/-- A power is written as an integer unless a point is in an operand. -/
theorem evaluate_toThe (ha : operand left = .ok a) (hb : operand right = .ok b)
    (he : checkedExponent a b = .ok e) :
    evaluate left ['^'] right =
      if '.' ∈ left ∨ '.' ∈ right then floatText (a.power e)
      else .ok (Numeral.ofInt (towardZero (a.value ^ e))) := by
  have happly : Operator.toThe.apply a b = .ok (a.power e) := by
    rw [Operator.apply, he]
    rfl
  rw [← value_power, ← integerText_eq]
  exact evaluate_of_apply rfl Operator.noConfusion ha hb happly

/-- Every power that is written comes from an exponent that the guard lets through. -/
theorem exists_checkedExponent (h : evaluate left ['^'] right = .ok s) :
    ∃ a b e, operand left = .ok a ∧ operand right = .ok b ∧ checkedExponent a b = .ok e := by
  unfold evaluate at h
  obtain ⟨a, ha, h⟩ := bind_eq_ok_iff.mp h
  obtain ⟨b, hb, h⟩ := bind_eq_ok_iff.mp h
  obtain ⟨d, hd, -⟩ := bind_eq_ok_iff.mp h
  obtain ⟨e, he, -⟩ := map_eq_ok_iff.mp hd
  exact ⟨a, b, e, ha, hb, he⟩

/-! ## Sizes -/

/-- A decimal at a negative scale is its unscaled integer with zeros appended. -/
theorem value_of_scale_nonpos (h : a.scale ≤ 0) :
    a.value = (a.unscaled * 10 ^ (-a.scale).toNat : ℤ) := by
  have hvalue := value_unscaledAt h
  rw [neg_zero, zpow_zero, mul_one, unscaledAt_of_le h, zero_sub] at hvalue
  exact hvalue.symm

theorem abs_value_le (h : 0 ≤ a.scale) : |a.value| ≤ a.unscaled.natAbs := by
  rw [abs_value]
  have hpow : (10 : ℚ) ^ (-a.scale) ≤ 1 := by
    have hle := ten_zpow_le (show -a.scale ≤ 0 by omega)
    rwa [zpow_zero] at hle
  exact mul_le_of_le_one_right (Nat.cast_nonneg _) hpow

/-- The size of the unscaled integer of a power, with the zeros that the scale appends. -/
def powerSize (a : Decimal) (e : ℕ) : ℕ := a.unscaled.natAbs ^ e * 10 ^ ((-a.scale).toNat * e)

theorem natAbs_power_of_scale_nonpos (h : a.scale ≤ 0) (e : ℕ) :
    (towardZero (a.value ^ e)).natAbs = powerSize a e := by
  rw [value_of_scale_nonpos h, ← Int.cast_pow, towardZero_intCast, Int.natAbs_pow, Int.natAbs_mul,
    Int.natAbs_pow, mul_pow, ← pow_mul, powerSize]
  rfl

theorem natAbs_power_of_scale_nonneg (h : 0 ≤ a.scale) (e : ℕ) :
    (towardZero (a.value ^ e)).natAbs ≤ a.unscaled.natAbs ^ e := by
  have hle : |(towardZero (a.value ^ e) : ℚ)| ≤ (a.unscaled.natAbs ^ e : ℕ) := by
    calc |(towardZero (a.value ^ e) : ℚ)| ≤ |a.value ^ e| := abs_towardZero_le _
      _ = |a.value| ^ e := abs_pow _ _
      _ ≤ (a.unscaled.natAbs : ℚ) ^ e := pow_le_pow_left₀ (abs_nonneg _) (abs_value_le h) e
      _ = (a.unscaled.natAbs ^ e : ℕ) := (Nat.cast_pow _ _).symm
  rw [← Int.cast_abs, ← Nat.cast_natAbs] at hle
  exact_mod_cast hle

theorem powerSize_of_scale_nonneg (h : 0 ≤ a.scale) (e : ℕ) :
    powerSize a e = a.unscaled.natAbs ^ e := by
  have hzeros : (-a.scale).toNat = 0 := by omega
  rw [powerSize, hzeros, zero_mul, pow_zero, mul_one]

theorem natAbs_power_le (a : Decimal) (e : ℕ) :
    (towardZero (a.value ^ e)).natAbs ≤ powerSize a e := by
  rcases le_total a.scale 0 with h | h
  · exact (natAbs_power_of_scale_nonpos h e).le
  · rw [powerSize_of_scale_nonneg h]
    exact natAbs_power_of_scale_nonneg h e

/-- The bound of the guard holds for the integer where it holds with the zeros counted. -/
theorem natAbs_power_le_iff {bound : ℕ} (hbound : a.unscaled.natAbs ^ e ≤ bound) :
    (towardZero (a.value ^ e)).natAbs ≤ bound ↔ powerSize a e ≤ bound := by
  rcases le_total a.scale 0 with h | h
  · rw [natAbs_power_of_scale_nonpos h]
  · refine iff_of_true ((natAbs_power_of_scale_nonneg h e).trans hbound) ?_
    rwa [powerSize_of_scale_nonneg h]

theorem scale_nonneg_of_operand (hpower : ∀ c ∈ left, isPowerMark c = false)
    (ha : operand left = .ok a) : 0 ≤ a.scale := by
  rw [operand, mapError_eq_ok_iff] at ha
  exact scale_nonneg_of_read (fun c hc => hpower c (Text.mem_of_mem_trim hc)) ha

/-- The size of an integer that a power is written as. The guard bounds it up to the zeros that a
negative scale of the base appends, and there are none without a power of ten in the base. -/
theorem evaluate_power_size (h : evaluate left ['^'] right = .ok s)
    (hk : Numeral.toInt? s = some k) :
    ∃ a b e, operand left = .ok a ∧ operand right = .ok b ∧ towardZero b.value = (e : ℕ) ∧
      e ≤ maxExponent ∧ k = towardZero (a.value ^ e) ∧ s = Numeral.ofInt k ∧
      a.unscaled.natAbs ^ e ≤ 2 ^ (2 * maxPowerBits) ∧ k.natAbs ≤ powerSize a e ∧
      (k.natAbs ≤ 2 ^ (2 * maxPowerBits) ↔ powerSize a e ≤ 2 ^ (2 * maxPowerBits)) ∧
      ((∀ c ∈ left, isPowerMark c = false) → k.natAbs ≤ 2 ^ (2 * maxPowerBits)) := by
  obtain ⟨a, b, e, ha, hb, he⟩ := exists_checkedExponent h
  obtain ⟨hpart, hmost, hbits⟩ := checkedExponent_eq_ok_iff.mp he
  have hbound := natAbs_pow_le_of_leastPowerBits maxPowerBits_lt_wordMax hbits
  have hs : s = Numeral.ofInt (towardZero (a.value ^ e)) := by
    rw [evaluate_toThe ha hb he] at h
    split at h
    · rw [toInt?_floatText h] at hk
      cases hk
    · exact (Except.ok.inj h).symm
  obtain rfl : towardZero (a.value ^ e) = k := by
    rw [hs, Numeral.toInt?_ofInt] at hk
    exact Option.some.inj hk
  refine ⟨a, b, e, ha, hb, hpart, hmost, rfl, hs, hbound, natAbs_power_le a e,
    natAbs_power_le_iff hbound, fun hpower => ?_⟩
  exact (natAbs_power_of_scale_nonneg (scale_nonneg_of_operand hpower ha) e).trans hbound

end

/-- A negative fraction that is written with a power of ten, and a power without one. -/
theorem evaluate_power_size_fraction :
    evaluate "-25e-1".toList ['^'] "3".toList = .ok "-15".toList ∧
      (15 ≤ 2 ^ (2 * maxPowerBits) ↔ powerSize ⟨-25, 1⟩ 3 ≤ 2 ^ (2 * maxPowerBits)) ∧
      evaluate "2".toList ['^'] "64".toList = .ok "18446744073709551616".toList ∧
      18446744073709551616 ≤ 2 ^ (2 * maxPowerBits) := by
  have hfraction : evaluate "-25e-1".toList ['^'] "3".toList = .ok "-15".toList := by
    decide +kernel
  have hplain : evaluate "2".toList ['^'] "64".toList = .ok "18446744073709551616".toList := by
    decide +kernel
  refine ⟨hfraction, ?_, hplain, ?_⟩
  · obtain ⟨a, b, e, ha, hb, he, -, -, -, -, -, h, -⟩ :=
      evaluate_power_size hfraction (k := -15) (by decide)
    have hbase : operand "-25e-1".toList = .ok ⟨-25, 1⟩ := by decide +kernel
    have hthree : operand "3".toList = .ok ⟨3, 0⟩ := by decide +kernel
    obtain rfl := Except.ok.inj (hbase.symm.trans ha)
    obtain rfl := Except.ok.inj (hthree.symm.trans hb)
    obtain rfl : e = 3 := by
      rw [value_integer, towardZero_intCast] at he
      omega
    exact h
  · obtain ⟨a, b, e, -, -, -, -, -, -, -, -, -, h⟩ :=
      evaluate_power_size hplain (k := 18446744073709551616) (by decide)
    have hpower : ∀ c ∈ ['2'], isPowerMark c = false := List.forall_mem_singleton.mpr rfl
    exact h hpower

/-! ## A bound that does not hold -/

/-- A power of ten is let through to any exponent. -/
theorem evaluate_ten_power {right : Text} {b : Decimal} {e : ℕ} (hb : operand right = .ok b)
    (he : towardZero b.value = e) (hmost : e ≤ maxExponent) (hpoint : '.' ∉ right) :
    evaluate "1e1".toList ['^'] right = .ok (Numeral.ofInt (10 ^ e)) := by
  have ha : operand "1e1".toList = .ok ⟨1, -1⟩ := by decide +kernel
  have hbits : leastPowerBits ⟨1, -1⟩ e ≤ maxPowerBits :=
    (min_le_right _ _).trans ((Nat.zero_mul e).trans_le (Nat.zero_le _))
  have hguard := checkedExponent_eq_ok_iff.mpr ⟨he, hmost, hbits⟩
  have hvalue : value ⟨1, -1⟩ = (10 : ℤ) := value_of_scale_nonpos (by decide)
  rw [evaluate_toThe ha hb hguard, if_neg (not_or.mpr ⟨by decide, hpoint⟩), hvalue, ← Int.cast_pow,
    towardZero_intCast]

theorem two_pow_lt_ten_pow {m n : ℕ} (hn : n ≠ 0) (h : m ≤ 3 * n) : 2 ^ m < 10 ^ n := by
  calc 2 ^ m ≤ 2 ^ (3 * n) := Nat.pow_le_pow_right two_pos h
    _ = 8 ^ n := pow_mul 2 3 n
    _ < 10 ^ n := Nat.pow_lt_pow_left (by decide) hn

/-- The number that is refused as the power of `10` is written as the power of `1e1`. -/
theorem evaluate_power_unbounded :
    evaluate "1e1".toList ['^'] "700000".toList = .ok (Numeral.ofInt (10 ^ 700000)) ∧
      2 ^ (2 * maxPowerBits) < 10 ^ 700000 ∧
      evaluate "10".toList ['^'] "700000".toList =
        .error (.invalidArgument (.powerTooLarge ⟨10, 0⟩ 700000)) := by
  have hb : operand "700000".toList = .ok ⟨700000, 0⟩ := by decide +kernel
  have hpart : towardZero (value ⟨700000, 0⟩) = (700000 : ℕ) := by decide +kernel
  refine ⟨evaluate_ten_power hb hpart (by decide) (by decide), ?_, by decide +kernel⟩
  exact two_pow_lt_ten_pow (by decide) (by decide)

end Stencil.Arithmetic
