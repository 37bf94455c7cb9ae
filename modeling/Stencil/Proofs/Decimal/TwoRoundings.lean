import Stencil.Proofs.Decimal.Quotient

/-!
# Rounding twice

A quotient is rounded where its development ends and again at the places that are kept. Main
statement: the two together are one rounding to nearest, with ties to even, unless the numerator of
the quotient in lowest terms is as long as the development.
-/

namespace Stencil.Decimal
variable {q : ℚ} {c : Decimal}

theorem Developed.unscaled_near (h : Developed q c) : |q * 10 ^ c.scale - c.unscaled| ≤ 1 / 2 :=
  nearest_iff.mp h.rounded.nearest

/-- The error of a development, as a part of the quotient. -/
theorem Developed.error_le (h : Developed q c) : |q - c.value| ≤ |q| / (2 * 10 ^ 99) := by
  by_cases hexact : c.value = q
  · rw [hexact, sub_self, abs_zero]
    positivity
  · have hpow := ten_zpow_pos c.scale
    have hnear := h.unscaled_near
    have hlong := h.long hexact
    rw [← value_mul_pow, ← sub_mul, abs_mul_pow] at hnear
    rw [abs_mul_pow] at hlong
    rw [le_div_iff₀ (by norm_num)]
    apply le_of_mul_le_mul_right _ hpow
    calc |q - c.value| * (2 * 10 ^ 99) * 10 ^ c.scale
        = |q - c.value| * 10 ^ c.scale * (2 * 10 ^ 99) := by ring
      _ ≤ 1 / 2 * (2 * 10 ^ 99) := by gcongr
      _ = 10 ^ 99 := by ring
      _ ≤ |q| * 10 ^ c.scale := hlong

/-! ## Exact quotients -/

/-- Where an integer number of units is developed, nothing is rounded. -/
theorem Developed.value_of_intCast (h : Developed q c) {k : ℤ} (hk : q * 10 ^ c.scale = k) :
    c.value = q := by
  have hnear := h.unscaled_near
  rw [hk] at hnear
  have hunscaled : k = c.unscaled := by
    by_contra hne
    have hstep : (1 : ℚ) ≤ |(k : ℚ) - c.unscaled| := by
      exact_mod_cast Int.one_le_abs (sub_ne_zero.mpr hne)
    linarith
  rw [hunscaled, ← value_mul_pow] at hk
  exact (mul_right_cancel₀ (ten_zpow_pos _).ne' hk).symm

/-- More places than a number has leave an integer number of units. -/
theorem exists_intCast_of_le {q : ℚ} {m s t : ℤ} (hq : q * 10 ^ s = m) (h : s ≤ t) :
    ∃ k : ℤ, q * 10 ^ t = k := by
  obtain ⟨n, hn⟩ : ∃ n : ℕ, t = s + n := ⟨(t - s).toNat, by omega⟩
  refine ⟨m * 10 ^ n, ?_⟩
  rw [hn, zpow_add₀ ten_ne_zero, ← mul_assoc, hq, zpow_natCast]
  push_cast
  rfl

/-- A quotient that is a decimal fraction of at most a hundred digits is developed completely. -/
theorem Developed.value_of_fraction (h : Developed q c) {m s : ℤ} (hq : q * 10 ^ s = m)
    (hm : |m| < 10 ^ 100) : c.value = q := by
  by_contra hne
  have hlong := h.long hne
  rcases le_or_gt s c.scale with hle | hlt
  · obtain ⟨k, hk⟩ := exists_intCast_of_le hq hle
    exact hne (h.value_of_intCast hk)
  · -- One place too few has a digit less than a hundred.
    have hm' : |(m : ℚ)| < 10 ^ 100 := by exact_mod_cast hm
    have hfewer : |q * 10 ^ c.scale| * 10 ≤ |(m : ℚ)| := by
      rw [← hq, abs_mul_pow, abs_mul_pow, mul_assoc, ← zpow_add_one₀ ten_ne_zero]
      gcongr
      · norm_num
      · omega
    linarith

/-- A quotient of multiples is developed completely, whatever its length. -/
theorem value_quotient_of_dvd {a b : Decimal} (hb : b.isZero = false)
    (h : b.unscaled ∣ a.unscaled) : (quotient a b).value = a.value / b.value := by
  have hdeveloped := developed_quotient a b hb
  have hplaces : (quotient a b).value = a.value / b.value ∨
      a.scale - b.scale ≤ (quotient a b).scale := by
    unfold quotient
    split
    · next hplain =>
      left
      rcases Bool.or_eq_true_iff.mp hplain with hzero | hone
      · rw [value_of_isZero hzero, zero_div]
      · rw [value_of_isOne hone, div_one]
    · split
      · exact .inr le_rfl
      · exact .inr (le_add_of_nonneg_right (Int.natCast_nonneg _))
  rcases hplaces with hexact | hle
  · exact hexact
  · obtain ⟨k, hk⟩ := h
    have hbu : (b.unscaled : ℚ) ≠ 0 := by
      intro hzero
      rw [Int.cast_eq_zero, ← isZero_iff, hb] at hzero
      exact absurd hzero (by decide)
    have hunits : a.value / b.value * 10 ^ (a.scale - b.scale) = k := by
      rw [value_div, hk, mul_assoc, ← zpow_add₀ ten_ne_zero, Int.cast_mul,
        mul_div_cancel_left₀ _ hbu, sub_add_sub_cancel, sub_self, zpow_zero, mul_one]
    obtain ⟨m, hm⟩ := exists_intCast_of_le hunits hle
    exact hdeveloped.value_of_intCast hm

/-! ## Rounding the development -/

/-- A number that lies within a unit of twice its denominator of another is on the same side of each
half integer. -/
theorem le_half_of_near {x y : ℚ} {d : ℕ} {num : ℤ} (hd : 0 < d) (hx : x * d = num)
    (hnear : |x - y| * (2 * (d : ℚ)) < 1) {k : ℤ} (h : y ≤ k / 2) : x ≤ k / 2 := by
  have hd' : (0 : ℚ) < d := Nat.cast_pos.mpr hd
  have hinteger : (x - k / 2) * (2 * d) = (2 * num - k * d : ℤ) := by
    push_cast
    rw [← hx]
    ring
  have hdistance : (x - k / 2) * (2 * d) < 1 := by
    calc (x - k / 2) * (2 * d) ≤ |x - y| * (2 * d) := by
          gcongr
          exact (sub_le_sub_left h x).trans (le_abs_self _)
      _ < 1 := hnear
  rw [hinteger] at hdistance
  have hle : 2 * num - k * d ≤ 0 := by
    have hlt : 2 * num - k * d < 1 := by exact_mod_cast hdistance
    omega
  have hle' : (x - k / 2) * (2 * d) ≤ 0 := by
    rw [hinteger]
    exact_mod_cast hle
  exact sub_nonpos.mp (nonpos_of_mul_nonpos_left hle' (by positivity))

theorem nearest_of_near {x y : ℚ} {d : ℕ} {num n : ℤ} (hd : 0 < d) (hx : x * d = num)
    (hnear : |x - y| * (2 * (d : ℚ)) < 1) (h : Nearest y n) : Nearest x n := by
  have hbounds := abs_le.mp (nearest_iff.mp h)
  rw [nearest_iff, abs_le]
  constructor
  · -- The other side of zero.
    have hlower : -y ≤ ((-2 * n + 1 : ℤ) : ℚ) / 2 := by
      push_cast
      linarith
    have hx' : -x * d = (-num : ℤ) := by rw [neg_mul, hx, Int.cast_neg]
    have hnear' : |-x - -y| * (2 * (d : ℚ)) < 1 := by rwa [neg_sub_neg, abs_sub_comm]
    have hle := le_half_of_near hd hx' hnear' hlower
    push_cast at hle
    linarith
  · have hupper : y ≤ ((2 * n + 1 : ℤ) : ℚ) / 2 := by
      push_cast
      linarith
    have hle := le_half_of_near hd hx hnear hupper
    push_cast at hle
    linarith

section
variable (h : Developed q c) (hshort : |q.num| < 10 ^ 83)
include hshort

theorem abs_mul_den_lt : |q| * q.den < 10 ^ 83 := by
  have hden : (0 : ℚ) < q.den := Nat.cast_pos.mpr q.den_pos
  rw [← abs_of_pos hden, ← abs_mul, Rat.mul_den_eq_num]
  exact_mod_cast hshort

include h

theorem Developed.near : |q * 10 ^ 16 - c.value * 10 ^ 16| * (2 * (q.den : ℚ)) < 1 := by
  have hnum := abs_mul_den_lt hshort
  have herror := h.error_le
  rw [le_div_iff₀ (by positivity)] at herror
  rw [← sub_mul, abs_mul, abs_of_pos (show (0 : ℚ) < 10 ^ 16 by norm_num)]
  calc |q - c.value| * 10 ^ 16 * (2 * q.den)
      = |q - c.value| * (2 * 10 ^ 99) * q.den / 10 ^ 83 := by ring
    _ ≤ |q| * q.den / 10 ^ 83 := by gcongr
    _ < 1 := by
      rw [div_lt_one (by positivity)]
      exact hnum

/-- A development that is not complete goes beyond the places that are kept. -/
theorem Developed.scale_ge (hne : c.value ≠ q) : 17 ≤ c.scale := by
  by_contra hlt
  have hlong := h.long hne
  rw [abs_mul_pow] at hlong
  have hq : |q| < 10 ^ 83 := by
    refine lt_of_le_of_lt (le_mul_of_one_le_right (abs_nonneg q) ?_) (abs_mul_den_lt hshort)
    exact_mod_cast q.den_pos
  have hpow : (10 : ℚ) ^ c.scale ≤ 10 ^ (16 : ℤ) := ten_zpow_le (by omega)
  have hproduct : |q| * 10 ^ c.scale < 10 ^ 83 * 10 ^ (16 : ℤ) :=
    mul_lt_mul hq hpow (ten_zpow_pos _) (by positivity)
  norm_num at hproduct hlong
  linarith

/-- A half of the last place that is kept is developed completely. -/
theorem Developed.value_of_halfWay (hhalf : HalfWay (q * 10 ^ 16)) : c.value = q := by
  by_contra hne
  obtain ⟨k, hk⟩ := hhalf
  have htenth : q * 10 ^ (17 : ℤ) = (10 * k + 5 : ℤ) := by
    calc q * 10 ^ (17 : ℤ) = q * 10 ^ 16 * 10 := by ring
      _ = (10 * k + 5 : ℤ) := by
        rw [hk]
        push_cast
        ring
  obtain ⟨m, hm⟩ := exists_intCast_of_le htenth (h.scale_ge hshort hne)
  exact hne (h.value_of_intCast hm)

/-- Rounding the development rounds the quotient, when its numerator is short enough. -/
theorem Developed.nearestEven {n : ℤ} (hn : NearestEven (c.value * 10 ^ 16) n) :
    NearestEven (q * 10 ^ 16) n := by
  have hunits : q * 10 ^ 16 * q.den = (q.num * 10 ^ 16 : ℤ) := by
    push_cast
    rw [← Rat.mul_den_eq_num]
    ring
  constructor
  · exact nearest_of_near q.den_pos hunits (h.near hshort) hn.nearest
  · intro hhalf
    apply hn.even
    rwa [h.value_of_halfWay hshort hhalf]

end

end Stencil.Decimal
