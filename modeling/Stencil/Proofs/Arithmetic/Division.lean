import Stencil.Arithmetic
import Stencil.Proofs.Decimal.TwoRoundings

/-!
# Division

Main statement: a quotient of decimals is rounded to a hundred digits and then, to the nearest with
ties to even, to sixteen places. Together that is one rounding of the exact quotient where that is
short enough, and the error of both roundings is bounded for all quotients.
-/

namespace Stencil.Arithmetic

/-- The quotients for which the first rounding does not interfere with the second. -/
inductive RoundsOnce (a b : Decimal) : Prop
  /-- The numerator in lowest terms has at most 83 digits. -/
  | shortNumerator (h : |(a.value / b.value).num| < 10 ^ 83)
  /-- The quotient is a decimal fraction with at most a hundred digits. -/
  | fraction {m s : ℤ} (h : a.value / b.value * 10 ^ s = m) (hm : |m| < 10 ^ 100)
  /-- One unscaled integer divides the other. -/
  | divides (h : b.unscaled ∣ a.unscaled)

theorem RoundsOnce.nearestEven {a b : Decimal} (h : RoundsOnce a b) (hb : b.isZero = false) {n : ℤ}
    (hn : NearestEven ((a.quotient b).value * 10 ^ 16) n) :
    NearestEven (a.value / b.value * 10 ^ 16) n := by
  have hdeveloped := Decimal.developed_quotient a b hb
  cases h with
  | shortNumerator h => exact hdeveloped.nearestEven h hn
  | fraction h hm => rwa [← hdeveloped.value_of_fraction h hm]
  | divides h => rwa [← Decimal.value_quotient_of_dvd hb h]

theorem divide_eq_ok (a : Decimal) {b : Decimal} (hb : b.isZero = false) :
    divide a b = .ok ((a.quotient b).rounded 16) := by
  rw [divide, Decimal.divide?, if_neg (by rw [hb]; decide)]
  rfl

/-- A number that is rounded at sixteen places is changed by half of the last place at most. -/
theorem abs_sub_rounded_le (d : Decimal) : |d.value - (d.rounded 16).value| ≤ 1 / 10 ^ 16 / 2 := by
  have hnear := nearest_iff.mp (Decimal.nearestEven_rounded d 16).nearest
  have hvalue := Decimal.value_mul_pow (d.rounded 16)
  rw [Decimal.scale_rounded] at hvalue
  rw [← hvalue, ← sub_mul, Decimal.abs_mul_pow, ← le_div_iff₀ (by norm_num)] at hnear
  calc |d.value - (d.rounded 16).value| ≤ 1 / 2 / 10 ^ (16 : ℤ) := hnear
    _ = 1 / 10 ^ 16 / 2 := by norm_num

/-- The error of the two roundings together. -/
theorem abs_sub_quotient_le (a b : Decimal) (hb : b.isZero = false) :
    |a.value / b.value - ((a.quotient b).rounded 16).value| ≤
      (1 / 10 ^ 16 + |a.value / b.value| / 10 ^ 99) / 2 := by
  calc _ ≤ |a.value / b.value - (a.quotient b).value| +
        |(a.quotient b).value - ((a.quotient b).rounded 16).value| := abs_sub_le _ _ _
    _ ≤ |a.value / b.value| / (2 * 10 ^ 99) + 1 / 10 ^ 16 / 2 :=
      add_le_add (Decimal.developed_quotient a b hb).error_le (abs_sub_rounded_le _)
    _ = _ := by ring

/-- Every quotient is rounded twice: to a hundred digits, and what that gives to sixteen places.
Where the first rounding does not interfere, the result is the exact quotient at sixteen places. -/
theorem divide_rounds (a b : Decimal) (hb : b.isZero = false) :
    ∃ d, divide a b = .ok d ∧ d.scale = 16 ∧
      (∃ c, Decimal.Developed (a.value / b.value) c ∧
        NearestEven (c.value * 10 ^ 16) d.unscaled) ∧
      |a.value / b.value - d.value| ≤ (1 / 10 ^ 16 + |a.value / b.value| / 10 ^ 99) / 2 ∧
      (RoundsOnce a b → NearestEven (a.value / b.value * 10 ^ 16) d.unscaled) := by
  have hrounded := Decimal.nearestEven_rounded (a.quotient b) 16
  refine ⟨_, divide_eq_ok a hb, Decimal.scale_rounded _ _, ?_, abs_sub_quotient_le a b hb, ?_⟩
  · exact ⟨a.quotient b, Decimal.developed_quotient a b hb, hrounded⟩
  · intro h
    exact h.nearestEven hb hrounded

/-- A negative quotient half way between two numbers of sixteen places. -/
theorem divide_rounds_tie :
    Decimal.isZero ⟨2, 0⟩ = false ∧ RoundsOnce ⟨-15, 16⟩ ⟨2, 0⟩ ∧
      divide ⟨-15, 16⟩ ⟨2, 0⟩ = .ok ⟨-8, 16⟩ ∧
      NearestEven (Decimal.value ⟨-15, 16⟩ / Decimal.value ⟨2, 0⟩ * 10 ^ 16) (-8) := by
  have hfraction : Decimal.value ⟨-15, 16⟩ / Decimal.value ⟨2, 0⟩ * 10 ^ (17 : ℤ) = (-75 : ℤ) := by
    norm_num [Decimal.value]
  have honce : RoundsOnce ⟨-15, 16⟩ ⟨2, 0⟩ := .fraction hfraction (by norm_num)
  have hresult : divide ⟨-15, 16⟩ ⟨2, 0⟩ = .ok ⟨-8, 16⟩ := by decide +kernel
  obtain ⟨d, hd, -, -, -, hexact⟩ := divide_rounds ⟨-15, 16⟩ ⟨2, 0⟩ (by decide)
  rw [hresult] at hd
  cases hd
  exact ⟨by decide, honce, hresult, hexact honce⟩

/-- A quotient of a hundred digits and a half. The first rounding takes the half up, although the
exact quotient has one place only. -/
theorem divide_rounds_long :
    divide ⟨10 ^ 100 + 1, 0⟩ ⟨2, 0⟩ = .ok ⟨(5 * 10 ^ 99 + 1) * 10 ^ 16, 16⟩ ∧
      ¬NearestEven (Decimal.value ⟨10 ^ 100 + 1, 0⟩ / Decimal.value ⟨2, 0⟩ * 10 ^ 16)
        ((5 * 10 ^ 99 + 1) * 10 ^ 16) := by
  constructor
  · decide +kernel
  · intro h
    have hnear := nearest_iff.mp h.nearest
    norm_num [Decimal.value] at hnear

end Stencil.Arithmetic
