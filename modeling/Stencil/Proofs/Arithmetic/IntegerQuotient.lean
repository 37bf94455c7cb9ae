import Stencil.Proofs.Arithmetic.Division
import Stencil.Proofs.Arithmetic.FloatText

/-!
# Quotients of integers

Main statement: a quotient of integers that is an integer is written as that integer. Whether
another quotient is written as a float is decided at sixteen places: a quotient within half a unit of
the last place of an integer is written as the integer. No fraction with a numerator of 83 digits and
a denominator below `2 * 10 ^ 16` is so near.
-/

namespace Stencil.Arithmetic
open Decimal Fallible

section
variable {left right s : Text} {m n k : ℤ}

/-- The quotient of two integers at sixteen places. -/
def integerQuotient (m n : ℤ) : Decimal := (quotient ⟨m, 0⟩ ⟨n, 0⟩).rounded 16

theorem isZero_integer (hn : n ≠ 0) : Decimal.isZero ⟨n, 0⟩ = false := by
  simp [Decimal.isZero, hn]

theorem value_integer_div (m n : ℤ) : value ⟨m, 0⟩ / value ⟨n, 0⟩ = (m : ℚ) / n := by
  rw [value_integer, value_integer]

/-- Only the quotient decides how it is written. -/
theorem evaluate_over (hleft : Numeral.toInt? left = some m)
    (hright : Numeral.toInt? right = some n) (hn : n ≠ 0) :
    evaluate left ['/'] right =
      if (integerQuotient m n).isWhole then .ok (integerText (integerQuotient m n))
      else floatText (integerQuotient m n) := by
  obtain ⟨ha, hleft⟩ := operand_of_toInt? hleft
  obtain ⟨hb, hright⟩ := operand_of_toInt? hright
  have happly : Operator.over.apply ⟨m, 0⟩ ⟨n, 0⟩ = .ok (integerQuotient m n) :=
    divide_eq_ok ⟨m, 0⟩ (isZero_integer hn)
  have hsign : Operator.ofText? ['/'] = some .over := rfl
  have hfloating : isFloating left right .over (integerQuotient m n) =
      !(integerQuotient m n).isWhole := by
    rw [isFloating, decide_eq_false hleft, decide_eq_false hright]
    rfl
  rw [evaluate_operands hsign ha hb, happly]
  simp only [bind, Except.bind, hfloating]
  cases (integerQuotient m n).isWhole <;> rfl

/-- The text is that of an integer where the quotient at sixteen places is that integer. -/
theorem toInt?_eq_some_iff (hleft : Numeral.toInt? left = some m)
    (hright : Numeral.toInt? right = some n) (hn : n ≠ 0)
    (h : evaluate left ['/'] right = .ok s) :
    Numeral.toInt? s = some k ↔ (integerQuotient m n).value = k := by
  rw [evaluate_over hleft hright hn] at h
  split at h
  · next hwhole =>
    obtain ⟨k', hk'⟩ := (isWhole_iff _).mp hwhole
    rw [← Except.ok.inj h, integerText_eq, hk', towardZero_intCast, Numeral.toInt?_ofInt,
      Option.some_inj, Int.cast_inj]
  · next hfraction =>
    rw [toInt?_floatText h]
    constructor
    · intro hnone
      cases hnone
    · intro hk
      exact absurd ((isWhole_iff _).mpr ⟨k, hk⟩) hfraction

theorem evaluate_of_value (hleft : Numeral.toInt? left = some m)
    (hright : Numeral.toInt? right = some n) (hn : n ≠ 0)
    (hk : (integerQuotient m n).value = k) :
    evaluate left ['/'] right = .ok (Numeral.ofInt k) := by
  rw [evaluate_over hleft hright hn, if_pos ((isWhole_iff _).mpr ⟨k, hk⟩), integerText_eq,
    hk, towardZero_intCast]

/-! ## Nearness -/

theorem value_eq_iff :
    (integerQuotient m n).value = k ↔ (integerQuotient m n).unscaled = k * 10 ^ 16 := by
  have hvalue := value_mul_pow (integerQuotient m n)
  rw [show (integerQuotient m n).scale = 16 from scale_rounded _ _] at hvalue
  constructor
  · intro hk
    rw [hk] at hvalue
    exact_mod_cast hvalue.symm
  · intro hunscaled
    rw [hunscaled] at hvalue
    push_cast at hvalue
    exact mul_right_cancel₀ (by norm_num) hvalue

theorem value_of_dvd (hn : n ≠ 0) (h : n ∣ m) : (integerQuotient m n).value = (m / n : ℤ) := by
  have hn' : (n : ℚ) ≠ 0 := Int.cast_ne_zero.mpr hn
  have hrounded := nearestEven_rounded (quotient ⟨m, 0⟩ ⟨n, 0⟩) 16
  have hexact : (quotient ⟨m, 0⟩ ⟨n, 0⟩).value * 10 ^ (16 : ℤ) = (m / n * 10 ^ 16 : ℤ) := by
    rw [value_quotient_of_dvd (isZero_integer hn) h, value_integer_div, Int.cast_mul,
      Int.cast_div h hn']
    norm_cast
  rw [hexact] at hrounded
  rw [value_eq_iff]
  exact hrounded.unique (.intCast _)

/-- The quotient at sixteen places is an integer where it is within half of the last place of it. -/
theorem value_iff_near (hn : n ≠ 0) (hshort : |((m : ℚ) / n).num| < 10 ^ 83) :
    (integerQuotient m n).value = k ↔ |(m : ℚ) / n - k| ≤ 1 / 10 ^ 16 / 2 := by
  have hrounded : NearestEven ((m : ℚ) / n * 10 ^ 16) (integerQuotient m n).unscaled := by
    rw [← value_integer_div] at hshort ⊢
    exact (RoundsOnce.shortNumerator hshort).nearestEven (isZero_integer hn)
      (nearestEven_rounded _ 16)
  have hunits : |(m : ℚ) / n - k| ≤ 1 / 10 ^ 16 / 2 ↔
      Nearest ((m : ℚ) / n * 10 ^ 16) (k * 10 ^ 16) := by
    rw [nearest_iff, div_right_comm, le_div_iff₀ (by norm_num), Int.cast_mul, Int.cast_pow,
      Int.cast_ofNat, ← sub_mul, abs_mul, abs_of_pos (show (0 : ℚ) < 10 ^ 16 by norm_num)]
  rw [value_eq_iff, hunits]
  constructor
  · intro hunscaled
    rw [← hunscaled]
    exact hrounded.nearest
  · intro hnear
    have heven : Even (k * 10 ^ 16) := Even.mul_left (by decide) k
    exact hrounded.unique ⟨hnear, fun _ => heven⟩

/-- A fraction with a denominator below `2 * 10 ^ 16` is further away from each integer. -/
theorem eq_of_near {q : ℚ} (hden : q.den < 2 * 10 ^ 16) (h : |q - k| ≤ 1 / 10 ^ 16 / 2) :
    q = k := by
  have hpos : (0 : ℚ) < q.den := Nat.cast_pos.mpr q.den_pos
  have hden' : (q.den : ℚ) < 2 * 10 ^ 16 := by exact_mod_cast hden
  have hunits : (q - k) * q.den = (q.num - k * q.den : ℤ) := by
    rw [sub_mul, Rat.mul_den_eq_num]
    push_cast
    rfl
  have hlt : |(q - k) * q.den| < 1 := by
    rw [abs_mul, abs_of_pos hpos]
    calc |q - k| * q.den ≤ 1 / 10 ^ 16 / 2 * q.den := by gcongr
      _ < 1 / 10 ^ 16 / 2 * (2 * 10 ^ 16) := by gcongr
      _ = 1 := by norm_num
  rw [hunits] at hlt
  have hzero : q.num - k * q.den = 0 := Int.abs_lt_one_iff.mp (by exact_mod_cast hlt)
  rw [hzero, Int.cast_zero, mul_eq_zero, or_iff_left hpos.ne', sub_eq_zero] at hunits
  exact hunits

theorem dvd_iff_exists_near (hn : n ≠ 0) (hden : ((m : ℚ) / n).den < 2 * 10 ^ 16) :
    n ∣ m ↔ ∃ k : ℤ, |(m : ℚ) / n - k| ≤ 1 / 10 ^ 16 / 2 := by
  have hn' : (n : ℚ) ≠ 0 := Int.cast_ne_zero.mpr hn
  constructor
  · intro h
    refine ⟨m / n, ?_⟩
    rw [Int.cast_div h hn', sub_self, abs_zero]
    norm_num
  · intro ⟨k, hk⟩
    have heq := eq_of_near hden hk
    rw [div_eq_iff hn'] at heq
    exact ⟨k, by rw [mul_comm]; exact_mod_cast heq⟩

/-- Quotients of integers. An exact quotient is written as the integer that it is. The integer that
another quotient is written as is next to it, and it is written so only where that integer is within
half of the last place, which no quotient of short integers is. -/
theorem evaluate_quotient (hleft : Numeral.toInt? left = some m)
    (hright : Numeral.toInt? right = some n) (hn : n ≠ 0) :
    (n ∣ m → evaluate left ['/'] right = .ok (Numeral.ofInt (m / n))) ∧
      ∀ s, evaluate left ['/'] right = .ok s →
        (∀ k, Numeral.toInt? s = some k → s = Numeral.ofInt k ∧
          |(m : ℚ) / n - k| ≤ (1 / 10 ^ 16 + |(m : ℚ) / n| / 10 ^ 99) / 2) ∧
        (|((m : ℚ) / n).num| < 10 ^ 83 →
          (∀ k : ℤ, Numeral.toInt? s = some k ↔ |(m : ℚ) / n - k| ≤ 1 / 10 ^ 16 / 2) ∧
          (((m : ℚ) / n).den < 2 * 10 ^ 16 → ((Numeral.toInt? s).isSome ↔ n ∣ m))) := by
  refine ⟨fun h => evaluate_of_value hleft hright hn (value_of_dvd hn h), fun s hs => ?_⟩
  constructor
  · intro k hk
    have hvalue := (toInt?_eq_some_iff hleft hright hn hs).mp hk
    constructor
    · exact Except.ok.inj (hs.symm.trans (evaluate_of_value hleft hright hn hvalue))
    · have herror := abs_sub_quotient_le ⟨m, 0⟩ ⟨n, 0⟩ (isZero_integer hn)
      rw [value_integer_div] at herror
      rwa [← hvalue]
  · intro hshort
    have hnear (k : ℤ) : Numeral.toInt? s = some k ↔ |(m : ℚ) / n - k| ≤ 1 / 10 ^ 16 / 2 :=
      (toInt?_eq_some_iff hleft hright hn hs).trans (value_iff_near hn hshort)
    refine ⟨hnear, fun hden => ?_⟩
    rw [dvd_iff_exists_near hn hden, Option.isSome_iff_exists]
    exact exists_congr hnear

end

/-- A quotient of numerals with signs and zeros in front, and one that is not exact. -/
theorem evaluate_quotient_signs :
    Numeral.toInt? "-0012".toList = some (-12) ∧ Numeral.toInt? "+4".toList = some 4 ∧
      evaluate "-0012".toList ['/'] "+4".toList = .ok "-3".toList ∧
      evaluate "7".toList ['/'] "2".toList = .ok "3.5".toList ∧
      ¬(Numeral.toInt? "3.5".toList).isSome := by
  have hleft : Numeral.toInt? "-0012".toList = some (-12) := by decide
  have hright : Numeral.toInt? "+4".toList = some 4 := by decide
  have hseven : Numeral.toInt? "7".toList = some 7 := by decide
  have htwo : Numeral.toInt? "2".toList = some 2 := by decide
  have hhalf : evaluate "7".toList ['/'] "2".toList = .ok "3.5".toList := by decide +kernel
  refine ⟨hleft, hright, (evaluate_quotient hleft hright (by decide)).1 (by decide), hhalf, ?_⟩
  have hfraction := ((evaluate_quotient hseven htwo (by decide)).2 _ hhalf).2
  rw [(hfraction (by decide +kernel)).2 (by decide +kernel)]
  decide

/-- A quotient that is not an integer, but too near to one. -/
theorem evaluate_quotient_near :
    ¬(10 ^ 17 : ℤ) ∣ 10 ^ 17 + 1 ∧
      Numeral.toInt? "100000000000000001".toList = some (10 ^ 17 + 1) ∧
      Numeral.toInt? "100000000000000000".toList = some (10 ^ 17) ∧
      evaluate "100000000000000001".toList ['/'] "100000000000000000".toList = .ok ['1'] := by
  decide +kernel

end Stencil.Arithmetic
