import Stencil.Binary64.Basic
import Stencil.Decimal.Division
import Stencil.Proofs.Decimal.Value

/-!
# Rounding to an integer

Rounding takes the nearest integer. Of the two integers that are nearest to a number half way
between them, one way to round takes the even one and another way the one further from zero. A
decimal that is brought to fewer places is rounded in the first way.
-/

namespace Stencil

/-- No integer is nearer to the number. -/
def Nearest (q : ℚ) (n : ℤ) : Prop := ∀ k : ℤ, |q - n| ≤ |q - k|

/-- The number lies half way between two integers. -/
def HalfWay (q : ℚ) : Prop := ∃ k : ℤ, q = k + 1 / 2

structure NearestEven (q : ℚ) (n : ℤ) : Prop where
  nearest : Nearest q n
  even : HalfWay q → Even n

structure NearestAway (q : ℚ) (n : ℤ) : Prop where
  nearest : Nearest q n
  away : HalfWay q → |q| < |(n : ℚ)|

theorem nearest_iff {q : ℚ} {n : ℤ} : Nearest q n ↔ |q - n| ≤ 1 / 2 := by
  constructor
  · intro h
    have hbelow := h (n - 1)
    have habove := h (n + 1)
    push_cast at hbelow habove
    rw [abs_le]
    constructor
    · by_contra hlt
      rw [abs_of_neg (a := q - n) (by linarith)] at hbelow
      have hcloser := abs_lt.mpr (show -(-(q - n)) < q - (n - 1) ∧ q - (n - 1) < -(q - n) from
        ⟨by linarith, by linarith⟩)
      linarith
    · by_contra hlt
      rw [abs_of_pos (a := q - n) (by linarith)] at habove
      have hcloser := abs_lt.mpr (show -(q - n) < q - (n + 1) ∧ q - (n + 1) < q - n from
        ⟨by linarith, by linarith⟩)
      linarith
  · intro h k
    by_cases hk : k = n
    · rw [hk]
    · -- Another integer is a whole step away.
      have hstep : (1 : ℚ) ≤ |(k : ℚ) - n| := by
        exact_mod_cast Int.one_le_abs (sub_ne_zero.mpr hk)
      have htriangle := abs_sub_le (k : ℚ) q n
      rw [abs_sub_comm (k : ℚ) q] at htriangle
      linarith

/-- Rounding does not lead below an integer that the number has reached. -/
theorem Nearest.le_of_le {q : ℚ} {n k : ℤ} (h : Nearest q n) (hk : (k : ℚ) ≤ q) : k ≤ n := by
  by_contra hlt
  have hstep : (n : ℚ) + 1 ≤ k := by exact_mod_cast not_le.mp hlt
  have hnear := (abs_le.mp (nearest_iff.mp h)).2
  linarith

theorem Nearest.neg {q : ℚ} {n : ℤ} (h : Nearest q n) : Nearest (-q) (-n) := by
  rw [nearest_iff] at h ⊢
  rwa [Int.cast_neg, neg_sub_neg, abs_sub_comm]

theorem halfWay_neg {q : ℚ} (h : HalfWay (-q)) : HalfWay q := by
  obtain ⟨k, hk⟩ := h
  refine ⟨-k - 1, ?_⟩
  push_cast
  linarith

/-- A number with an integer less than a half away is not half way between two. -/
theorem not_halfWay_of_lt {q : ℚ} {n : ℤ} (h : |q - n| < 1 / 2) : ¬HalfWay q := by
  rintro ⟨k, rfl⟩
  obtain ⟨hbelow, habove⟩ := abs_lt.mp h
  have hlt : k < n := by
    have h : (k : ℚ) < n := by linarith
    exact_mod_cast h
  have hle : n < k + 1 := by
    have h : (n : ℚ) < (k + 1 : ℤ) := by push_cast; linarith
    exact_mod_cast h
  omega

theorem NearestEven.of_lt {q : ℚ} {n : ℤ} (h : |q - n| < 1 / 2) : NearestEven q n :=
  ⟨nearest_iff.mpr h.le, fun hhalf => absurd hhalf (not_halfWay_of_lt h)⟩

theorem NearestEven.intCast (n : ℤ) : NearestEven n n := .of_lt (by simp)

theorem NearestAway.of_lt {q : ℚ} {n : ℤ} (h : |q - n| < 1 / 2) : NearestAway q n :=
  ⟨nearest_iff.mpr h.le, fun hhalf => absurd hhalf (not_halfWay_of_lt h)⟩

theorem NearestAway.intCast (n : ℤ) : NearestAway n n := .of_lt (by simp)

theorem NearestEven.neg {q : ℚ} {n : ℤ} (h : NearestEven q n) : NearestEven (-q) (-n) :=
  ⟨h.nearest.neg, fun hhalf => (h.even (halfWay_neg hhalf)).neg⟩

theorem NearestAway.neg {q : ℚ} {n : ℤ} (h : NearestAway q n) : NearestAway (-q) (-n) := by
  refine ⟨h.nearest.neg, fun hhalf => ?_⟩
  rw [Int.cast_neg, abs_neg, abs_neg]
  exact h.away (halfWay_neg hhalf)

/-- Rounding has one result. -/
theorem NearestEven.unique {q : ℚ} {m n : ℤ} (hm : NearestEven q m) (hn : NearestEven q n) :
    m = n := by
  by_contra hne
  have hstep : (1 : ℚ) ≤ |(m : ℚ) - n| := by exact_mod_cast Int.one_le_abs (sub_ne_zero.mpr hne)
  have htriangle := abs_sub_le (m : ℚ) q n
  rw [abs_sub_comm (m : ℚ) q] at htriangle
  have hm' := nearest_iff.mp hm.nearest
  have hn' := nearest_iff.mp hn.nearest
  -- Both are a half away, so that the number is half way between them.
  have hboth : |q - m| = 1 / 2 ∧ |q - n| = 1 / 2 ∧ |(m : ℚ) - n| = 1 := by
    refine ⟨?_, ?_, ?_⟩ <;> linarith
  have hhalf : HalfWay q := by
    rcases (abs_eq (by norm_num)).mp hboth.1 with h | h
    · exact ⟨m, by linarith⟩
    · exact ⟨m - 1, by push_cast; linarith⟩
  have hdistance : |m - n| = 1 := by exact_mod_cast hboth.2.2
  have heven := hm.even hhalf
  have heven' := hn.even hhalf
  rw [Int.even_iff] at heven heven'
  rcases (abs_eq (by norm_num)).mp hdistance with h | h
  · omega
  · omega

/-! ## Quotients of natural numbers -/

theorem natCast_div_eq (num : ℕ) {den : ℕ} (hden : 0 < den) :
    (num : ℚ) / den = (num / den : ℕ) + (num % den : ℕ) / den := by
  have hden' : (den : ℚ) ≠ 0 := Nat.cast_ne_zero.mpr (by omega)
  have h : (num : ℚ) = den * (num / den : ℕ) + (num % den : ℕ) := by
    exact_mod_cast (Nat.div_add_mod num den).symm
  field_simp
  linarith

theorem nearestEven_divNearestEven (num : ℕ) {den : ℕ} (hden : 0 < den) :
    NearestEven ((num : ℚ) / den) (Binary64.divNearestEven num den : ℕ) := by
  have hden' : (0 : ℚ) < den := Nat.cast_pos.mpr hden
  have hsplit := natCast_div_eq num hden
  have hnonneg : (0 : ℚ) ≤ (num % den : ℕ) / den := by positivity
  have hlt : ((num % den : ℕ) : ℚ) / den < 1 := by
    rw [div_lt_one hden']
    exact Nat.cast_lt.mpr (Nat.mod_lt num hden)
  have hbelow : 2 * (num % den) < den ↔ ((num % den : ℕ) : ℚ) / den < 1 / 2 := by
    rw [div_lt_div_iff₀ hden' two_pos, one_mul, mul_comm]
    exact_mod_cast Iff.rfl
  have habove : den < 2 * (num % den) ↔ (1 : ℚ) / 2 < (num % den : ℕ) / den := by
    rw [div_lt_div_iff₀ two_pos hden', one_mul, mul_comm _ (2 : ℚ)]
    exact_mod_cast Iff.rfl
  generalize ((num % den : ℕ) : ℚ) / den = fraction at *
  rw [hsplit]
  unfold Binary64.divNearestEven
  simp only [hbelow, habove]
  generalize num / den = quotient
  split
  · next hsmall =>
    apply NearestEven.of_lt
    rwa [Int.cast_natCast, add_sub_cancel_left, abs_of_nonneg hnonneg]
  · split
    · next hlarge =>
      apply NearestEven.of_lt
      rw [abs_lt]
      push_cast
      constructor <;> linarith
    · next hsmall hlarge =>
      have hhalf : fraction = 1 / 2 := le_antisymm (not_lt.mp hlarge) (not_lt.mp hsmall)
      constructor
      · rw [nearest_iff, abs_le, hhalf]
        have hparity : quotient % 2 = 0 ∨ quotient % 2 = 1 := by omega
        rcases hparity with h | h
        all_goals
          rw [h]
          push_cast
          constructor <;> linarith
      · intro _
        rw [Int.even_iff]
        omega

namespace Decimal

/-! ## Places that are dropped -/

theorem roundDigits_eq (n count : ℕ) :
    roundDigits n count = Binary64.divNearestEven n (10 ^ count) := rfl

/-- A number so small that no digit of it counts is rounded to zero. -/
theorem roundDigits_of_log2_lt {n count : ℕ} (h : n.log2 + 1 < count) :
    roundDigits n count = 0 := by
  have hn : n < 2 ^ (count - 1) :=
    Nat.lt_log2_self.trans_le (Nat.pow_le_pow_right (by decide) (by omega))
  have hdouble : 2 * 2 ^ (count - 1) = 2 ^ count := by
    rw [← pow_succ']
    congr 1
    omega
  have hpow : 2 ^ count ≤ 10 ^ count := Nat.pow_le_pow_left (by decide) count
  rw [roundDigits_eq, Binary64.divNearestEven]
  rw [Nat.mod_eq_of_lt (by omega), if_pos (by omega), Nat.div_eq_of_lt (by omega)]

theorem nearestEven_signed {u : ℤ} {den : ℚ} {m : ℕ} (h : NearestEven (u.natAbs / den) m) :
    NearestEven (u / den) (signed u m) := by
  rcases lt_or_ge u 0 with hneg | hnonneg
  · rw [signed_of_neg hneg, cast_of_neg hneg, neg_div]
    exact h.neg
  · rw [signed_of_nonneg hnonneg, cast_of_nonneg hnonneg]
    exact h

theorem scale_rounded (d : Decimal) (s : ℤ) : (d.rounded s).scale = s := by
  unfold rounded
  split <;> rfl

/-- A decimal at fewer places is the nearest one there, with ties to even. -/
theorem nearestEven_rounded (d : Decimal) (s : ℤ) :
    NearestEven (d.value * 10 ^ s) (d.rounded s).unscaled := by
  unfold rounded
  split
  · next h =>
    rw [← value_unscaledAt h, mul_assoc, ← zpow_add₀ ten_ne_zero, neg_add_cancel, zpow_zero,
      mul_one]
    exact .intCast _
  · next h =>
    obtain ⟨count, hcount⟩ : ∃ count : ℕ, d.scale = s + count := ⟨(d.scale - s).toNat, by omega⟩
    have hvalue : d.value * 10 ^ s = d.unscaled / (10 ^ count : ℕ) := by
      rw [value, hcount, neg_add, zpow_add₀ ten_ne_zero, mul_assoc, mul_right_comm,
        ← zpow_add₀ ten_ne_zero,
        neg_add_cancel, zpow_zero, one_mul, zpow_neg, zpow_natCast, div_eq_mul_inv]
      push_cast
      rfl
    have hdigits : (if d.unscaled.natAbs.log2 + 1 < count then 0
        else roundDigits d.unscaled.natAbs count) = roundDigits d.unscaled.natAbs count := by
      split
      · next hsmall => exact (roundDigits_of_log2_lt hsmall).symm
      · rfl
    have hdifference : (d.scale - s).toNat = count := by omega
    dsimp only
    rw [hdifference, hdigits, roundDigits_eq, hvalue]
    exact nearestEven_signed (nearestEven_divNearestEven _ (by positivity))

end Decimal
end Stencil
