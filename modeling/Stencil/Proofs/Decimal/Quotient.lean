import Stencil.Proofs.Decimal.Rounding
import Stencil.Proofs.Text.Numeral

/-!
# Quotients

A quotient is developed digit by digit. Where the development ends before it is exact, it has a
hundred digits or more, and it is then the nearest number with so many digits.
-/

namespace Stencil.Decimal

/-! ## Development of digits -/

/-- What one digit more leaves of a fraction is exact. -/
theorem developDigits_spec {den : ℕ} (hden : 0 < den) (count quotient rest : ℕ) (hrest : rest < den)
    {final appended left : ℕ}
    (h : developDigits den count quotient rest = (final, appended, left)) :
    final * den + left = (quotient * den + rest) * 10 ^ appended ∧ left < den ∧
      (left ≠ 0 → appended = count) := by
  induction count generalizing quotient rest final appended left with
  | zero =>
    obtain ⟨rfl, rfl, rfl⟩ := h
    exact ⟨by rw [pow_zero, mul_one], hrest, fun _ => rfl⟩
  | succ count ih =>
    rw [developDigits] at h
    split at h
    · next hzero =>
      obtain ⟨rfl, rfl, rfl⟩ := h
      exact ⟨by rw [pow_zero, mul_one, hzero], hden, fun h => absurd rfl h⟩
    · obtain ⟨rfl, rfl, rfl⟩ := h
      obtain ⟨hvalue, hleft, hcount⟩ := ih (quotient * 10 + rest * 10 / den) (rest * 10 % den)
        (Nat.mod_lt _ hden) rfl
      have hstep := Nat.div_add_mod (rest * 10) den
      refine ⟨?_, hleft, fun h => by rw [hcount h]⟩
      calc _ = _ := hvalue
        _ = ((quotient * 10) * den + (den * (rest * 10 / den) + rest * 10 % den)) *
            10 ^ (developDigits den count (quotient * 10 + rest * 10 / den)
              (rest * 10 % den)).2.1 := by ring
        _ = _ := by
          rw [hstep]
          ring

theorem le_shiftUpTo {num den : ℕ} (hnum : 0 < num) : den ≤ num * 10 ^ shiftUpTo num den := by
  induction num using shiftUpTo.induct den with
  | case1 num h ih =>
    rw [shiftUpTo, dif_pos h, pow_succ']
    calc den ≤ num * 10 * 10 ^ shiftUpTo (num * 10) den := ih (by omega)
      _ = _ := by ring
  | case2 num h =>
    rw [shiftUpTo, dif_neg h, pow_zero]
    omega

/-- A quotient that was developed to `places` places: what has been found and what is left. -/
structure Development (num den places : ℕ) where
  found : ℕ
  left : ℕ
  found_eq : found * den + left = num * 10 ^ places
  left_lt : left < den
  /-- Where something is left, there are at least a hundred digits. -/
  long : left ≠ 0 → 10 ^ 99 ≤ found

theorem exists_development {num den : ℕ} (hnum : 0 < num) (hden : 0 < den) {digits places : ℕ}
    (h : quotientOf num den = (digits, places)) :
    ∃ d : Development num den places,
      digits = if 5 * den ≤ d.left * 10 then d.found + 1 else d.found := by
  unfold quotientOf at h
  obtain ⟨rfl, rfl⟩ := h
  have hshift : den ≤ num * 10 ^ shiftUpTo num den := le_shiftUpTo hnum
  rw [← Nat.pow_eq] at hshift
  generalize shiftUpTo num den = shift at *
  generalize hnum' : num * Nat.pow 10 shift = num' at *
  have hwhole : 0 < num' / den := Nat.div_pos hshift hden
  generalize hdevelop : developDigits den (quotientDigits - (Numeral.ofNat (num' / den)).length)
    (num' / den) (num' % den) = result
  obtain ⟨final, appended, left⟩ := result
  obtain ⟨hvalue, hleft, hcount⟩ :=
    developDigits_spec hden _ _ _ (Nat.mod_lt num' hden) hdevelop
  rw [mul_comm (num' / den), Nat.div_add_mod] at hvalue
  refine ⟨⟨final, left, ?_, hleft, fun hne => ?_⟩, rfl⟩
  · rw [hvalue, ← hnum', Nat.pow_eq, pow_add, mul_assoc]
  · -- The digits that were appended follow those of the whole part.
    have hfinal : num' / den * 10 ^ appended ≤ final := by
      have hle : num' / den * 10 ^ appended * den ≤ final * den + left := by
        rw [hvalue, mul_right_comm]
        exact Nat.mul_le_mul_right _ (Nat.div_mul_le_self num' den)
      have hlt : num' / den * 10 ^ appended * den < (final + 1) * den := by
        rw [Nat.succ_mul]
        omega
      exact Nat.lt_succ_iff.mp (Nat.lt_of_mul_lt_mul_right hlt)
    have happended := hcount hne
    have hlength := Numeral.length_ofNat_pos (num' / den)
    have hdigits : quotientDigits = 100 := rfl
    have hfront := Numeral.le_of_length_ofNat (k := 99 - appended) hwhole (by omega)
    have happended' : appended ≤ 99 := by omega
    calc 10 ^ 99 = 10 ^ (99 - appended) * 10 ^ appended := by
          rw [← pow_add, Nat.sub_add_cancel happended']
      _ ≤ num' / den * 10 ^ appended := Nat.mul_le_mul_right _ hfront
      _ ≤ final := hfinal

namespace Development
variable {num den places : ℕ} (d : Development num den places)

theorem value_eq (hden : 0 < den) : (num : ℚ) / den * 10 ^ places = d.found + d.left / den := by
  have hden' : (den : ℚ) ≠ 0 := Nat.cast_ne_zero.mpr (by omega)
  have hfound : (d.found : ℚ) * den + d.left = num * 10 ^ places := by exact_mod_cast d.found_eq
  field_simp
  linarith

/-- The last digit is rounded, a half away from zero. -/
theorem nearestAway (hden : 0 < den) :
    NearestAway ((num : ℚ) / den * 10 ^ places)
      (if 5 * den ≤ d.left * 10 then d.found + 1 else d.found : ℕ) := by
  have hden' : (0 : ℚ) < den := Nat.cast_pos.mpr hden
  have hnonneg : (0 : ℚ) ≤ d.left / den := by positivity
  have hlt : (d.left : ℚ) / den < 1 := by
    rw [div_lt_one hden']
    exact Nat.cast_lt.mpr d.left_lt
  have hhalf : 5 * den ≤ d.left * 10 ↔ (1 : ℚ) / 2 ≤ d.left / den := by
    rw [div_le_div_iff₀ two_pos hden', one_mul]
    constructor
    · intro h
      exact_mod_cast (show den ≤ d.left * 2 by omega)
    · intro h
      have h : den ≤ d.left * 2 := by exact_mod_cast h
      omega
  rw [d.value_eq hden]
  simp only [hhalf]
  split
  · next hup =>
    constructor
    · rw [nearest_iff, abs_le]
      push_cast
      constructor <;> linarith
    · intro _
      rw [abs_of_nonneg (by positivity), abs_of_nonneg (by positivity)]
      push_cast
      linarith
  · next hdown =>
    apply NearestAway.of_lt
    rw [Int.cast_natCast, add_sub_cancel_left, abs_of_nonneg hnonneg]
    exact not_le.mp hdown

/-- What is not exact has at least a hundred digits. -/
theorem long_of_ne (hden : 0 < den)
    (h : ((if 5 * den ≤ d.left * 10 then d.found + 1 else d.found : ℕ) : ℚ) ≠
      (num : ℚ) / den * 10 ^ places) :
    10 ^ 99 ≤ (num : ℚ) / den * 10 ^ places := by
  have hvalue := d.value_eq hden
  have hnonneg : (0 : ℚ) ≤ d.left / den := by positivity
  by_cases hleft : d.left = 0
  · rw [hleft, Nat.cast_zero, zero_div, add_zero] at hvalue
    rw [hleft, Nat.zero_mul, if_neg (by omega)] at h
    exact absurd hvalue.symm h
  · have hlong : (10 : ℚ) ^ 99 ≤ d.found := by exact_mod_cast d.long hleft
    rw [hvalue]
    linarith

end Development

/-! ## Signs and scales -/

theorem quotientSign_cases (a b : ℤ) :
    quotientSign a b = 1 ∧ (a : ℚ) / b = a.natAbs / b.natAbs ∨
      quotientSign a b = -1 ∧ (a : ℚ) / b = -(a.natAbs / b.natAbs) := by
  rcases lt_or_ge a 0 with ha | ha
  · rcases lt_or_ge b 0 with hb | hb
    · left
      rw [cast_of_neg ha, cast_of_neg hb, neg_div_neg_eq, quotientSign, if_pos (by simp [ha, hb])]
      exact ⟨rfl, by simp⟩
    · right
      rw [cast_of_neg ha, cast_of_nonneg hb, neg_div, quotientSign,
        if_neg (by simp [ha, not_lt.mpr hb])]
      exact ⟨rfl, by simp⟩
  · rcases lt_or_ge b 0 with hb | hb
    · right
      rw [cast_of_nonneg ha, cast_of_neg hb, div_neg, quotientSign,
        if_neg (by simp [hb, not_lt.mpr ha])]
      exact ⟨rfl, by simp⟩
    · left
      rw [cast_of_nonneg ha, cast_of_nonneg hb, quotientSign,
        if_pos (by simp [not_lt.mpr ha, not_lt.mpr hb])]
      exact ⟨rfl, by simp⟩

/-- A quotient as it is developed: exact, or at least a hundred digits with the last one rounded. -/
structure Developed (q : ℚ) (c : Decimal) : Prop where
  rounded : NearestAway (q * 10 ^ c.scale) c.unscaled
  long : c.value ≠ q → 10 ^ 99 ≤ |q * 10 ^ c.scale|

theorem value_mul_pow (d : Decimal) : d.value * 10 ^ d.scale = d.unscaled := by
  rw [value, mul_assoc, ← zpow_add₀ ten_ne_zero, neg_add_cancel, zpow_zero, mul_one]

theorem developed_of_exact {q : ℚ} {c : Decimal} (h : c.value = q) : Developed q c := by
  constructor
  · rw [← h, value_mul_pow]
    exact .intCast _
  · intro hne
    exact absurd h hne

/-- The magnitude decides whether a quotient is developed well. -/
theorem developed_of_magnitude {q x : ℚ} {c : Decimal} {n : ℕ} (hrounded : NearestAway x n)
    (hlong : (n : ℚ) ≠ x → 10 ^ 99 ≤ x)
    (h : q * 10 ^ c.scale = x ∧ c.unscaled = n ∨ q * 10 ^ c.scale = -x ∧ c.unscaled = -n) :
    Developed q c := by
  have hvalue : (c.unscaled : ℚ) = q * 10 ^ c.scale → c.value = q := by
    intro heq
    rw [← value_mul_pow] at heq
    exact mul_right_cancel₀ (ten_zpow_pos _).ne' heq
  rcases h with ⟨hx, hn⟩ | ⟨hx, hn⟩
  · constructor
    · rw [hx, hn]
      exact hrounded
    · intro hne
      rw [hx]
      refine (hlong fun heq => hne (hvalue ?_)).trans (le_abs_self x)
      rw [hx, hn, ← heq, Int.cast_natCast]
  · constructor
    · rw [hx, hn]
      exact hrounded.neg
    · intro hne
      rw [hx, abs_neg]
      refine (hlong fun heq => hne (hvalue ?_)).trans (le_abs_self x)
      rw [hx, hn, ← heq, Int.cast_neg, Int.cast_natCast]

theorem value_div (a b : Decimal) :
    a.value / b.value = a.unscaled / b.unscaled * 10 ^ (b.scale - a.scale) := by
  rw [value, value, mul_div_mul_comm, ← zpow_sub₀ ten_ne_zero]
  congr 2
  ring

theorem developed_quotient (a b : Decimal) (hb : b.isZero = false) :
    Developed (a.value / b.value) (quotient a b) := by
  unfold quotient
  split
  · next h =>
    apply developed_of_exact
    rcases Bool.or_eq_true_iff.mp h with ha | hone
    · rw [value_of_isZero ha, zero_div]
    · rw [value_of_isOne hone, div_one]
  · next h =>
    have hbu : b.unscaled ≠ 0 := fun hzero => by simp [isZero, hzero] at hb
    split
    · next heq =>
      apply developed_of_exact
      rw [value_div, heq, div_self (Int.cast_ne_zero.mpr hbu), value, Int.cast_one, neg_sub]
    · have hau : a.unscaled ≠ 0 := fun hzero => h (by simp [isZero, hzero])
      have hnum : 0 < a.unscaled.natAbs := Int.natAbs_pos.mpr hau
      have hden : 0 < b.unscaled.natAbs := Int.natAbs_pos.mpr hbu
      obtain ⟨digits, places, hdigits⟩ :
          ∃ digits places, quotientOf a.unscaled.natAbs b.unscaled.natAbs = (digits, places) :=
        ⟨_, _, rfl⟩
      obtain ⟨d, hd⟩ := exists_development hnum hden hdigits
      have hrounded := d.nearestAway hden
      have hlong := d.long_of_ne hden
      rw [← hd] at hrounded hlong
      have hscaled : a.value / b.value * 10 ^ (a.scale - b.scale + places) =
          a.unscaled / b.unscaled * 10 ^ places := by
        rw [value_div, mul_assoc, ← zpow_add₀ ten_ne_zero, ← zpow_natCast]
        congr 2
        ring
      rw [hdigits]
      apply developed_of_magnitude hrounded hlong
      dsimp only
      rcases quotientSign_cases a.unscaled b.unscaled with ⟨hsign, hratio⟩ | ⟨hsign, hratio⟩
      · left
        rw [hscaled, hratio, hsign, signed_of_nonneg Int.one_nonneg]
        exact ⟨rfl, rfl⟩
      · right
        rw [hscaled, hratio, hsign, signed_of_neg (by decide), neg_mul]
        exact ⟨rfl, rfl⟩

end Stencil.Decimal
