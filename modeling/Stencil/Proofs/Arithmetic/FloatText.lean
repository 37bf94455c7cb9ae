import Stencil.Proofs.Arithmetic.ExactResults
import Stencil.Proofs.Binary64.Printed

/-!
# Float results as operands

The text of a float depends on the value of a result alone, and it is an operand again, of a value
that the same float is nearest to. It is never the text of an integer.
-/

namespace Stencil.Arithmetic
open Binary64 Decimal Fallible
variable {a b d : Decimal} {s : Text}

theorem floatText_eq_ok_iff :
    floatText d = .ok s ↔ ∃ x, ofDecimal? (decide (d.unscaled < 0)) d.unscaled.natAbs (-d.scale) =
      some x ∧ x.print floatLayout = s := by
  unfold floatText
  split
  · next x hx => simp [hx]
  · next hnone => simp [hnone]

/-! ## The value decides -/

/-- Results of one value have one float text. -/
theorem floatText_congr (h : a.value = b.value) (ha : floatText a = .ok s) :
    floatText b = .ok s := by
  have hsign : decide (a.unscaled < 0) = decide (b.unscaled < 0) := by
    rw [decide_eq_decide, ← value_neg_iff, ← value_neg_iff, h]
  have habs : (a.unscaled.natAbs : ℚ) * 10 ^ (-a.scale) = b.unscaled.natAbs * 10 ^ (-b.scale) := by
    rw [← abs_value, ← abs_value, h]
  rw [floatText_eq_ok_iff] at ha ⊢
  rwa [← hsign, ← ofDecimal?_congr habs]

/-! ## Reading -/

/-- An exponent that is not negative has no sign. -/
theorem floatLayout_sign :
    floatLayout.exponentSign = [] ∨ floatLayout.exponentSign = ['+'] := .inl rfl

theorem print_zero (negative : Bool) :
    (zero negative).print floatLayout = signText negative ++ ['0', '.', '0'] := by
  cases negative <;> rfl

/-- A decimal has no sign beside its digits, so that a zero is written without one. -/
theorem floatText_zero (scale : ℤ) : floatText ⟨0, scale⟩ = .ok "0.0".toList := rfl

/-- Digits behind a sign have the text of the float that they stand for. -/
theorem floatText_signed {x : Binary64} (hx : x.significand ≠ 0) {n : ℕ} {scale : ℤ}
    (h : (n : ℚ) * 10 ^ (-scale) = x.shortest.value) :
    floatText ⟨if x.negative then -n else n, scale⟩ = .ok (x.print floatLayout) := by
  have hn : 0 < n := by
    apply Nat.pos_of_ne_zero
    intro hzero
    rw [hzero, Nat.cast_zero, zero_mul, Digits.value, eq_comm, mul_eq_zero, Nat.cast_eq_zero] at h
    exact h.elim (digits_ne_zero hx) (ten_zpow_pos _).ne'
  have hsign : decide ((if x.negative then -n else n : ℤ) < 0) = x.negative := by
    cases x.negative <;> simp [hn]
  have hdigits : (if x.negative then -n else n : ℤ).natAbs = n := by
    cases x.negative <;> simp
  have hread := readsBack_iff.mp (readsBack_shortest x)
  rw [← ofDecimal?_congr h] at hread
  rw [floatText_eq_ok_iff, hsign, hdigits]
  exact ⟨x, hread, rfl⟩

/-- The text of a float is an operand, and only the sign of a zero is lost with it. -/
theorem operand_print (x : Binary64) :
    ∃ d, operand (x.print floatLayout) = .ok d ∧
      (floatText d = .ok (x.print floatLayout) ∨
        x.print floatLayout = "-0.0".toList ∧ floatText d = .ok "0.0".toList) := by
  have hblank : ∀ c ∈ x.print floatLayout, Text.isBlank c = false := fun c hc =>
    Numeral.forall_numeral_char (P := fun c => Text.isBlank c = false) (by decide)
      (forall_mem_print floatLayout_sign hc)
  obtain ⟨body, hbody, hprint⟩ := print_eq floatLayout_sign x
  obtain ⟨n, scale, hvalue, hread⟩ := hbody.read
  have hoperand := hread x.negative
  rw [← hprint] at hoperand
  refine ⟨_, operand_of_read hblank hoperand, ?_⟩
  by_cases hx : x.significand = 0
  · obtain rfl : n = 0 := by
      have hshortest : x.shortest = ⟨0, 0⟩ := if_pos (isZero_iff.mpr hx)
      rw [hshortest, Digits.value, Nat.cast_zero, zero_mul, mul_eq_zero, Nat.cast_eq_zero] at hvalue
      exact hvalue.resolve_right (ten_zpow_pos _).ne'
    have hzero : floatText ⟨if x.negative then -(0 : ℕ) else (0 : ℕ), scale⟩ =
        .ok "0.0".toList := by
      rw [Nat.cast_zero, neg_zero, ite_self, floatText_zero]
    rw [eq_zero_of_significand hx, print_zero]
    cases hnegative : x.negative with
    | false =>
      rw [hnegative] at hzero
      exact .inl hzero
    | true =>
      rw [hnegative] at hzero
      exact .inr ⟨rfl, hzero⟩
  · exact .inl (floatText_signed hx hvalue)

theorem point_or_power_of_floatText (h : floatText d = .ok s) : '.' ∈ s ∨ 'e' ∈ s := by
  obtain ⟨x, -, rfl⟩ := floatText_eq_ok_iff.mp h
  exact point_or_power floatLayout_sign x

theorem toInt?_floatText (h : floatText d = .ok s) : Numeral.toInt? s = none :=
  Numeral.toInt?_of_mem (point_or_power_of_floatText h)

end Stencil.Arithmetic
