import Stencil.Proofs.Arithmetic.ExactResults
import Stencil.Proofs.Decimal.Remainder

/-!
# Remainders of operands

Main statement: the remainder of two operands is that of their magnitudes, whatever signs and scales
they are written with. The one reason to refuse it as a division by zero is a second operand of
value zero, in any spelling.
-/

namespace Stencil.Arithmetic
open Decimal Fallible

section
variable {left right : Text} {a b : Decimal}

theorem apply_modulo (a : Decimal) (hb : b.value ≠ 0) :
    Operator.modulo.apply a b = .ok (a.remainder b).abs := by
  rw [ne_eq, value_eq_zero_iff] at hb
  rw [Operator.apply, if_neg hb]

theorem evaluate_modulo (ha : operand left = .ok a) (hb : operand right = .ok b)
    (hzero : b.value ≠ 0) :
    evaluate left ['%'] right =
      if '.' ∈ left ∨ '.' ∈ right then floatText (a.remainder b).abs
      else .ok (integerText (a.remainder b).abs) :=
  evaluate_of_apply rfl Operator.noConfusion ha hb (apply_modulo a hzero)

/-- The remainder of integers is written as an integer. -/
theorem evaluate_modulo_integers {m n : ℤ} (hleft : Numeral.toInt? left = some m)
    (hright : Numeral.toInt? right = some n) (hn : n ≠ 0) :
    evaluate left ['%'] right = .ok (Numeral.ofInt (|m| % |n|)) := by
  obtain ⟨ha, hleft⟩ := operand_of_toInt? hleft
  obtain ⟨hb, hright⟩ := operand_of_toInt? hright
  have hzero : value ⟨n, 0⟩ ≠ 0 := by
    rw [value_integer]
    exact Int.cast_ne_zero.mpr hn
  have hvalue : (remainder ⟨m, 0⟩ ⟨n, 0⟩).abs.value = (|m| % |n| : ℤ) := by
    rw [value_abs_remainder, value_integer, value_integer, cast_emod, ← Int.cast_abs, ← Int.cast_abs,
      Int.abs_eq_natAbs, Int.abs_eq_natAbs, Int.cast_natCast, Int.cast_natCast,
      Rat.floor_natCast_div_natCast]
  rw [evaluate_modulo ha hb hzero, if_neg (not_or.mpr ⟨hleft, hright⟩), integerText_eq, hvalue,
    towardZero_intCast]

/-! ## Division by zero -/

theorem evaluate_modulo_of_zero (ha : operand left = .ok a) (hb : operand right = .ok b)
    (hzero : b.value = 0) : evaluate left ['%'] right = .error .divisionByZero := by
  have hsign : Operator.ofText? ['%'] = some .modulo := rfl
  rw [evaluate_operands hsign ha hb, Operator.apply, if_pos ((value_eq_zero_iff b).mp hzero)]
  rfl

theorem operand_ne_divisionByZero (t : Text) : operand t ≠ .error .divisionByZero := by
  intro h
  unfold operand at h
  cases hread : Decimal.read (Text.trim t) with
  | error reason =>
    rw [hread] at h
    cases h
  | ok d =>
    rw [hread] at h
    cases h

theorem floatText_ne_divisionByZero (d : Decimal) : floatText d ≠ .error .divisionByZero := by
  intro h
  unfold floatText at h
  split at h <;> cases h

/-- A remainder is refused for the zero alone. -/
theorem evaluate_modulo_eq_divisionByZero_iff :
    evaluate left ['%'] right = .error .divisionByZero ↔
      ∃ a b, operand left = .ok a ∧ operand right = .ok b ∧ b.value = 0 := by
  constructor
  · intro h
    cases ha : operand left with
    | error err =>
      simp only [evaluate, ha, bind, Except.bind] at h
      obtain rfl := Except.error.inj h
      exact absurd ha (operand_ne_divisionByZero left)
    | ok a =>
      cases hb : operand right with
      | error err =>
        simp only [evaluate, ha, hb, bind, Except.bind] at h
        obtain rfl := Except.error.inj h
        exact absurd hb (operand_ne_divisionByZero right)
      | ok b =>
        refine ⟨a, b, rfl, rfl, ?_⟩
        by_contra hzero
        rw [evaluate_modulo ha hb hzero] at h
        split at h
        · exact floatText_ne_divisionByZero _ h
        · cases h
  · rintro ⟨a, b, ha, hb, hzero⟩
    exact evaluate_modulo_of_zero ha hb hzero

end

/-- Remainders of operands of any signs and scales. The remainder is what the magnitude of the
second operand leaves of that of the first; between integers it is written exactly; and the only
division by zero is by a number that is zero. -/
theorem evaluate_remainder :
    (∀ (left right : Text) (a b : Decimal), operand left = .ok a → operand right = .ok b →
      b.value ≠ 0 →
        ∃ d, Operator.modulo.apply a b = .ok d ∧
          d.value = |a.value| - |b.value| * ⌊|a.value| / |b.value|⌋ ∧
          0 ≤ d.value ∧ d.value < |b.value| ∧
          (∀ a' b' : Decimal, |a'.value| = |a.value| → |b'.value| = |b.value| →
            ∃ d', Operator.modulo.apply a' b' = .ok d' ∧ d'.value = d.value) ∧
          evaluate left ['%'] right =
            if '.' ∈ left ∨ '.' ∈ right then floatText d else .ok (integerText d)) ∧
    (∀ (left right : Text) (m n : ℤ), Numeral.toInt? left = some m →
      Numeral.toInt? right = some n → n ≠ 0 →
        evaluate left ['%'] right = .ok (Numeral.ofInt (|m| % |n|))) ∧
    ∀ left right : Text, evaluate left ['%'] right = .error .divisionByZero ↔
      ∃ a b, operand left = .ok a ∧ operand right = .ok b ∧ b.value = 0 := by
  refine ⟨fun left right a b ha hb hzero => ?_, fun left right m n hleft hright hn => ?_,
    fun left right => evaluate_modulo_eq_divisionByZero_iff⟩
  · obtain ⟨hnonneg, hlt⟩ := value_abs_remainder_bounds a b hzero
    refine ⟨(a.remainder b).abs, apply_modulo a hzero, value_abs_remainder a b, hnonneg, hlt, ?_,
      evaluate_modulo ha hb hzero⟩
    intro a' b' ha' hb'
    have hzero' : b'.value ≠ 0 := by
      rw [← abs_pos, hb', abs_pos]
      exact hzero
    exact ⟨(a'.remainder b').abs, apply_modulo a' hzero', value_abs_remainder_congr ha' hb'⟩
  · exact evaluate_modulo_integers hleft hright hn

/-- Operands of both signs at scales on either side of zero, and three spellings of zero. -/
theorem evaluate_remainder_spellings :
    operand "-1_2e2".toList = .ok ⟨-12, -2⟩ ∧ operand " 0.70\t".toList = .ok ⟨70, 2⟩ ∧
      (∃ d, Operator.modulo.apply ⟨-12, -2⟩ ⟨70, 2⟩ = .ok d ∧ 0 ≤ d.value ∧
        d.value < |value ⟨70, 2⟩| ∧
        evaluate "-1_2e2".toList ['%'] " 0.70\t".toList = floatText d) ∧
      evaluate "-0017".toList ['%'] "-5".toList = .ok "2".toList ∧
      evaluate "1".toList ['%'] "-0.00".toList = .error .divisionByZero ∧
      evaluate "1".toList ['%'] "0e5".toList = .error .divisionByZero ∧
      evaluate "x".toList ['%'] "0".toList ≠ .error .divisionByZero := by
  have ha : operand "-1_2e2".toList = .ok ⟨-12, -2⟩ := by decide +kernel
  have hb : operand " 0.70\t".toList = .ok ⟨70, 2⟩ := by decide +kernel
  have hzero : value ⟨70, 2⟩ ≠ 0 := by
    rw [ne_eq, value_eq_zero_iff]
    decide
  have hone : operand "1".toList = .ok ⟨1, 0⟩ := by decide +kernel
  have hnegative : operand "-0.00".toList = .ok ⟨0, 2⟩ := by decide +kernel
  have hpower : operand "0e5".toList = .ok ⟨0, -5⟩ := by decide +kernel
  have hunread : operand "x".toList =
      .error (.invalidArgument (.notANumber "x".toList .invalidDigit)) := by decide +kernel
  have hleft : Numeral.toInt? "-0017".toList = some (-17) := by decide
  have hright : Numeral.toInt? "-5".toList = some (-5) := by decide
  obtain ⟨d, happly, -, hnonneg, hlt, -, hwritten⟩ :=
    evaluate_remainder.1 _ _ _ _ ha hb hzero
  rw [if_pos (by decide)] at hwritten
  refine ⟨ha, hb, ⟨d, happly, hnonneg, hlt, hwritten⟩, ?_, ?_, ?_, ?_⟩
  · exact evaluate_remainder.2.1 _ _ _ _ hleft hright (by decide)
  · exact (evaluate_remainder.2.2 _ _).mpr
      ⟨_, _, hone, hnegative, (value_eq_zero_iff _).mpr (by decide)⟩
  · exact (evaluate_remainder.2.2 _ _).mpr
      ⟨_, _, hone, hpower, (value_eq_zero_iff _).mpr (by decide)⟩
  · rw [ne_eq, evaluate_remainder.2.2]
    rintro ⟨a, b, ha, -⟩
    rw [hunread] at ha
    cases ha

end Stencil.Arithmetic
