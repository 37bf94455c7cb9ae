import Stencil.Proofs.Arithmetic.FloatText

/-!
# Results as operands

Main statement: each result is an operand again, of the value that its text shows, and adding zero
gives the same text. The exceptions are a negative zero, which loses its sign, and the floats whose
text has a power of ten but no point: without a point the sum counts as an integer.
-/

namespace Stencil.Arithmetic
open Decimal Fallible
variable {left operator right s : Text} {d : Decimal}

/-- The two ways in which results are written. -/
theorem evaluate_cases (h : evaluate left operator right = .ok s) :
    ∃ d, floatText d = .ok s ∨ integerText d = s := by
  unfold evaluate at h
  obtain ⟨a, -, h⟩ := bind_eq_ok_iff.mp h
  obtain ⟨b, -, h⟩ := bind_eq_ok_iff.mp h
  split at h
  · cases h
  · obtain ⟨d, -, h⟩ := bind_eq_ok_iff.mp h
    split at h
    · exact ⟨d, .inl h⟩
    · exact ⟨d, .inr (Except.ok.inj h)⟩

/-- The operand `d` that a result `s` is. -/
inductive Rereads (s : Text) (d : Decimal) : Prop
  /-- The result is the numeral of an integer, and the operand is that integer. -/
  | integer {n : ℤ} (hint : Numeral.toInt? s = some n) (hvalue : d.value = n)
      (h : integerText d = s)
  /-- The result is the text of a float, and that is the float nearest to the operand. -/
  | float (h : floatText d = .ok s)
  | negativeZero (hs : s = "-0.0".toList) (h : floatText d = .ok "0.0".toList)

theorem exists_rereads (h : evaluate left operator right = .ok s) :
    ∃ d, operand s = .ok d ∧ Rereads s d := by
  obtain ⟨d, hfloat | hinteger⟩ := evaluate_cases h
  · obtain ⟨x, -, rfl⟩ := floatText_eq_ok_iff.mp hfloat
    obtain ⟨d', hoperand, h | ⟨hs, h⟩⟩ := operand_print x
    · exact ⟨d', hoperand, .float h⟩
    · exact ⟨d', hoperand, .negativeZero hs h⟩
  · have hint : Numeral.toInt? s = some (towardZero d.value) := by
      rw [← hinteger, integerText_eq, Numeral.toInt?_ofInt]
    refine ⟨_, (operand_of_toInt? hint).1, .integer hint (value_integer _) ?_⟩
    rw [integerText_eq, value_integer, towardZero_intCast, ← hinteger, integerText_eq]

/-- Adding zero writes an operand again, as a float when there is a point in it. -/
theorem evaluate_plus_zero (hs : operand s = .ok d) (h : Rereads s d) :
    evaluate s ['+'] ['0'] = if '.' ∈ s then floatText d else .ok (integerText d) := by
  have hzero : operand ['0'] = .ok ⟨0, 0⟩ := by decide +kernel
  obtain ⟨sum, hvalue, hsum⟩ := evaluate_ring .plus hs hzero
  have hvalue' : sum.value = d.value := by
    rw [hvalue, RingOperator.apply, value_integer, Int.cast_zero, add_zero]
  have hpoint : ('.' ∈ s ∨ '.' ∈ ['0']) ↔ '.' ∈ s := or_iff_left (by decide)
  have hinteger : integerText sum = integerText d := by
    rw [integerText_eq, integerText_eq, hvalue']
  rw [show evaluate s ['+'] ['0'] = _ from hsum]
  simp only [hpoint, hinteger]
  split
  · next hmem =>
    cases h with
    | integer hint => exact absurd hmem (Numeral.not_mem_of_toInt? hint).1
    | float h => rw [h, floatText_congr hvalue'.symm h]
    | negativeZero _ h => rw [h, floatText_congr hvalue'.symm h]
  · rfl

theorem evaluate_plus_zero_iff (hs : operand s = .ok d) (h : Rereads s d) :
    evaluate s ['+'] ['0'] = .ok s ↔ s ≠ "-0.0".toList ∧ ('e' ∈ s → '.' ∈ s) := by
  rw [evaluate_plus_zero hs h]
  cases h with
  | integer hint _ h =>
    obtain ⟨hpoint, hpower⟩ := Numeral.not_mem_of_toInt? hint
    rw [if_neg hpoint, h]
    refine iff_of_true rfl ⟨?_, fun hmem => absurd hmem hpower⟩
    rintro rfl
    exact hpoint (by decide)
  | negativeZero hzero h =>
    rw [hzero, if_pos (by decide), h]
    refine iff_of_false ?_ fun hne => hne.1 rfl
    decide
  | float h =>
    have hsign : s ≠ "-0.0".toList := by
      rintro rfl
      have hzero : operand "-0.0".toList = .ok ⟨0, 1⟩ := by decide +kernel
      rw [Except.ok.inj (hs.symm.trans hzero), floatText_zero] at h
      exact absurd h (by decide)
    split
    · next hpoint => exact iff_of_true h ⟨hsign, fun _ => hpoint⟩
    · next hpoint =>
      -- A text without a point is read as an integer, and it is not one.
      have hpower := (point_or_power_of_floatText h).resolve_left hpoint
      refine iff_of_false ?_ fun hstable => hpoint (hstable.2 hpower)
      intro heq
      have hint := toInt?_floatText h
      rw [← Except.ok.inj heq, integerText_eq, Numeral.toInt?_ofInt] at hint
      cases hint

/-- A result as an operand shows the value that it has, and adding zero to it changes nothing, up to
the sign of a zero and to floats that are written without a point. -/
theorem evaluate_again (h : evaluate left operator right = .ok s) :
    ∃ d, operand s = .ok d ∧ Rereads s d ∧
      evaluate s ['+'] ['0'] = (if '.' ∈ s then floatText d else .ok (integerText d)) ∧
      (evaluate s ['+'] ['0'] = .ok s ↔ s ≠ "-0.0".toList ∧ ('e' ∈ s → '.' ∈ s)) := by
  obtain ⟨d, hoperand, hd⟩ := exists_rereads h
  exact ⟨d, hoperand, hd, evaluate_plus_zero hoperand hd, evaluate_plus_zero_iff hoperand hd⟩

/-- A negative result with a point and a power of ten. -/
theorem evaluate_again_power :
    let s := "-1.5e-7".toList
    evaluate "-3e-7".toList ['/'] "2".toList = .ok s ∧ evaluate s ['+'] ['0'] = .ok s := by
  intro s
  have h : evaluate "-3e-7".toList ['/'] "2".toList = .ok s := by decide +kernel
  obtain ⟨d, -, -, -, hstable⟩ := evaluate_again h
  exact ⟨h, hstable.mpr ⟨by decide, by decide⟩⟩

/-- A whole number of seventeen digits is written without a point, so that the next sum is an
integer. -/
theorem evaluate_again_whole :
    evaluate "10000000000000000.0".toList ['+'] ['0'] = .ok "1e16".toList ∧
      evaluate "1e16".toList ['+'] ['0'] = .ok "10000000000000000".toList := by
  decide +kernel

end Stencil.Arithmetic
