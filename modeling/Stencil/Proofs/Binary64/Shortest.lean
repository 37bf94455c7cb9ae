import Mathlib.Data.List.TakeWhile
import Stencil.Binary64.Shortest
import Stencil.Proofs.Binary64.Nearest
import Stencil.Proofs.Text.Numeral

/-!
# Digits of a float

Main statement: the digits that are chosen for a float stand for that float. They are read back when
they are chosen, all the digits of a float have its value, and zeros at the end carry none of it.
The power of ten beside them stays far inside of a machine word.
-/

namespace Stencil.Binary64

/-- The rational number that digits and a power of ten are. -/
def Digits.value (d : Digits) : ℚ := d.digits * 10 ^ d.exponent

variable {x : Binary64} {d : Digits}

theorem readsBack_iff : readsBack x d = true ↔ ofDecimal? x.negative d.digits d.exponent = some x :=
  decide_eq_true_iff

/-- Digits of one value stand for one float. -/
theorem readsBack_congr {d' : Digits} (h : d.value = d'.value) :
    readsBack x d = readsBack x d' := by
  rw [readsBack, readsBack, ofDecimal?_congr h]

/-! ## All digits -/

theorem value_exactDigits (x : Binary64) : x.exactDigits.value = x.size := by
  simp only [Digits.value, exactDigits, size, Nat.pow_eq]
  push_cast
  rcases le_or_gt 0 x.exponent with hle | hlt
  · obtain ⟨n, hn⟩ := Int.eq_ofNat_of_zero_le hle
    simp [hn]
  · obtain ⟨n, hn⟩ : ∃ n : ℕ, x.exponent = -n := ⟨(-x.exponent).toNat, by omega⟩
    rw [hn, min_eq_left (by omega), neg_neg, Int.toNat_natCast, Int.toNat_neg_natCast, pow_zero,
      mul_one, mul_assoc, zpow_neg, zpow_neg, zpow_natCast, zpow_natCast]
    rw [show (10 : ℚ) = 5 * 2 by norm_num, mul_pow, mul_inv, ← mul_assoc (5 ^ n : ℚ),
      mul_inv_cancel₀ (by positivity), one_mul]

/-! ## Zeros at the end -/

/-- The zeros at the end of a text. -/
theorem eq_append_zeros (t : Text) :
    ∃ front : Text, t = front ++ Text.fill (t.reverse.takeWhile (· == '0')).length '0' := by
  have hzeros : ∀ c ∈ t.reverse.takeWhile (· == '0'), c = '0' := by
    intro c hc
    have hzero := List.mem_takeWhile_imp hc
    exact beq_iff_eq.mp hzero
  refine ⟨(t.reverse.dropWhile (· == '0')).reverse, ?_⟩
  calc t = (t.reverse.takeWhile (· == '0') ++ t.reverse.dropWhile (· == '0')).reverse := by
        rw [List.takeWhile_append_dropWhile, List.reverse_reverse]
    _ = _ := by
      rw [List.reverse_append, List.eq_replicate_of_mem hzeros, List.reverse_replicate,
        List.length_replicate]
      rfl

theorem value_strip (d : Digits) : d.strip.value = d.value := by
  obtain ⟨front, hfront⟩ := eq_append_zeros (Numeral.ofNat d.digits)
  simp only [Digits.value, Digits.strip, Nat.pow_eq]
  generalize ((Numeral.ofNat d.digits).reverse.takeWhile (· == '0')).length = zeros at *
  have hdigits : d.digits = Numeral.value front * 10 ^ zeros := by
    rw [← Numeral.value_append_zeros, ← hfront, Numeral.value_ofNat]
  rw [hdigits, Nat.mul_div_cancel _ (by positivity), zpow_add₀ ten_ne_zero, zpow_natCast]
  push_cast
  ring

/-! ## The fewest digits -/

theorem eq_zero_of_significand (h : x.significand = 0) : x = zero x.negative := by
  obtain ⟨negative, significand, exponent, hcanonical⟩ := x
  obtain rfl : significand = 0 := h
  obtain rfl : exponent = -1074 := hcanonical.2.2.2.resolve_right (by decide)
  rfl

theorem isZero_iff : x.isZero = true ↔ x.significand = 0 := beq_iff_eq

theorem of_firstRead {first second : Digits}
    (h : (if readsBack x first then some first
      else if readsBack x second then some second else none) = some d) :
    readsBack x d = true ∧ (d = first ∨ d = second) := by
  split at h
  · next hfirst =>
    obtain rfl := Option.some.inj h
    exact ⟨hfirst, .inl rfl⟩
  · split at h
    · next hsecond =>
      obtain rfl := Option.some.inj h
      exact ⟨hsecond, .inr rfl⟩
    · cases h

/-- Both candidates have the places that are asked for. -/
theorem of_withPlaces? {places : ℕ} (h : withPlaces? x places = some d) :
    readsBack x d = true ∧ d.exponent = floorLog10 x.ratio.1 x.ratio.2 - places + 1 := by
  unfold withPlaces? at h
  dsimp only at h
  split at h
  all_goals
    obtain ⟨hread, hd⟩ := of_firstRead h
    refine ⟨hread, ?_⟩
    rcases hd with rfl | rfl <;> rfl

/-- Where the digits of a float that is not zero come from, before zeros are dropped. -/
theorem shortest_cases (hx : x.isZero = false) :
    ∃ d : Digits, x.shortest = d.strip ∧
      (d = x.exactDigits ∨ ∃ places ≤ 17, withPlaces? x places = some d) := by
  unfold shortest
  rw [hx, if_neg Bool.false_ne_true]
  refine ⟨_, rfl, ?_⟩
  cases hfound : (List.range 17).findSome? fun i => withPlaces? x (i + 1) with
  | none => exact .inl rfl
  | some d =>
    obtain ⟨i, hi, hplaces⟩ := List.exists_of_findSome?_eq_some hfound
    have hlt := List.mem_range.mp hi
    exact .inr ⟨i + 1, by omega, hplaces⟩

/-- The digits of a float are read back as that float. -/
theorem readsBack_shortest (x : Binary64) : readsBack x x.shortest = true := by
  cases hx : x.isZero with
  | true =>
    have hzero := eq_zero_of_significand (isZero_iff.mp hx)
    rw [shortest, if_pos hx, readsBack_iff]
    exact congrArg some hzero.symm
  | false =>
    obtain ⟨d, hshortest, hd⟩ := shortest_cases hx
    rw [hshortest, readsBack_congr (value_strip d)]
    rcases hd with rfl | ⟨places, -, hplaces⟩
    · have hsignificand : x.significand ≠ 0 := by
        rw [ne_eq, ← isZero_iff, hx]
        exact Bool.false_ne_true
      exact readsBack_iff.mpr (ofDecimal?_of_size hsignificand (value_exactDigits x))
    · exact (of_withPlaces? hplaces).1

/-! ## The power of ten -/

theorem ratio_den_lt (x : Binary64) : x.ratio.2 < 10 ^ 400 := by
  have hleast : -1074 ≤ x.exponent := x.canonical.2.1
  calc x.ratio.2 = 2 ^ (-x.exponent).toNat := rfl
    _ ≤ 2 ^ 1075 := pow_le_pow_right₀ one_le_two (by omega)
    _ < 10 ^ 400 := beyond_smallest

theorem floorLog10_ge (num : ℕ) {den k : ℕ} (h : den < 10 ^ k) :
    -(k + 1 : ℤ) ≤ floorLog10 num den := by
  unfold floorLog10
  split
  · omega
  · have hquotient : (den + num - 1) / num ≤ den + num - 1 := Nat.div_le_self _ _
    have hlt : (den + num - 1) / num - 1 < 10 ^ (k + 1) := by omega
    have hlength := Numeral.length_ofNat_le (Nat.succ_pos k) hlt
    omega

/-- The digits of a float do not reach further than those of the smallest float. -/
theorem shortest_exponent_ge (x : Binary64) : -1100 ≤ x.shortest.exponent := by
  have hstrip (d : Digits) : d.exponent ≤ d.strip.exponent :=
    le_add_of_nonneg_right (Int.natCast_nonneg _)
  cases hx : x.isZero with
  | true =>
    rw [shortest, if_pos hx]
    decide
  | false =>
    obtain ⟨d, hshortest, hd⟩ := shortest_cases hx
    rw [hshortest]
    apply le_trans _ (hstrip d)
    rcases hd with rfl | ⟨places, hplaces, hd⟩
    · have hleast : -1074 ≤ x.exponent := x.canonical.2.1
      exact le_min (by omega) (by decide)
    · have hlog := floorLog10_ge x.ratio.1 (ratio_den_lt x)
      rw [(of_withPlaces? hd).2]
      omega

/-- The number of digits and the power of ten place the first digit. -/
theorem value_bounds (hd : d.digits ≠ 0) :
    (10 : ℚ) ^ ((Numeral.ofNat d.digits).length + d.exponent - 1) ≤ d.value ∧
      d.value < 10 ^ ((Numeral.ofNat d.digits).length + d.exponent) := by
  have hlength := Numeral.length_ofNat_pos d.digits
  have hupper := Numeral.lt_pow_length_ofNat d.digits
  have hlower := Numeral.le_of_length_ofNat (Nat.pos_of_ne_zero hd) (Nat.sub_lt hlength one_pos)
  generalize (Numeral.ofNat d.digits).length = length at *
  unfold Digits.value
  constructor
  · have hsplit : (length : ℤ) + d.exponent - 1 = (length - 1 : ℕ) + d.exponent := by omega
    rw [hsplit, zpow_add₀ ten_ne_zero, zpow_natCast]
    gcongr
    exact_mod_cast hlower
  · rw [zpow_add₀ ten_ne_zero, zpow_natCast]
    gcongr
    exact_mod_cast hupper

/-- Digits that are read back as a float are not beyond the floats. -/
theorem place_bounds (hx : x.significand ≠ 0) (hd : d.digits ≠ 0) (h : readsBack x d = true) :
    -400 < (Numeral.ofNat d.digits).length + d.exponent ∧
      (Numeral.ofNat d.digits).length + d.exponent ≤ 400 := by
  obtain ⟨hlower, hupper⟩ := value_bounds hd
  rw [readsBack_iff] at h
  constructor
  · by_contra hsmall
    have hvalue : d.value ≤ 10 ^ (-400 : ℤ) :=
      hupper.le.trans (ten_zpow_le (not_lt.mp hsmall))
    rw [ofDecimal?_of_small hvalue] at h
    exact hx (congrArg significand (Option.some.inj h)).symm
  · by_contra hlarge
    have hvalue : (10 : ℚ) ^ (400 : ℤ) ≤ d.value :=
      le_trans (ten_zpow_le (by omega)) hlower
    rw [ofDecimal?_of_large hvalue] at h
    cases h

end Stencil.Binary64
