import Stencil.Binary64.Scientific
import Stencil.Proofs.Binary64.Printed

/-!
# Numerals with a point and an exponent

Main statement: the text of a float is read as that float, also where it is a zero with a sign. A
numeral is taken apart into the pieces that it is made of: its sign, the digits on both sides of the
point, and the power of ten.
-/

namespace Stencil
open Decimal Numeral

namespace Scientific

/-! ## Pieces -/

theorem splitSign_of_head? {t : Text} (h : ∀ c ∈ t.head?, c ≠ '-' ∧ c ≠ '+') :
    splitSign t = (false, t) := by
  rw [splitSign]
  · rintro t' rfl
    exact (h '-' rfl).1 rfl
  · rintro t' rfl
    exact (h '+' rfl).2 rfl

theorem splitSign_signText (negative : Bool) {t : Text} (h : ∀ c ∈ t.head?, c.isDigit = true) :
    splitSign (signText negative ++ t) = (negative, t) := by
  cases negative with
  | true => rfl
  | false => exact splitSign_of_head? fun c hc => not_sign_of_isDigit (h c hc)

theorem splitSign_digits {t : Text} (h : t.all Char.isDigit = true) : splitSign t = (false, t) :=
  splitSign_signText false fun c hc => List.all_eq_true.mp h c (List.mem_of_mem_head? hc)

theorem splitDigits_plain {digits rest : Text} (hdigits : digits.all Char.isDigit = true)
    (hrest : ∀ c ∈ rest.head?, c.isDigit = false ∧ c ≠ '.') :
    splitDigits (digits ++ rest) = (digits, [], rest) := by
  obtain ⟨htake, hdrop⟩ := takeWhile_digits_append hdigits fun c hc => (hrest c hc).1
  unfold splitDigits
  rw [htake, hdrop]
  split
  · next rest' => exact absurd rfl (hrest '.' rfl).2
  · rfl

theorem splitDigits_pointed {whole fraction rest : Text} (hwhole : whole.all Char.isDigit = true)
    (hfraction : fraction.all Char.isDigit = true) (hrest : ∀ c ∈ rest.head?, c.isDigit = false) :
    splitDigits (whole ++ '.' :: (fraction ++ rest)) = (whole, fraction, rest) := by
  have hpoint : ∀ c ∈ ('.' :: (fraction ++ rest)).head?, c.isDigit = false := by
    rintro c ⟨⟩
    rfl
  obtain ⟨htake, hdrop⟩ := takeWhile_digits_append hwhole hpoint
  obtain ⟨htake', hdrop'⟩ := takeWhile_digits_append hfraction hrest
  unfold splitDigits
  rw [htake, hdrop]
  change (whole, (fraction ++ rest).takeWhile Char.isDigit, _) = _
  rw [htake', hdrop']

/-- A power of ten goes on after the digits without being one of them. -/
theorem head?_of_tenPower? {t : Text} {power : ℤ} (h : tenPower? t = some power) :
    ∀ c ∈ t.head?, c.isDigit = false ∧ c ≠ '.' := by
  cases t with
  | nil => simp
  | cons c t =>
    rintro d ⟨⟩
    by_cases hmark : c = 'e' ∨ c = 'E'
    · rcases hmark with rfl | rfl
      · decide
      · decide
    · rw [tenPower?, if_neg hmark] at h
      cases h

/-! ## Numerals -/

theorem ofUnsigned?_mantissa {mantissa digits rest : Text} {places : ℕ} {power : ℤ}
    (h : Mantissa mantissa digits places) (hrest : tenPower? rest = some power) (negative : Bool) :
    ofUnsigned? negative (mantissa ++ rest) =
      some ⟨negative, Numeral.value digits, power - places⟩ := by
  have hhead := head?_of_tenPower? hrest
  unfold ofUnsigned?
  cases h with
  | plain hdigits =>
    obtain ⟨hne, hall⟩ := isDigits_iff.mp hdigits
    rw [splitDigits_plain hall hhead]
    simp [hne, hrest]
  | @pointed whole fraction hwhole hfraction =>
    obtain ⟨hne, hall⟩ := isDigits_iff.mp hwhole
    rw [List.append_assoc, List.cons_append, splitDigits_pointed hall (isDigits_iff.mp hfraction).2
      fun c hc => (hhead c hc).1]
    simp [hne, hrest]

end Scientific

namespace FloatReading

/-- A numeral is read as the nearest float, and as infinity where there is none. -/
theorem ofText?_numeral {t : Text} {s : Scientific} {negative : Bool}
    (hhead : ∀ c ∈ t.head?, c.isDigit = true)
    (h : Scientific.ofUnsigned? negative t = some s) :
    ofText? (signText negative ++ t) = some (s.toBinary64?.elim (.infinite negative) .finite) := by
  unfold ofText?
  rw [Scientific.splitSign_signText negative hhead]
  dsimp only
  rw [h]
  dsimp only
  split
  · next hfinite => rw [hfinite]; rfl
  · next hnone => rw [hnone]; rfl

theorem ofText?_ofNat (n : ℕ) :
    ofText? (ofNat n) = some ((Binary64.ofDecimal? false n 0).elim (.infinite false) .finite) := by
  have hhead : ∀ c ∈ (ofNat n).head?, c.isDigit = true := fun c hc =>
    List.all_eq_true.mp (all_isDigit_ofNat n) c (List.mem_of_mem_head? hc)
  have hread : Scientific.ofUnsigned? false (ofNat n) = some ⟨false, n, 0⟩ := by
    have hpower : Scientific.tenPower? [] = some 0 := rfl
    have h := Scientific.ofUnsigned?_mantissa (.plain (isDigits_ofNat n)) hpower false
    rwa [List.append_nil, value_ofNat, Nat.cast_zero, sub_zero] at h
  have h := ofText?_numeral hhead hread
  rwa [signText, if_neg Bool.false_ne_true, List.nil_append, Scientific.toBinary64?] at h

end FloatReading

namespace Binary64

variable {q : ℚ} {t : Text} {layout : Layout}

/-- The text of a float without its sign starts with a digit. -/
theorem FloatBody.head? (h : FloatBody q t) : ∀ c ∈ t.head?, c.isDigit = true := by
  have hdigits {u rest : Text} (hu : isDigits u = true) :
      ∀ c ∈ (u ++ rest).head?, c.isDigit = true := by
    obtain ⟨hne, hall⟩ := isDigits_iff.mp hu
    obtain ⟨d, u, rfl⟩ := List.exists_cons_of_ne_nil hne
    rintro c ⟨⟩
    exact List.all_eq_true.mp hall d List.mem_cons_self
  cases h with
  | positional hwhole => exact hdigits hwhole
  | exponential h =>
    cases h with
    | plain h => exact hdigits h
    | pointed hwhole =>
      rw [List.append_assoc]
      exact hdigits hwhole

/-- The digits and the power of ten in the text of a float make up its number. -/
theorem FloatBody.ofUnsigned? (h : FloatBody q t) :
    ∃ (n : ℕ) (e : ℤ), (n : ℚ) * 10 ^ e = q ∧
      ∀ negative, Scientific.ofUnsigned? negative t = some ⟨negative, n, e⟩ := by
  cases h with
  | positional hwhole hfraction hvalue =>
    refine ⟨_, _, hvalue, fun negative => ?_⟩
    have hpower : Scientific.tenPower? [] = some 0 := rfl
    have hread := Scientific.ofUnsigned?_mantissa (.pointed hwhole hfraction) hpower negative
    rwa [List.append_nil, zero_sub] at hread
  | @exponential mantissa digits exponent places power h hexponent _ hvalue =>
    refine ⟨_, _, hvalue, fun negative => ?_⟩
    have hpower : Scientific.tenPower? ('e' :: exponent) = some power := hexponent.toInt?_eq
    rw [neg_sub]
    exact Scientific.ofUnsigned?_mantissa h hpower negative

/-- The text of a float is read as that float. -/
theorem ofText?_print (hlayout : layout.exponentSign = [] ∨ layout.exponentSign = ['+'])
    (x : Binary64) : FloatReading.ofText? (x.print layout) = some (.finite x) := by
  obtain ⟨body, hbody, hprint⟩ := print_eq hlayout x
  obtain ⟨n, e, hvalue, hread⟩ := hbody.ofUnsigned?
  have hfloat : Scientific.toBinary64? ⟨x.negative, n, e⟩ = some x := by
    rw [Scientific.toBinary64?, ofDecimal?_congr hvalue]
    exact readsBack_iff.mp (readsBack_shortest x)
  rw [hprint, FloatReading.ofText?_numeral hbody.head? (hread x.negative), hfloat]
  rfl

end Binary64
end Stencil
