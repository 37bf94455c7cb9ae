import Stencil.Calendar.Timestamp
import Stencil.Proofs.Binary64.Scientific

/-!
# Timestamps as numbers and as texts

Main statement: the text of a number names the timestamp that the number itself names, beyond the
range of timestamps too. The exceptions are the zeros that are floats: as numbers they name the
present, as texts the start of 1970.
-/

namespace Stencil

/-! ## Texts of numbers -/

namespace Json

/-- An exponent that is not negative has a plus sign. -/
theorem floatLayout_sign :
    floatLayout.exponentSign = [] ∨ floatLayout.exponentSign = ['+'] := .inr rfl

/-- What can stand in the text of a number. -/
theorem forall_mem_printNumber {n : Number} {c : Char} (hc : c ∈ printNumber n) :
    c = '.' ∨ c = 'e' ∨ c = '-' ∨ c = '+' ∨ c.isDigit = true := by
  cases n with
  | integer n _ => exact .inr (.inr ((Numeral.signedDigits_ofInt n).forall_mem hc))
  | float x => exact Binary64.forall_mem_print floatLayout_sign hc

theorem trim_printNumber (n : Number) : Text.trim (printNumber n) = printNumber n :=
  Text.trim_eq_self fun _ hc => Numeral.forall_numeral_char
    (P := fun c => Text.isBlank c = false) (by decide) (forall_mem_printNumber hc)

theorem not_mem_printNumber (n : Number) : 'n' ∉ printNumber n := fun hc =>
  Numeral.forall_numeral_char (P := fun c => c ≠ 'n') (by decide) (forall_mem_printNumber hc) rfl

end Json

namespace Calendar
open Numeral

/-! ## Timestamps from numerals -/

theorem afterPrefix?_now {t : Text} (h : 'n' ∉ t) : Text.afterPrefix? ['n', 'o', 'w'] t = none := by
  cases hperiods : Text.afterPrefix? ['n', 'o', 'w'] t with
  | none => rfl
  | some periods =>
    rw [Text.eq_append_of_afterPrefix? hperiods] at h
    exact absurd List.mem_cons_self h

section
variable {t : Text} (hempty : t ≠ []) (hzero : t ≠ ['0']) (hnow : 'n' ∉ t) (now : ℤ)
include hempty hzero hnow

theorem resolveText_signed {millis : ℤ} (h : toSigned? t = some millis) :
    resolveText t now = .ok millis := by
  rw [resolveText, if_neg (not_or.mpr ⟨hempty, hzero⟩), afterPrefix?_now hnow]
  dsimp only
  rw [h]

theorem resolveText_reading {reading : FloatReading} (h : toSigned? t = none)
    (hread : FloatReading.ofText? t = some reading) :
    resolveText t now = .ok reading.toSigned := by
  rw [resolveText, if_neg (not_or.mpr ⟨hempty, hzero⟩), afterPrefix?_now hnow]
  dsimp only
  rw [h]
  dsimp only
  rw [hread]

end

/-- An integer after the last timestamp is read as a float, which leads to the last timestamp. -/
theorem toSigned_of_large {n : ℕ} (h : 9223372036854775807 < n) :
    ∃ reading, FloatReading.ofText? (ofNat n) = some reading ∧
      reading.toSigned = 9223372036854775807 := by
  refine ⟨_, FloatReading.ofText?_ofNat n, ?_⟩
  cases hfloat : Binary64.ofDecimal? false n 0 with
  | none => rfl
  | some x =>
    have htruncate : 2 ^ 63 ≤ x.truncate := Binary64.pow_le_truncate hfloat h
    exact clampSigned_of_ge (by omega)

theorem resolveText_ofInt {n : ℤ} (hn : Number.Exact n) (now : ℤ) :
    resolveText (ofInt n) now = .ok (if n = 0 then now else clampSigned n) := by
  by_cases hzero : n = 0
  · rw [hzero]
    rfl
  · rw [if_neg hzero]
    have hread := toInt?_ofInt n
    have hempty : ofInt n ≠ [] := by
      intro h
      rw [h] at hread
      cases hread
    have hzero' : ofInt n ≠ ['0'] := by
      intro h
      rw [h] at hread
      exact hzero (Option.some.inj hread).symm
    have hnow : 'n' ∉ ofInt n := Json.not_mem_printNumber (.integer n hn)
    have hsigned := toSigned?_ofInt n
    by_cases hfits : FitsSigned n
    · rw [if_pos hfits] at hsigned
      rw [clampSigned_of_fits hfits]
      exact resolveText_signed hempty hzero' hnow now hsigned
    · rw [if_neg hfits] at hsigned
      have hlarge : 9223372036854775807 < n := by
        unfold FitsSigned at hfits
        unfold Number.Exact at hn
        omega
      obtain ⟨m, rfl⟩ := Int.eq_ofNat_of_zero_le (by omega : 0 ≤ n)
      obtain ⟨reading, hfloat, hmost⟩ := toSigned_of_large (Int.ofNat_lt.mp hlarge)
      rw [clampSigned_of_ge hlarge.le, ← hmost]
      exact resolveText_reading hempty hzero' hnow now hsigned hfloat

theorem resolveText_float (x : Binary64) (now : ℤ) :
    resolveText (x.print Json.floatLayout) now = .ok (clampSigned x.truncate) := by
  have hmark := Binary64.point_or_power Json.floatLayout_sign x
  have hempty : x.print Json.floatLayout ≠ [] := by
    intro h
    rw [h] at hmark
    revert hmark
    decide
  have hzero : x.print Json.floatLayout ≠ ['0'] := by
    intro h
    rw [h] at hmark
    revert hmark
    decide
  have hnow : 'n' ∉ x.print Json.floatLayout := Json.not_mem_printNumber (.float x)
  have hsigned : toSigned? (x.print Json.floatLayout) = none := by
    rw [toSigned?, toInt?_of_mem hmark]
    rfl
  exact resolveText_reading hempty hzero hnow now hsigned
    (Binary64.ofText?_print Json.floatLayout_sign x)

/-! ## Numbers -/

/-- The zeros that are floats. -/
def isFloatZero : Number → Bool
  | .integer _ _ => false
  | .float x => x.isZero

theorem isFloatZero_float (x : Binary64) : isFloatZero (.float x) = x.isZero := rfl

theorem isZero_of_isFloatZero {n : Number} (h : isFloatZero n = true) : n.isZero = true := by
  cases n with
  | integer n hn => cases h
  | float x => exact h

theorem resolve_number (n : Number) (now : ℤ) :
    resolve (some (.number n)) now = .ok (if n.isZero then now else n.toSigned) := rfl

theorem resolve_printNumber (n : Number) (now : ℤ) :
    resolve (some (.string (Json.printNumber n))) now =
      if isFloatZero n then .ok 0 else resolve (some (.number n)) now := by
  have htext : resolve (some (.string (Json.printNumber n))) now =
      resolveText (Json.printNumber n) now := by
    rw [resolve, Json.trim_printNumber]
  rw [htext, resolve_number]
  cases n with
  | integer n hn =>
    have hzero : Number.isZero (.integer n hn) = decide (n = 0) := rfl
    rw [Json.printNumber, resolveText_ofInt hn, isFloatZero, hzero, Number.toSigned]
    simp
  | float x =>
    rw [Json.printNumber, resolveText_float, isFloatZero_float, Number.isZero, Number.toSigned]
    cases hx : x.isZero with
    | true =>
      rw [Binary64.truncate_of_significand (Binary64.isZero_iff.mp hx)]
      rfl
    | false => rfl

/-- The text of a number names the timestamp that the number names, except for the floats that are
zero, whose text names the start of 1970. -/
theorem resolve_number_text (n : Number) (now : ℤ) :
    resolve (some (.string (Json.text (.number n)))) now =
        (if isFloatZero n then .ok 0 else resolve (some (.number n)) now) ∧
      (resolve (some (.number n)) now = resolve (some (.string (Json.text (.number n)))) now ↔
        isFloatZero n = false ∨ now = 0) := by
  have htext : Json.text (.number n) = Json.printNumber n := rfl
  have hresolve := resolve_printNumber n now
  rw [htext]
  refine ⟨hresolve, ?_⟩
  rw [hresolve]
  cases hzero : isFloatZero n with
  | false => exact iff_of_true rfl (.inl rfl)
  | true =>
    rw [resolve_number, if_pos (isZero_of_isFloatZero hzero), if_pos rfl]
    simp

/-- The number `0.0` names the present, and its text the start of 1970. -/
theorem resolve_zero_text :
    let n := Json.number (.float (Binary64.zero false))
    n.text = "0.0".toList ∧ resolve (some n) 1706702400000 = .ok 1706702400000 ∧
      resolve (some (.string n.text)) 1706702400000 = .ok 0 := by
  decide +kernel

end Calendar
end Stencil
