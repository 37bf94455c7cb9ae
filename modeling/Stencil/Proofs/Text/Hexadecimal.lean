import Stencil.Text.Hexadecimal

/-!
# Hexadecimal digits read back

The value of the first digits of a text does not depend on what follows them, and the digits of a
number have that number as their value.
-/

namespace Stencil.Hexadecimal

theorem digitValue?_digit : ∀ n < 16, digitValue? (digit n) = some n := by decide

theorem digitValue?_upperDigit : ∀ n < 16, digitValue? (upperDigit n) = some n := by decide

theorem take?_append {m k v : Nat} {s t : Text} {v' : Nat} (h : take? m v s = some (v', [])) :
    take? (m + k) v (s ++ t) = take? k v' t := by
  induction m generalizing v s with
  | zero =>
    obtain ⟨rfl, rfl⟩ : v = v' ∧ s = [] := by simpa [take?] using h
    rw [Nat.zero_add, List.nil_append]
  | succ m ih =>
    cases s with
    | nil => cases h
    | cons d s =>
      obtain ⟨n, hn, h⟩ := Option.bind_eq_some_iff.mp h
      rw [Nat.succ_add, List.cons_append, take?, hn]
      exact ih h

/-- Digits have the same value whatever follows them. -/
theorem take?_prefix {count v v' : Nat} {digits : Text} (h : take? count v digits = some (v', []))
    (t : Text) : take? count v (digits ++ t) = some (v', t) := take?_append (k := 0) h

theorem length_of_take? {count v v' : Nat} {digits : Text}
    (h : take? count v digits = some (v', [])) : digits.length = count := by
  induction count generalizing v digits with
  | zero =>
    obtain ⟨-, rfl⟩ : v = v' ∧ digits = [] := by simpa [take?] using h
    rfl
  | succ count ih =>
    cases digits with
    | nil => cases h
    | cons d digits =>
      obtain ⟨n, -, h⟩ := Option.bind_eq_some_iff.mp h
      rw [List.length_cons, ih h]

/-- What is read as a number is made of digits. -/
theorem forall_digit_of_take? {count v v' : Nat} {digits : Text}
    (h : take? count v digits = some (v', [])) : ∀ d ∈ digits, (digitValue? d).isSome = true := by
  induction count generalizing v digits with
  | zero =>
    obtain ⟨-, rfl⟩ : v = v' ∧ digits = [] := by simpa [take?] using h
    simp
  | succ count ih =>
    cases digits with
    | nil => cases h
    | cons d digits =>
      obtain ⟨n, hn, h⟩ := Option.bind_eq_some_iff.mp h
      exact List.forall_mem_cons.mpr ⟨by rw [hn]; rfl, ih h⟩

/-- The last digits of a number are read as the number modulo a power of sixteen. -/
theorem take?_upperDigits (count v n : Nat) :
    take? count v (upperDigits count n) =
      some (v * Nat.pow 16 count + n % Nat.pow 16 count, []) := by
  induction count generalizing n with
  | zero => simp [take?, upperDigits, Nat.mod_one]
  | succ count ih =>
    rw [upperDigits, take?_append (ih (n / 16)), take?,
      digitValue?_upperDigit (n % 16) (Nat.mod_lt n (by decide))]
    have hpow : Nat.pow 16 (count + 1) = 16 * Nat.pow 16 count := Nat.mul_comm _ 16
    simp only [Option.bind_eq_bind, Option.bind_some, take?]
    rw [hpow, Nat.mod_mul, Nat.mul_left_comm]
    congr 2
    omega

theorem length_upperDigits (count n : Nat) : (upperDigits count n).length = count := by
  induction count generalizing n with
  | zero => rfl
  | succ count ih => simp [upperDigits, ih]

end Stencil.Hexadecimal
