import Mathlib.Data.Nat.Notation
import Stencil.Proofs.Text.Numeral

/-!
# Numerals in lexicographic order

Main statement: numerals that are filled up with zeros to one width are ordered as texts as their
numbers are.
-/

namespace Stencil

/-- Texts that begin with pieces of one length are ordered by these pieces first. -/
theorem Text.append_lt_append_iff {t u t' u' : Text} (h : t.length = u.length) :
    t ++ t' < u ++ u' ↔ t < u ∨ t = u ∧ t' < u' := by
  induction t generalizing u with
  | nil =>
    obtain rfl := List.eq_nil_of_length_eq_zero h.symm
    simp
  | cons c t ih =>
    cases u with
    | nil => cases h
    | cons d u =>
      rw [List.cons_append, List.cons_append, List.cons_lt_cons_iff, List.cons_lt_cons_iff,
        ih (Nat.succ.inj h), List.cons.injEq, and_or_left, or_assoc, and_assoc]

namespace Numeral
variable {t u : Text} {m n width : ℕ}

theorem value_cons (d : Char) (t : Text) :
    value (d :: t) = 10 ^ t.length * (d.toNat - '0'.toNat) + value t := by
  rw [value, Nat.ofDigitChars_cons, Nat.mul_zero, Nat.zero_add,
    Nat.ofDigitChars_eq_ofDigitChars_zero]
  rfl

theorem value_lt (h : t.all Char.isDigit = true) : value t < 10 ^ t.length := by
  induction t with
  | nil => exact Nat.one_pos
  | cons d t ih =>
    obtain ⟨hd, ht⟩ := Bool.and_eq_true_iff.mp h
    have hdigit : d.toNat - '0'.toNat < 10 :=
      forall_isDigit (P := fun d => d.toNat - '0'.toNat < 10) (by decide) hd
    have hrest := ih ht
    calc value (d :: t)
        = 10 ^ t.length * (d.toNat - '0'.toNat) + value t := value_cons d t
      _ < 10 ^ t.length * (d.toNat - '0'.toNat + 1) := by rw [Nat.mul_succ]; omega
      _ ≤ 10 ^ t.length * 10 := Nat.mul_le_mul_left _ hdigit
      _ = 10 ^ (d :: t).length := (Nat.pow_succ ..).symm

/-- Digits are ordered as characters as their values are. -/
theorem digit_order {c d : Char} (hc : c.isDigit = true) (hd : d.isDigit = true) :
    (c < d ↔ c.toNat - '0'.toNat < d.toNat - '0'.toNat) ∧
      (c = d ↔ c.toNat - '0'.toNat = d.toNat - '0'.toNat) := by
  have hzero {c : Char} (hc : c.isDigit = true) : '0'.toNat ≤ c.toNat :=
    forall_isDigit (P := fun c => '0'.toNat ≤ c.toNat) (by decide) hc
  have hc' := hzero hc
  have hd' := hzero hd
  have hlt : c < d ↔ c.toNat < d.toNat := UInt32.lt_iff_toNat_lt
  have heq : c = d ↔ c.toNat = d.toNat := Char.toNat_inj.symm
  rw [hlt, heq]
  generalize '0'.toNat = code at hc' hd' ⊢
  omega

/-- A number in two digits of any base is ordered by its first digit first. -/
theorem mul_add_lt_iff {base a b v w : ℕ} (hv : v < base) (hw : w < base) :
    base * a + v < base * b + w ↔ a < b ∨ a = b ∧ v < w := by
  rcases Nat.lt_trichotomy a b with h | rfl | h
  · have hmul := Nat.mul_le_mul_left base h
    rw [Nat.mul_succ] at hmul
    omega
  · omega
  · have hmul := Nat.mul_le_mul_left base h
    rw [Nat.mul_succ] at hmul
    omega

/-- As many digits are ordered in writing as their values are. -/
theorem lt_iff_value_lt (ht : t.all Char.isDigit = true) (hu : u.all Char.isDigit = true)
    (hlength : t.length = u.length) : t < u ↔ value t < value u := by
  induction t generalizing u with
  | nil =>
    obtain rfl := List.eq_nil_of_length_eq_zero hlength.symm
    simp
  | cons c t ih =>
    cases u with
    | nil => cases hlength
    | cons d u =>
      obtain ⟨hc, ht⟩ := Bool.and_eq_true_iff.mp ht
      obtain ⟨hd, hu⟩ := Bool.and_eq_true_iff.mp hu
      have hlength := Nat.succ.inj hlength
      have ht' := value_lt ht
      have hu' := value_lt hu
      -- The digits behind the first ones are worth less than one of them.
      obtain ⟨hlt, heq⟩ := digit_order hc hd
      rw [← hlength] at hu'
      rw [List.cons_lt_cons_iff, ih ht hu hlength, hlt, heq, value_cons, value_cons, ← hlength,
        mul_add_lt_iff ht' hu']

theorem padStart_inj :
    Text.padStart width '0' (ofNat m) = Text.padStart width '0' (ofNat n) ↔ m = n := by
  constructor
  · intro h
    have hread := toNat?_padStart width m
    rw [h, toNat?_padStart] at hread
    exact (Option.some.inj hread).symm
  · rintro rfl
    rfl

theorem length_padStart_eq (hpos : 0 < width) (hm : m < 10 ^ width) (hn : n < 10 ^ width) :
    (Text.padStart width '0' (ofNat m)).length = (Text.padStart width '0' (ofNat n)).length := by
  rw [length_padStart '0' (length_ofNat_le hpos hm), length_padStart '0' (length_ofNat_le hpos hn)]

theorem padStart_lt_iff (hpos : 0 < width) (hm : m < 10 ^ width) (hn : n < 10 ^ width) :
    Text.padStart width '0' (ofNat m) < Text.padStart width '0' (ofNat n) ↔ m < n := by
  have hdigits (n : ℕ) : (Text.padStart width '0' (ofNat n)).all Char.isDigit = true :=
    (isDigits_iff.mp (isDigits_padStart width n)).2
  rw [lt_iff_value_lt (hdigits m) (hdigits n) (length_padStart_eq hpos hm hn), value_padStart,
    value_padStart]

/-- Numbers of one width are compared first, and what follows them only when they are equal. -/
theorem padStart_append_lt_iff (hpos : 0 < width) (hm : m < 10 ^ width) (hn : n < 10 ^ width)
    (t u : Text) :
    Text.padStart width '0' (ofNat m) ++ t < Text.padStart width '0' (ofNat n) ++ u ↔
      m < n ∨ m = n ∧ t < u := by
  rw [Text.append_lt_append_iff (length_padStart_eq hpos hm hn), padStart_lt_iff hpos hm hn,
    padStart_inj]

end Numeral
end Stencil
