import Stencil.Decimal.Power
import Stencil.Proofs.Decimal.Value

/-!
# Powers by squaring

Main statements: a power of a decimal has the power of its value, which is what multiplying by the
base again and again gives, and no product on the way to it has a larger unscaled integer than the
power of the unscaled integer is. That power is bounded from both sides by the number of binary
digits of the base.
-/

namespace Stencil.Decimal

/-! ## Runs -/

/-- A run of the squaring from the product so far and the square at hand, along the binary digits of
the exponent from the last one on: the products that it forms, in order, and the power. After the
first digit the square is not needed any more. -/
inductive Squaring : (result square : Decimal) → (exponent : ℕ) → (products : List Decimal) →
    (power : Decimal) → Prop
  | done (r s : Decimal) : Squaring r s 0 [] r
  | first (r s : Decimal) : Squaring r s 1 [r.mul s] (r.mul s)
  | one {r s p : Decimal} {n : ℕ} {products : List Decimal} (hn : 0 < n)
      (h : Squaring (r.mul s) (s.mul s) n products p) :
      Squaring r s (2 * n + 1) (r.mul s :: s.mul s :: products) p
  | zero {r s p : Decimal} {n : ℕ} {products : List Decimal} (hn : 0 < n)
      (h : Squaring r (s.mul s) n products p) :
      Squaring r s (2 * n) (s.mul s :: products) p

theorem powerOnto_done (r s : Decimal) : powerOnto r s 0 = r := by
  rw [powerOnto, dif_pos rfl]

theorem powerOnto_first (r s : Decimal) : powerOnto r s 1 = r.mul s := by
  rw [powerOnto, dif_neg Nat.one_ne_zero]
  exact powerOnto_done _ _

section
variable {n : ℕ} (hn : 0 < n) (r s : Decimal)
include hn

theorem powerOnto_one : powerOnto r s (2 * n + 1) = powerOnto (r.mul s) (s.mul s) n := by
  have hhalf : (2 * n + 1) / 2 = n := by omega
  have hdigit : (2 * n + 1) % 2 = 1 := by omega
  rw [powerOnto, dif_neg (by omega), hhalf]
  simp only [if_pos hdigit, if_neg hn.ne']

theorem powerOnto_zero : powerOnto r s (2 * n) = powerOnto r (s.mul s) n := by
  have hhalf : 2 * n / 2 = n := by omega
  have hdigit : ¬2 * n % 2 = 1 := by omega
  rw [powerOnto, dif_neg (by omega), hhalf]
  simp only [if_neg hdigit, if_neg hn.ne']

end

theorem exists_squaring (r s : Decimal) (n : ℕ) :
    ∃ products, Squaring r s n products (powerOnto r s n) := by
  induction n using Nat.strongRecOn generalizing r s with
  | ind n ih =>
    rcases Nat.eq_zero_or_pos (n / 2) with hhalf | hpos
    · have hdigit : n = 0 ∨ n = 1 := by omega
      rcases hdigit with rfl | rfl
      · rw [powerOnto_done]
        exact ⟨_, .done r s⟩
      · rw [powerOnto_first]
        exact ⟨_, .first r s⟩
    · have hlt : n / 2 < n := by omega
      have hdigit : n = 2 * (n / 2) ∨ n = 2 * (n / 2) + 1 := by omega
      rcases hdigit with hn | hn
      · obtain ⟨products, h⟩ := ih (n / 2) hlt r (s.mul s)
        rw [hn, powerOnto_zero hpos]
        exact ⟨_, .zero hpos h⟩
      · obtain ⟨products, h⟩ := ih (n / 2) hlt (r.mul s) (s.mul s)
        rw [hn, powerOnto_one hpos]
        exact ⟨_, .one hpos h⟩

section
variable {r s p base : Decimal} {n : ℕ} {products : List Decimal}

theorem Squaring.eq_powerOnto (h : Squaring r s n products p) : p = powerOnto r s n := by
  induction h with
  | done r s => exact (powerOnto_done r s).symm
  | first r s => exact (powerOnto_first r s).symm
  | one hn _ ih => rw [ih, powerOnto_one hn]
  | zero hn _ ih => rw [ih, powerOnto_zero hn]

/-! ## Values -/

/-- Each digit of the exponent keeps what is still to be multiplied. -/
theorem Squaring.value (h : Squaring r s n products p) : p.value = r.value * s.value ^ n := by
  induction h with
  | done r s => rw [pow_zero, mul_one]
  | first r s => rw [pow_one, value_mul]
  | one _ _ ih =>
    rw [ih, value_mul, value_mul, ← sq, ← pow_mul, pow_succ, mul_assoc, mul_comm _ (_ ^ _)]
  | zero _ _ ih => rw [ih, value_mul, ← sq, ← pow_mul]

theorem value_one : one.value = 1 := by
  simp [Decimal.value, one]

/-- Powers are exact. -/
theorem value_power (base : Decimal) (n : ℕ) : (base.power n).value = base.value ^ n := by
  obtain ⟨products, h⟩ := exists_squaring one base n
  rw [power, h.value, value_one, one_mul]

theorem value_power_add (base : Decimal) (m n : ℕ) :
    (base.power (m + n)).value = ((base.power m).mul (base.power n)).value := by
  rw [value_mul, value_power, value_power, value_power, pow_add]

/-- A decimal multiplied by itself, one factor after the other. -/
def repeated (base : Decimal) : ℕ → Decimal
  | 0 => one
  | n + 1 => (repeated base n).mul base

theorem value_repeated (base : Decimal) (n : ℕ) : (base.repeated n).value = base.value ^ n := by
  induction n with
  | zero => rw [repeated, value_one, pow_zero]
  | succ n ih => rw [repeated, value_mul, ih, pow_succ]

/-- Squaring leads to the same value as multiplying by the base as often as the exponent says, also
for zero and for the exponent zero, so that exponents add where powers are multiplied. -/
theorem power_by_repetition (base : Decimal) :
    (∀ n, (base.power n).value = (base.repeated n).value ∧ (base.power n).value = base.value ^ n) ∧
      (base.power 0).value = 1 ∧
      ∀ m n, (base.power (m + n)).value = ((base.power m).mul (base.power n)).value ∧
        (base.power (m + n)).value = (base.power m).value * (base.power n).value := by
  refine ⟨fun n => ⟨?_, value_power base n⟩, ?_, fun m n => ?_⟩
  · rw [value_power, value_repeated]
  · rw [value_power, pow_zero]
  · have hadd := value_power_add base m n
    exact ⟨hadd, hadd.trans (value_mul _ _)⟩

/-! ## Sizes -/

theorem natAbs_signed (u : ℤ) (m : ℕ) : (signed u m).natAbs = m := by
  unfold signed
  split
  · rw [Int.natAbs_neg, Int.natAbs_natCast]
  · rw [Int.natAbs_natCast]

theorem natAbs_normalized_le (d : Decimal) :
    d.normalized.unscaled.natAbs ≤ d.unscaled.natAbs := by
  unfold normalized
  split
  · exact Nat.zero_le _
  · dsimp only
    rw [natAbs_signed]
    exact Nat.div_le_self _ _

theorem natAbs_pos_of_isOne {d : Decimal} (h : d.isOne = true) : 0 < d.unscaled.natAbs := by
  apply Int.natAbs_pos.mpr
  intro hzero
  have hvalue := value_of_isOne h
  rw [Decimal.value, hzero, Int.cast_zero, zero_mul] at hvalue
  exact zero_ne_one hvalue

/-- A product with one drops zeros at most. -/
theorem natAbs_mul_le (a b : Decimal) :
    (a.mul b).unscaled.natAbs ≤ a.unscaled.natAbs * b.unscaled.natAbs := by
  unfold mul
  split
  · next h =>
    exact (natAbs_normalized_le b).trans (Nat.le_mul_of_pos_left _ (natAbs_pos_of_isOne h))
  · split
    · next h =>
      exact (natAbs_normalized_le a).trans (Nat.le_mul_of_pos_right _ (natAbs_pos_of_isOne h))
    · exact (Int.natAbs_mul a.unscaled b.unscaled).le

/-- No product is larger than what the run leads to, for any bounds that its start is within. -/
theorem Squaring.natAbs_le (h : Squaring r s n products p) {a b : ℕ} (ha : 0 < a) (hb : 0 < b)
    (hr : r.unscaled.natAbs ≤ a) (hs : s.unscaled.natAbs ≤ b) :
    ∀ q ∈ products, q.unscaled.natAbs ≤ a * b ^ n := by
  have hproduct {r s : Decimal} {a b : ℕ} (hr : r.unscaled.natAbs ≤ a)
      (hs : s.unscaled.natAbs ≤ b) : (r.mul s).unscaled.natAbs ≤ a * b :=
    (natAbs_mul_le r s).trans (Nat.mul_le_mul hr hs)
  induction h generalizing a b with
  | done r s => exact fun q hq => nomatch hq
  | first r s =>
    intro q hq
    rw [List.mem_singleton.mp hq, pow_one]
    exact hproduct hr hs
  | @one r s p n products hn _ ih =>
    have hlater : a * b * (b * b) ^ n = a * b ^ (2 * n + 1) := by ring
    intro q hq
    rw [← hlater]
    rcases List.mem_cons.mp hq with rfl | hq
    · exact (hproduct hr hs).trans (Nat.le_mul_of_pos_right _ (by positivity))
    · rcases List.mem_cons.mp hq with rfl | hq
      · calc (s.mul s).unscaled.natAbs ≤ b * b := hproduct hs hs
          _ ≤ (b * b) ^ n := Nat.le_self_pow hn.ne' _
          _ ≤ a * b * (b * b) ^ n := Nat.le_mul_of_pos_left _ (by positivity)
      · exact ih (by positivity) (by positivity) (hproduct hr hs) (hproduct hs hs) q hq
  | @zero r s p n products hn _ ih =>
    have hlater : a * (b * b) ^ n = a * b ^ (2 * n) := by ring
    intro q hq
    rw [← hlater]
    rcases List.mem_cons.mp hq with rfl | hq
    · calc (s.mul s).unscaled.natAbs ≤ b * b := hproduct hs hs
        _ ≤ (b * b) ^ n := Nat.le_self_pow hn.ne' _
        _ ≤ a * (b * b) ^ n := Nat.le_mul_of_pos_left _ ha
    · exact ih ha (by positivity) hr (hproduct hs hs) q hq

/-! ## Binary digits -/

theorem pow_bitLength_le {u : ℕ} (hu : u ≠ 0) : 2 ^ (bitLength u - 1) ≤ u := by
  rw [bitLength, if_neg hu, Nat.add_sub_cancel]
  exact Nat.log2_self_le hu

/-- Twice as many binary digits as follow the first one are enough for a number. -/
theorem max_one_le_pow_bitLength (u : ℕ) : max 1 u ≤ 2 ^ (2 * (bitLength u - 1)) := by
  have hone : 1 ≤ 2 ^ (2 * (bitLength u - 1)) := Nat.one_le_two_pow
  apply max_le hone
  by_cases hu : u ≤ 1
  · exact hu.trans hone
  · have hlog : 1 ≤ u.log2 := (Nat.le_log2 (by omega)).mpr (by omega)
    rw [bitLength, if_neg (by omega), Nat.add_sub_cancel]
    calc u ≤ 2 ^ (u.log2 + 1) := Nat.lt_log2_self.le
      _ ≤ 2 ^ (2 * u.log2) := Nat.pow_le_pow_right two_pos (by omega)

section
variable {e bits : ℕ}

/-- A power with too many binary digits is as large as they say. -/
theorem lt_pow_of_leastPowerBits (h : bits < base.leastPowerBits e) :
    2 ^ bits < base.unscaled.natAbs ^ e := by
  obtain ⟨-, h⟩ := lt_min_iff.mp h
  have hu : base.unscaled.natAbs ≠ 0 := by
    intro hzero
    rw [hzero, bitLength, if_pos rfl, Nat.zero_sub, Nat.zero_mul] at h
    exact absurd h (Nat.not_lt_zero _)
  calc 2 ^ bits < 2 ^ ((bitLength base.unscaled.natAbs - 1) * e) :=
        Nat.pow_lt_pow_right one_lt_two h
    _ = (2 ^ (bitLength base.unscaled.natAbs - 1)) ^ e := pow_mul _ _ _
    _ ≤ base.unscaled.natAbs ^ e := Nat.pow_le_pow_left (pow_bitLength_le hu) e

variable (hbits : bits < wordMax) (h : base.leastPowerBits e ≤ bits)
include hbits h

/-- A number of bits within a bound that a word holds is not cut off by the word. -/
theorem pow_le_of_leastPowerBits : max 1 base.unscaled.natAbs ^ e ≤ 2 ^ (2 * bits) := by
  have hle := (min_le_iff.mp h).resolve_left (not_le.mpr hbits)
  calc max 1 base.unscaled.natAbs ^ e ≤ (2 ^ (2 * (bitLength base.unscaled.natAbs - 1))) ^ e :=
        Nat.pow_le_pow_left (max_one_le_pow_bitLength _) e
    _ = 2 ^ (2 * ((bitLength base.unscaled.natAbs - 1) * e)) := by rw [← pow_mul, mul_assoc]
    _ ≤ 2 ^ (2 * bits) := Nat.pow_le_pow_right two_pos (by omega)

theorem natAbs_pow_le_of_leastPowerBits : base.unscaled.natAbs ^ e ≤ 2 ^ (2 * bits) :=
  (Nat.pow_le_pow_left (le_max_right _ _) e).trans (pow_le_of_leastPowerBits hbits h)

/-- All products of a power whose base has few enough binary digits are bounded. -/
theorem natAbs_le_of_leastPowerBits (hrun : Squaring one base e products p) :
    ∀ q ∈ products, q.unscaled.natAbs ≤ 2 ^ (2 * bits) := by
  intro q hq
  have hle := hrun.natAbs_le one_pos (b := max 1 base.unscaled.natAbs) (by omega) (by decide)
    (le_max_right _ _) q hq
  rw [one_mul] at hle
  exact hle.trans (pow_le_of_leastPowerBits hbits h)

end
end

end Stencil.Decimal
