import Mathlib.Algebra.Order.Field.Power
import Mathlib.Data.Int.Log
import Stencil.Proofs.Decimal.Rounding

/-!
# The nearest float

The float nearest to a ratio depends on the value of the ratio alone, so that the same number with
other digits and another power of ten gives the same float. The number that a float is gives that
float.
-/

namespace Stencil.Binary64

theorem two_zpow_pos (e : ℤ) : (0 : ℚ) < 2 ^ e := zpow_pos two_pos e

/-- A power with an exponent of either sign, as a ratio of natural numbers. -/
theorem cast_pow_ratio (b : ℕ) (hb : 0 < b) (e : ℤ) :
    ((b ^ e.toNat : ℕ) : ℚ) / (b ^ (-e).toNat : ℕ) = (b : ℚ) ^ e := by
  have hb' : (b : ℚ) ≠ 0 := Nat.cast_ne_zero.mpr (by omega)
  have hsplit : e = (e.toNat : ℤ) - (-e).toNat := by omega
  nth_rewrite 3 [hsplit]
  rw [zpow_sub₀ hb', zpow_natCast, zpow_natCast]
  push_cast
  rfl

theorem ratio_pos_iff {num den : ℕ} (hden : 0 < den) : 0 < (num : ℚ) / den ↔ 0 < num := by
  rw [div_pos_iff_of_pos_right (Nat.cast_pos.mpr hden), Nat.cast_pos]

/-! ## The leading digit -/

theorem log2_bounds {n : ℕ} (hn : 0 < n) :
    (2 : ℚ) ^ (n.log2 : ℤ) ≤ n ∧ (n : ℚ) < 2 ^ ((n.log2 : ℤ) + 1) := by
  constructor
  · rw [zpow_natCast]
    exact_mod_cast Nat.log2_self_le hn.ne'
  · rw [← Nat.cast_succ, zpow_natCast]
    exact_mod_cast Nat.lt_log2_self (n := n)

theorem ratio_bounds {num den : ℕ} (hnum : 0 < num) (hden : 0 < den) :
    (2 : ℚ) ^ ((num.log2 : ℤ) - den.log2 - 1) ≤ num / den ∧
      (num : ℚ) / den < 2 ^ ((num.log2 : ℤ) - den.log2 + 1) := by
  have htwo : (2 : ℚ) ≠ 0 := two_ne_zero
  have hden' : (0 : ℚ) < den := Nat.cast_pos.mpr hden
  obtain ⟨hnumLow, hnumHigh⟩ := log2_bounds hnum
  obtain ⟨hdenLow, hdenHigh⟩ := log2_bounds hden
  generalize (num.log2 : ℤ) = a at *
  generalize (den.log2 : ℤ) = b at *
  constructor
  · rw [le_div_iff₀ hden']
    calc (2 : ℚ) ^ (a - b - 1) * den ≤ 2 ^ (a - b - 1) * 2 ^ (b + 1) := by gcongr
      _ = 2 ^ a := by
        rw [← zpow_add₀ htwo]
        congr 1
        ring
      _ ≤ num := hnumLow
  · rw [div_lt_iff₀ hden']
    calc (num : ℚ) < 2 ^ (a + 1) := hnumHigh
      _ = 2 ^ (a - b + 1) * 2 ^ b := by
        rw [← zpow_add₀ htwo]
        congr 1
        ring
      _ ≤ 2 ^ (a - b + 1) * den := by gcongr

theorem pow_le_ratio_iff (num : ℕ) {den : ℕ} (hden : 0 < den) (e : ℤ) :
    den * Nat.pow 2 e.toNat ≤ num * Nat.pow 2 (-e).toNat ↔ (2 : ℚ) ^ e ≤ num / den := by
  have hden' : (0 : ℚ) < den := Nat.cast_pos.mpr hden
  have hratio := cast_pow_ratio 2 two_pos e
  rw [Nat.cast_ofNat] at hratio
  rw [← hratio, div_le_div_iff₀ (by positivity) hden', Nat.pow_eq, Nat.pow_eq, mul_comm den]
  norm_cast

theorem floorLog2_eq {num den : ℕ} (hnum : 0 < num) (hden : 0 < den) :
    floorLog2 num den = Int.log 2 ((num : ℚ) / den) := by
  have hquotient := (ratio_pos_iff hden).mpr hnum
  obtain ⟨hlow, hhigh⟩ := ratio_bounds hnum hden
  have hcompare := pow_le_ratio_iff num hden ((num.log2 : ℤ) - den.log2)
  unfold floorLog2
  dsimp only
  generalize (num.log2 : ℤ) - den.log2 = e at *
  have hupper := (Int.lt_zpow_iff_log_lt one_lt_two hquotient).mp hhigh
  have hlower := (Int.zpow_le_iff_le_log one_lt_two hquotient).mp hlow
  have hmiddle := Int.zpow_le_iff_le_log one_lt_two hquotient (x := e)
  rw [Nat.cast_ofNat] at hmiddle
  split
  · next h =>
    have hle := hmiddle.mp (hcompare.mp h)
    omega
  · next h =>
    have hlt := not_le.mp (mt hmiddle.mpr (mt hcompare.mpr h))
    omega

/-! ## The value decides -/

/-- The exponent of the last binary digit that is kept of a positive number. -/
def lastExponent (q : ℚ) : ℤ := max (-1074) (Int.log 2 q - 52)

/-- The nearest float comes from rounding the number, in units of its last binary digit. -/
theorem exists_significand {num den : ℕ} (hnum : 0 < num) (hden : 0 < den) (negative : Bool) :
    ∃ m : ℕ, NearestEven ((num : ℚ) / den * 2 ^ (-lastExponent (num / den))) m ∧
      nearest? negative num den =
        if m = 2 ^ 53 then ofParts? negative (2 ^ 52) (lastExponent (num / den) + 1)
        else ofParts? negative m (lastExponent (num / den)) := by
  have hexponent : max (-1074) (floorLog2 num den - 52) = lastExponent (num / den) := by
    rw [floorLog2_eq hnum hden, lastExponent]
  generalize lastExponent (num / den) = e at *
  refine ⟨divNearestEven (num * 2 ^ (-e).toNat) (den * 2 ^ e.toNat), ?_, ?_⟩
  · have hden' : 0 < den * 2 ^ e.toNat := by positivity
    have hrounded := nearestEven_divNearestEven (num * 2 ^ (-e).toNat) hden'
    have hratio := cast_pow_ratio 2 two_pos (-e)
    rw [neg_neg, Nat.cast_ofNat] at hratio
    rwa [Nat.cast_mul, Nat.cast_mul, mul_div_mul_comm, hratio] at hrounded
  · rw [nearest?, if_neg hnum.ne']
    dsimp only
    rw [hexponent]
    rfl

/-- Ratios of one value have one nearest float. -/
theorem nearest?_congr {num den num' den' : ℕ} (hden : 0 < den) (hden' : 0 < den')
    (h : (num : ℚ) / den = num' / den') (negative : Bool) :
    nearest? negative num den = nearest? negative num' den' := by
  have hpos : 0 < num ↔ 0 < num' := by rw [← ratio_pos_iff hden, h, ratio_pos_iff hden']
  rcases Nat.eq_zero_or_pos num with hnum | hnum
  · have hnum' : num' = 0 := by omega
    rw [hnum, hnum']
    rfl
  · have hnum' := hpos.mp hnum
    obtain ⟨m, hm, heq⟩ := exists_significand hnum hden negative
    obtain ⟨m', hm', heq'⟩ := exists_significand hnum' hden' negative
    rw [h] at hm heq
    obtain rfl : m = m' := by exact_mod_cast hm.unique hm'
    rw [heq, heq']

/-! ## Numbers that are floats -/

/-- The magnitude of a float as a rational number. -/
def size (x : Binary64) : ℚ := x.significand * 2 ^ x.exponent

theorem size_pos {x : Binary64} (hx : x.significand ≠ 0) : 0 < x.size :=
  mul_pos (Nat.cast_pos.mpr (Nat.pos_of_ne_zero hx)) (two_zpow_pos x.exponent)

theorem lastExponent_size {x : Binary64} (hx : x.significand ≠ 0) :
    lastExponent x.size = x.exponent := by
  have hcanonical := x.canonical
  unfold Canonical at hcanonical
  rw [Nat.pow_eq, Nat.pow_eq] at hcanonical
  obtain ⟨hlt, hleast, -, hnormal⟩ := hcanonical
  have hpos := size_pos hx
  have hupper : Int.log 2 x.size < x.exponent + 53 := by
    apply (Int.lt_zpow_iff_log_lt one_lt_two hpos).mp
    rw [size, Nat.cast_ofNat, zpow_add₀ two_ne_zero, mul_comm]
    gcongr
    exact_mod_cast hlt
  unfold lastExponent
  rcases hnormal with hexponent | hbig
  · omega
  · have hlower : x.exponent + 52 ≤ Int.log 2 x.size := by
      apply (Int.zpow_le_iff_le_log one_lt_two hpos).mp
      rw [size, Nat.cast_ofNat, zpow_add₀ two_ne_zero, mul_comm]
      gcongr
      exact_mod_cast hbig
    omega

theorem of_ofParts? {negative : Bool} {m : ℕ} {e : ℤ} {x : Binary64}
    (h : ofParts? negative m e = some x) : x.negative = negative ∧ x.size = m * 2 ^ e := by
  unfold ofParts? at h
  split at h
  · rw [← Option.some.inj h]
    exact ⟨rfl, rfl⟩
  · cases h

/-- The size of the nearest float is the rounded number of units. -/
theorem of_nearest? {num den : ℕ} (hnum : 0 < num) (hden : 0 < den) {negative : Bool}
    {x : Binary64} (h : nearest? negative num den = some x) :
    x.negative = negative ∧
      ∃ m : ℕ, NearestEven ((num : ℚ) / den * 2 ^ (-lastExponent (num / den))) m ∧
        x.size = m * 2 ^ lastExponent (num / den) := by
  obtain ⟨m, hm, heq⟩ := exists_significand hnum hden negative
  rw [heq] at h
  split at h
  · next hcarry =>
    obtain ⟨hsign, hsize⟩ := of_ofParts? h
    refine ⟨hsign, m, hm, ?_⟩
    rw [hsize, hcarry, zpow_add_one₀ two_ne_zero]
    push_cast
    ring
  · obtain ⟨hsign, hsize⟩ := of_ofParts? h
    exact ⟨hsign, m, hm, hsize⟩

/-- Rounding does not lead below a power of two that the number has reached. -/
theorem zpow_le_size {num den : ℕ} (hden : 0 < den) {negative : Bool} {x : Binary64}
    (h : nearest? negative num den = some x) {k : ℤ} (hk : -1074 ≤ k)
    (hle : (2 : ℚ) ^ k ≤ num / den) : (2 : ℚ) ^ k ≤ x.size := by
  have hpos : (0 : ℚ) < num / den := (two_zpow_pos k).trans_le hle
  obtain ⟨-, m, hm, hsize⟩ := of_nearest? ((ratio_pos_iff hden).mp hpos) hden h
  have hlog := (Int.zpow_le_iff_le_log one_lt_two hpos).mp hle
  have hleading : (2 : ℚ) ^ Int.log 2 ((num : ℚ) / den) ≤ num / den :=
    Int.zpow_log_le_self one_lt_two hpos
  have hlast : lastExponent (num / den) ≤ Int.log 2 ((num : ℚ) / den) := by
    unfold lastExponent
    omega
  generalize lastExponent (num / den) = e at *
  generalize Int.log 2 ((num : ℚ) / den) = leading at *
  -- The leading digit stands at or before the last one that is kept, so it is a number of units.
  obtain ⟨j, rfl⟩ : ∃ j : ℕ, leading = j + e := ⟨(leading - e).toNat, by omega⟩
  rw [zpow_add₀ two_ne_zero, zpow_natCast] at hleading
  have hunits : ((2 ^ j : ℤ) : ℚ) ≤ num / den * 2 ^ (-e) := by
    rw [zpow_neg, ← div_eq_mul_inv, le_div_iff₀ (two_zpow_pos e)]
    exact_mod_cast hleading
  have hm' : (2 : ℚ) ^ j ≤ m := by exact_mod_cast hm.nearest.le_of_le hunits
  calc (2 : ℚ) ^ k ≤ 2 ^ ((j : ℤ) + e) := zpow_le_zpow_right₀ one_le_two hlog
    _ = 2 ^ j * 2 ^ e := by rw [zpow_add₀ two_ne_zero, zpow_natCast]
    _ ≤ m * 2 ^ e := by gcongr
    _ = x.size := hsize.symm

/-- The magnitude of a float is read as that float. -/
theorem nearest?_of_size {x : Binary64} (hx : x.significand ≠ 0) {num den : ℕ} (hden : 0 < den)
    (h : (num : ℚ) / den = x.size) : nearest? x.negative num den = some x := by
  have hnum : 0 < num := by
    rw [← ratio_pos_iff hden, h]
    exact size_pos hx
  obtain ⟨m, hm, heq⟩ := exists_significand hnum hden x.negative
  rw [h, lastExponent_size hx] at hm heq
  rw [size, mul_assoc, ← zpow_add₀ two_ne_zero, add_neg_cancel, zpow_zero, mul_one] at hm
  have hm' : m = x.significand := by
    exact_mod_cast hm.unique (NearestEven.intCast x.significand)
  have hlt : x.significand < 2 ^ 53 := x.canonical.1
  rw [heq, hm', if_neg hlt.ne, ofParts?, dif_pos x.canonical]

/-- A number from `2 ^ 1024` on is too large for a float. -/
theorem nearest?_of_large {num den : ℕ} (hden : 0 < den) (h : (2 : ℚ) ^ (1024 : ℤ) ≤ num / den)
    (negative : Bool) : nearest? negative num den = none := by
  have hpos : (0 : ℚ) < num / den := (two_zpow_pos 1024).trans_le h
  have hnum := (ratio_pos_iff hden).mp hpos
  have hlog := (Int.zpow_le_iff_le_log one_lt_two hpos).mp h
  obtain ⟨m, -, heq⟩ := exists_significand hnum hden negative
  have hexponent : 971 < lastExponent (num / den) := by
    unfold lastExponent
    omega
  have hnone (significand : ℕ) {e : ℤ} (he : 971 < e) : ofParts? negative significand e = none :=
    dif_neg fun hcanonical => absurd hcanonical.2.2.1 (by omega)
  rw [heq, hnone _ hexponent, hnone _ (by omega), ite_self]

/-- A number below half of the smallest float is rounded to zero. -/
theorem nearest?_of_small {num den : ℕ} (hden : 0 < den) (h : (num : ℚ) / den < 2 ^ (-1075 : ℤ))
    (negative : Bool) : nearest? negative num den = some (zero negative) := by
  rcases Nat.eq_zero_or_pos num with rfl | hnum
  · rfl
  · have hpos := (ratio_pos_iff hden).mpr hnum
    have hlog := (Int.lt_zpow_iff_log_lt one_lt_two hpos).mp h
    have hexponent : lastExponent (num / den) = -1074 := by
      unfold lastExponent
      omega
    obtain ⟨m, hm, heq⟩ := exists_significand hnum hden negative
    rw [hexponent] at hm heq
    have hsmall : NearestEven ((num : ℚ) / den * 2 ^ (-(-1074 : ℤ))) (0 : ℤ) := by
      apply NearestEven.of_lt
      rw [Int.cast_zero, sub_zero, abs_of_pos (mul_pos hpos (two_zpow_pos _))]
      calc (num : ℚ) / den * 2 ^ (-(-1074 : ℤ)) < 2 ^ (-1075 : ℤ) * 2 ^ (-(-1074 : ℤ)) := by
            gcongr
        _ = 1 / 2 := by
          rw [← zpow_add₀ two_ne_zero]
          norm_num
    have hm' : m = 0 := by exact_mod_cast hm.unique hsmall
    rw [heq, hm']
    rfl

/-! ## The integer part -/

theorem cast_magnitude (x : Binary64) : (x.magnitude : ℚ) = x.size * Nat.pow 2 1074 := by
  have hleast : -1074 ≤ x.exponent := x.canonical.2.1
  obtain ⟨n, hn⟩ : ∃ n : ℕ, x.exponent = n - (1074 : ℕ) := ⟨(x.exponent + 1074).toNat, by omega⟩
  have hshift : (x.exponent + 1074).toNat = n := by omega
  rw [magnitude, size, hshift, hn, zpow_sub₀ two_ne_zero, zpow_natCast, zpow_natCast]
  generalize 1074 = k
  rw [Nat.pow_eq, Nat.pow_eq]
  push_cast
  rw [mul_assoc, div_mul_cancel₀ _ (by positivity)]

theorem truncate_of_significand {x : Binary64} (h : x.significand = 0) : x.truncate = 0 := by
  have hunits : x.units = 0 := by
    rw [units, magnitude, h, Nat.zero_mul, Nat.cast_zero, neg_zero, ite_self]
  rw [truncate, hunits, Int.zero_tdiv]

/-- Dropping the fraction does not lead below a natural number that a float has reached. -/
theorem le_truncate {x : Binary64} (hx : x.negative = false) {n : ℕ} (h : (n : ℚ) ≤ x.size) :
    (n : ℤ) ≤ x.truncate := by
  have hunit : 0 < Nat.pow 2 1074 := by
    generalize 1074 = k
    exact Nat.pow_pos two_pos
  have hmagnitude := cast_magnitude x
  have hunits : x.units = x.magnitude := by
    rw [units, hx]
    rfl
  rw [truncate, hunits, ← Int.ofNat_tdiv]
  generalize Nat.pow 2 1074 = unit at *
  apply Int.ofNat_le.mpr
  rw [Nat.le_div_iff_mul_le hunit]
  have hscaled : (n : ℚ) * unit ≤ x.magnitude := by
    rw [hmagnitude]
    gcongr
  exact_mod_cast hscaled

/-! ## Decimal digits -/

theorem beyond_largest : 2 ^ 1024 ≤ 10 ^ 400 := by decide +kernel

theorem beyond_smallest : 2 ^ 1075 < 10 ^ 400 := by decide +kernel

theorem pow_largest : (2 : ℚ) ^ (1024 : ℤ) ≤ 10 ^ (400 : ℤ) := by exact_mod_cast beyond_largest

theorem pow_smallest : (10 : ℚ) ^ (-400 : ℤ) < 2 ^ (-1075 : ℤ) := by
  rw [zpow_neg, zpow_neg]
  apply inv_strictAnti₀ (two_zpow_pos 1075)
  exact_mod_cast beyond_smallest

/-- Digits and a power of ten as a ratio of natural numbers. -/
theorem decimal_ratio (digits : ℕ) (exponent : ℤ) :
    ((digits * 10 ^ exponent.toNat : ℕ) : ℚ) / (10 ^ (-exponent).toNat : ℕ) =
      digits * 10 ^ exponent := by
  rw [Nat.cast_mul, mul_div_assoc, cast_pow_ratio 10 (by decide), Nat.cast_ofNat]

/-- Decimal digits stand for the nearest float to their value, however far out. -/
theorem ofDecimal?_eq (negative : Bool) (digits : ℕ) (exponent : ℤ) :
    ofDecimal? negative digits exponent =
      nearest? negative (digits * 10 ^ exponent.toNat) (10 ^ (-exponent).toNat) := by
  unfold ofDecimal?
  split
  · next hzero =>
    rw [hzero, Nat.zero_mul]
    rfl
  · next hdigits =>
    have hpos := Nat.pos_of_ne_zero hdigits
    split
    · next hlarge =>
      symm
      apply nearest?_of_large (by positivity)
      rw [decimal_ratio]
      have hone : (1 : ℚ) ≤ digits := by exact_mod_cast hpos
      calc (2 : ℚ) ^ (1024 : ℤ) ≤ 10 ^ (400 : ℤ) := pow_largest
        _ ≤ 10 ^ exponent := ten_zpow_le hlarge.le
        _ ≤ digits * 10 ^ exponent := le_mul_of_one_le_left (by positivity) hone
    · split
      · next hsmall =>
        symm
        apply nearest?_of_small (by positivity)
        rw [decimal_ratio]
        have hdigits' : (digits : ℚ) < 10 ^ ((digits.log2 : ℤ) + 1) := by
          refine (log2_bounds hpos).2.trans_le ?_
          rw [← Nat.cast_succ, zpow_natCast, zpow_natCast]
          exact pow_le_pow_left₀ (by norm_num) (by norm_num) _
        calc (digits : ℚ) * 10 ^ exponent < 10 ^ ((digits.log2 : ℤ) + 1) * 10 ^ exponent := by
              gcongr
          _ = 10 ^ ((digits.log2 : ℤ) + 1 + exponent) := (zpow_add₀ ten_ne_zero _ _).symm
          _ ≤ 10 ^ (-400 : ℤ) := ten_zpow_le (by omega)
          _ < 2 ^ (-1075 : ℤ) := pow_smallest
      · rfl

/-- Decimal digits of one value stand for one float. -/
theorem ofDecimal?_congr {digits digits' : ℕ} {exponent exponent' : ℤ}
    (h : (digits : ℚ) * 10 ^ exponent = digits' * 10 ^ exponent') (negative : Bool) :
    ofDecimal? negative digits exponent = ofDecimal? negative digits' exponent' := by
  rw [ofDecimal?_eq, ofDecimal?_eq]
  apply nearest?_congr (by positivity) (by positivity)
  rw [decimal_ratio, decimal_ratio, h]

/-- The integer part of the nearest float does not lead below a power of two either. -/
theorem pow_le_truncate {x : Binary64} {n k : ℕ} (h : ofDecimal? false n 0 = some x)
    (hk : 2 ^ k ≤ n) : 2 ^ k ≤ x.truncate := by
  have hpos : 0 < n := (Nat.two_pow_pos k).trans_le hk
  have hratio := decimal_ratio n 0
  rw [zpow_zero, mul_one] at hratio
  rw [ofDecimal?_eq] at h
  obtain ⟨hsign, -⟩ := of_nearest? (by positivity) (by positivity) h
  have hsize : (2 : ℚ) ^ (k : ℤ) ≤ x.size := by
    apply zpow_le_size (by positivity) h (by omega)
    rw [hratio, zpow_natCast]
    exact_mod_cast hk
  rw [zpow_natCast] at hsize
  exact_mod_cast le_truncate hsign (n := 2 ^ k) (by exact_mod_cast hsize)

theorem ofDecimal?_of_size {x : Binary64} (hx : x.significand ≠ 0) {digits : ℕ} {exponent : ℤ}
    (h : (digits : ℚ) * 10 ^ exponent = x.size) :
    ofDecimal? x.negative digits exponent = some x := by
  rw [ofDecimal?_eq]
  apply nearest?_of_size hx (by positivity)
  rw [decimal_ratio, h]

theorem ofDecimal?_of_large {digits : ℕ} {exponent : ℤ}
    (h : (10 : ℚ) ^ (400 : ℤ) ≤ digits * 10 ^ exponent) (negative : Bool) :
    ofDecimal? negative digits exponent = none := by
  rw [ofDecimal?_eq]
  apply nearest?_of_large (by positivity)
  rw [decimal_ratio]
  exact pow_largest.trans h

theorem ofDecimal?_of_small {digits : ℕ} {exponent : ℤ}
    (h : (digits : ℚ) * 10 ^ exponent ≤ 10 ^ (-400 : ℤ)) (negative : Bool) :
    ofDecimal? negative digits exponent = some (zero negative) := by
  rw [ofDecimal?_eq]
  apply nearest?_of_small (by positivity)
  rw [decimal_ratio]
  exact h.trans_lt pow_smallest

end Stencil.Binary64
