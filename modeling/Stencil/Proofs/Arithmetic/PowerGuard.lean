import Stencil.Arithmetic
import Stencil.Proofs.Decimal.Power

/-!
# The guard of powers

Main statement: the test before a power is sound in both directions. A power that it refuses is in
fact larger than the bound, and where it lets a power through, neither the power nor any product on
the way to it is larger than the square of the bound.
-/

namespace Stencil.Arithmetic
open Decimal
variable {base exponent : Decimal} {e : ℕ}

/-- The exponent is the integer part of the operand, and it has at most 32 bits. -/
theorem exponent?_eq_some_iff :
    exponent? exponent = some e ↔ towardZero exponent.value = e ∧ e < 4294967296 := by
  unfold exponent?
  dsimp only
  rw [truncate_eq]
  split
  · next h =>
    rw [Option.some_inj]
    omega
  · next h =>
    refine iff_of_false nofun ?_
    omega

/-- The bound of the guard is far below the largest number of a word. -/
theorem maxPowerBits_lt_wordMax : maxPowerBits < wordMax := by decide

theorem checkedExponent_of_integerPart (he : towardZero exponent.value = e)
    (hmost : e ≤ maxExponent) :
    checkedExponent base exponent =
      if maxPowerBits < base.leastPowerBits e then
        .error (.invalidArgument (.powerTooLarge base e))
      else .ok e := by
  have hfits : e < 4294967296 := Nat.lt_of_le_of_lt hmost (by decide)
  unfold checkedExponent
  rw [exponent?_eq_some_iff.mpr ⟨he, hfits⟩]
  exact if_neg (Nat.not_lt.mpr hmost)

/-- What the guard lets through. -/
theorem checkedExponent_eq_ok_iff :
    checkedExponent base exponent = .ok e ↔
      towardZero exponent.value = e ∧ e ≤ maxExponent ∧ base.leastPowerBits e ≤ maxPowerBits := by
  constructor
  · intro h
    unfold checkedExponent at h
    split at h
    · cases h
    · next n hn =>
      split at h
      · cases h
      · next hmost =>
        split at h
        · cases h
        · next hbits =>
          obtain rfl := Except.ok.inj h
          exact ⟨(exponent?_eq_some_iff.mp hn).1, Nat.not_lt.mp hmost, Nat.not_lt.mp hbits⟩
  · rintro ⟨he, hmost, hbits⟩
    rw [checkedExponent_of_integerPart he hmost, if_neg (Nat.not_lt.mpr hbits)]

/-- Every exponent up to the greatest is either refused for the size of its power, which is then too
large, or let through, and then all numbers that the power is computed from are bounded. -/
theorem checkedExponent_sound (base exponent : Decimal) (e : ℕ)
    (he : towardZero exponent.value = e) (hmost : e ≤ maxExponent) :
    (checkedExponent base exponent = .error (.invalidArgument (.powerTooLarge base e)) ∧
        2 ^ maxPowerBits < base.unscaled.natAbs ^ e) ∨
      (checkedExponent base exponent = .ok e ∧
        base.unscaled.natAbs ^ e ≤ 2 ^ (2 * maxPowerBits) ∧
        (∃ products, Squaring one base e products (base.power e)) ∧
        ∀ products p, Squaring one base e products p →
          p = base.power e ∧ ∀ q ∈ products, q.unscaled.natAbs ≤ 2 ^ (2 * maxPowerBits)) := by
  rw [checkedExponent_of_integerPart he hmost]
  split
  · next hbits => exact .inl ⟨rfl, lt_pow_of_leastPowerBits hbits⟩
  · next hbits =>
    have hle := Nat.not_lt.mp hbits
    refine .inr ⟨rfl, ?_, exists_squaring one base e, fun products p h => ⟨h.eq_powerOnto, ?_⟩⟩
    · exact natAbs_pow_le_of_leastPowerBits maxPowerBits_lt_wordMax hle
    · exact natAbs_le_of_leastPowerBits maxPowerBits_lt_wordMax hle h

/-- A negative fraction to the integer part of another fraction, with its products, and a number
whose power is refused. -/
theorem checkedExponent_sound_both :
    let products : List Decimal := [⟨-15, 1⟩, ⟨225, 2⟩, ⟨-3375, 3⟩]
    towardZero (value ⟨39, 1⟩) = (3 : ℕ) ∧ checkedExponent ⟨-15, 1⟩ ⟨39, 1⟩ = .ok 3 ∧
      Squaring one ⟨-15, 1⟩ 3 products ⟨-3375, 3⟩ ∧ power ⟨-15, 1⟩ 3 = ⟨-3375, 3⟩ ∧
      (∀ q ∈ products, q.unscaled.natAbs ≤ 2 ^ (2 * maxPowerBits)) ∧
      towardZero (value ⟨5000000, 0⟩) = (5000000 : ℕ) ∧
      checkedExponent ⟨7, 0⟩ ⟨5000000, 0⟩ =
        .error (.invalidArgument (.powerTooLarge ⟨7, 0⟩ 5000000)) ∧
      2 ^ maxPowerBits < 7 ^ 5000000 := by
  intro products
  have hthree : towardZero (value ⟨39, 1⟩) = (3 : ℕ) := by decide +kernel
  have haccepted : checkedExponent ⟨-15, 1⟩ ⟨39, 1⟩ = .ok 3 := by decide +kernel
  have hrun : Squaring one ⟨-15, 1⟩ 3 products ⟨-3375, 3⟩ := by
    have hfirst : one.mul ⟨-15, 1⟩ = ⟨-15, 1⟩ := by decide +kernel
    have hsquare : mul ⟨-15, 1⟩ ⟨-15, 1⟩ = ⟨225, 2⟩ := by decide +kernel
    have hlast : mul ⟨-15, 1⟩ ⟨225, 2⟩ = ⟨-3375, 3⟩ := by decide +kernel
    have h := Squaring.one one_pos (.first (one.mul ⟨-15, 1⟩) (mul ⟨-15, 1⟩ ⟨-15, 1⟩))
    rwa [hfirst, hsquare, hlast] at h
  have hlarge : towardZero (value ⟨5000000, 0⟩) = (5000000 : ℕ) := by decide +kernel
  have hrefused : checkedExponent ⟨7, 0⟩ ⟨5000000, 0⟩ =
      .error (.invalidArgument (.powerTooLarge ⟨7, 0⟩ 5000000)) := by decide +kernel
  have hbounded : power ⟨-15, 1⟩ 3 = ⟨-3375, 3⟩ ∧
      ∀ q ∈ products, q.unscaled.natAbs ≤ 2 ^ (2 * maxPowerBits) := by
    rcases checkedExponent_sound ⟨-15, 1⟩ ⟨39, 1⟩ 3 hthree (by decide) with
      ⟨h, -⟩ | ⟨-, -, -, h⟩
    · rw [haccepted] at h
      cases h
    · obtain ⟨hpower, hle⟩ := h _ _ hrun
      exact ⟨hpower.symm, hle⟩
  refine ⟨hthree, haccepted, hrun, hbounded.1, hbounded.2, hlarge, hrefused, ?_⟩
  rcases checkedExponent_sound ⟨7, 0⟩ ⟨5000000, 0⟩ 5000000 hlarge (by decide) with
    ⟨-, h⟩ | ⟨h, -⟩
  · exact h.trans_eq (congrArg (· ^ 5000000) (show Int.natAbs 7 = 7 from rfl))
  · rw [hrefused] at h
    cases h

end Stencil.Arithmetic
