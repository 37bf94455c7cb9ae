import Stencil.Text.Numeral

/-!
# Decimals

A decimal is an integer with a scale, the number of its digits that stand after the point. The
integer is unbounded and the scale may be negative, so sums and products are exact; only the scale
that a result carries is a convention, stated here operation by operation.
-/

namespace Stencil

/-- The number `unscaled / 10 ^ scale`. -/
structure Decimal where
  unscaled : Int
  scale : Int
deriving DecidableEq, Repr

namespace Decimal

def one : Decimal := ⟨1, 0⟩

/-- Whether the number is zero, at whatever scale. -/
def isZero (d : Decimal) : Bool := d.unscaled == 0

/-- The magnitude. -/
def abs (d : Decimal) : Decimal := ⟨d.unscaled.natAbs, d.scale⟩

/-- A natural number with `count` zeros appended; for zero no power of ten is built. -/
def appendZeros (n count : Nat) : Nat := if n = 0 then 0 else n * Nat.pow 10 count

@[simp] theorem appendZeros_eq (n count : Nat) : appendZeros n count = n * Nat.pow 10 count := by
  unfold appendZeros
  split <;> simp_all

/-- A natural number without its last `count` digits; when there are not so many no power of ten
is built. -/
def dropDigits (n count : Nat) : Nat := if n.log2 < count then 0 else n / Nat.pow 10 count

@[simp] theorem dropDigits_eq (n count : Nat) : dropDigits n count = n / Nat.pow 10 count := by
  unfold dropDigits
  split
  · next h =>
    have h₁ : n < 2 ^ count :=
      Nat.lt_of_lt_of_le Nat.lt_log2_self (Nat.pow_le_pow_right (by decide) h)
    have h₂ : 2 ^ count ≤ 10 ^ count := Nat.pow_le_pow_left (by decide) count
    exact (Nat.div_eq_of_lt (Nat.lt_of_lt_of_le h₁ h₂)).symm
  · rfl

def signed (sign : Int) (magnitude : Nat) : Int :=
  if sign < 0 then -(magnitude : Int) else magnitude

/-- The unscaled integer of the number at another scale: zeros are appended, and digits beyond the
scale are dropped. -/
def unscaledAt (d : Decimal) (scale : Int) : Int :=
  signed d.unscaled
    (if d.scale ≤ scale then appendZeros d.unscaled.natAbs (scale - d.scale).toNat
      else dropDigits d.unscaled.natAbs (d.scale - scale).toNat)

/-- The number at another scale, truncated toward zero. -/
def withScale (d : Decimal) (scale : Int) : Decimal := ⟨d.unscaledAt scale, scale⟩

/-- The integer part, toward zero. -/
def truncate (d : Decimal) : Int := d.unscaledAt 0

def isWhole (d : Decimal) : Bool :=
  decide (d.scale ≤ 0) || d.unscaled % Nat.pow 10 d.scale.toNat == 0

/-- How many zeros end the decimal numeral of a positive number. -/
def trailingZeros (n : Nat) : Nat :=
  if h : n ≠ 0 ∧ n % 10 = 0 then trailingZeros (n / 10) + 1 else 0
termination_by n
decreasing_by omega

/-- The number at the least scale that holds it; zero has scale 0. -/
def normalized (d : Decimal) : Decimal :=
  if d.isZero then ⟨0, 0⟩
  else
    let zeros := trailingZeros d.unscaled.natAbs
    ⟨signed d.unscaled (d.unscaled.natAbs / Nat.pow 10 zeros), d.scale - zeros⟩

/-- Whether the number is one, at whatever scale. -/
def isOne (d : Decimal) : Bool :=
  decide (0 ≤ d.scale ∧ d.scale ≤ d.unscaled.natAbs.log2) && d.unscaled == Nat.pow 10 d.scale.toNat

/-- A number added to zero gains at most this many places. -/
def zeroPlaces : Int := 15

/-- The sum of a number and a zero of the given scale. -/
def addZero (d : Decimal) (scale : Int) : Decimal :=
  d.withScale (d.scale + min (max (scale - d.scale) 0) zeroPlaces)

/-- The sum, at the larger of the two scales unless one number is zero. -/
def add (a b : Decimal) : Decimal :=
  if b.isZero then a.addZero b.scale
  else if a.isZero then b.addZero a.scale
  else
    let scale := max a.scale b.scale
    ⟨a.unscaledAt scale + b.unscaledAt scale, scale⟩

/-- The difference, at the larger of the two scales. -/
def sub (a b : Decimal) : Decimal :=
  let scale := max a.scale b.scale
  ⟨a.unscaledAt scale - b.unscaledAt scale, scale⟩

/-- The product. The scales add, except that a product with one is the normalized other factor. -/
def mul (a b : Decimal) : Decimal :=
  if a.isOne then b.normalized
  else if b.isOne then a.normalized
  else ⟨a.unscaled * b.unscaled, a.scale + b.scale⟩

/-- The remainder of the division towards zero, at the larger of the two scales. It has the sign of
the first number. -/
def remainder (a b : Decimal) : Decimal :=
  let scale := max a.scale b.scale
  ⟨(a.unscaledAt scale).tmod (b.unscaledAt scale), scale⟩

end Decimal
end Stencil
