import Stencil.Decimal.Basic

/-!
# Division of decimals

A quotient is developed digit by digit until it is exact or has one hundred significant digits,
its last digit is rounded, and the result is then brought to sixteen places with ties to the even
neighbour. The signs are put aside first, so that rounding is symmetric about zero.
-/

namespace Stencil.Decimal

/-- The number of significant digits that a quotient is developed to. -/
def quotientDigits : Nat := 100

/-- The number of places that division keeps. -/
def divisionScale : Int := 16

/-- How many zeros to append to `num` so that it is not below `den`. -/
def shiftUpTo (num den : Nat) : Nat :=
  if h : 0 < num ∧ num < den then shiftUpTo (num * 10) den + 1 else 0
termination_by den - num
decreasing_by omega

/-- Up to `count` further digits of the fraction `rest / den`, appended to `quotient`. The answer
holds the quotient, how many digits were appended, and what is still left of the fraction. -/
def developDigits (den : Nat) : (count quotient rest : Nat) → Nat × Nat × Nat
  | 0, quotient, rest => (quotient, 0, rest)
  | count + 1, quotient, rest =>
    if rest = 0 then (quotient, 0, 0)
    else
      let (final, appended, left) :=
        developDigits den count (quotient * 10 + rest * 10 / den) (rest * 10 % den)
      (final, appended + 1, left)

/-- The quotient of two positive naturals as digits and the number of them after the point. -/
def quotientOf (num den : Nat) : Nat × Nat :=
  let shift := shiftUpTo num den
  let num := num * Nat.pow 10 shift
  let whole := num / den
  let (quotient, appended, left) :=
    developDigits den (quotientDigits - (Numeral.ofNat whole).length) whole (num % den)
  (if 5 * den ≤ left * 10 then quotient + 1 else quotient, shift + appended)

def quotientSign (a b : Int) : Int := if (a < 0) = (b < 0) then 1 else -1

/-- The quotient to one hundred significant digits. The divisor is not zero. -/
def quotient (a b : Decimal) : Decimal :=
  if a.isZero || b.isOne then a
  else if a.unscaled = b.unscaled then ⟨1, a.scale - b.scale⟩
  else
    let (digits, places) := quotientOf a.unscaled.natAbs b.unscaled.natAbs
    ⟨signed (quotientSign a.unscaled b.unscaled) digits, a.scale - b.scale + places⟩

/-- A natural number without its last `count` digits, rounded to nearest with ties to even. -/
def roundDigits (n count : Nat) : Nat :=
  let unit := Nat.pow 10 count
  let twice := 2 * (n % unit)
  let low := n / unit
  if twice < unit then low
  else if unit < twice then low + 1
  else low + low % 2

/-- The number at another scale, rounded to nearest with ties to even. -/
def rounded (d : Decimal) (scale : Int) : Decimal :=
  if d.scale ≤ scale then d.withScale scale
  else
    let count := (d.scale - scale).toNat
    let digits := if d.unscaled.natAbs.log2 + 1 < count then 0 else roundDigits d.unscaled.natAbs count
    ⟨signed d.unscaled digits, scale⟩

/-- The quotient at sixteen places; none when the divisor is zero. -/
def divide? (a b : Decimal) : Option Decimal :=
  if b.isZero then none else some ((quotient a b).rounded divisionScale)

end Stencil.Decimal
