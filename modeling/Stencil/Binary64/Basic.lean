import Stencil.Text.Numeral

/-!
# Binary floating point numbers of 64 bits

A finite 64-bit float is a sign and a significand times a power of two, kept in the one form that
the format stores, so that equal floats are equal structures. Nothing here is approximate: a ratio
of naturals is rounded to the nearest float in exact arithmetic, ties to the even significand, and
a float is compared through the whole number of units `2 ^ -1074` that it is.
-/

namespace Stencil

/-- The significands and exponents that the format stores: 53 bits, and fewer only at the lowest
exponent. -/
def Binary64.Canonical (significand : Nat) (exponent : Int) : Prop :=
  significand < Nat.pow 2 53 ∧ -1074 ≤ exponent ∧ exponent ≤ 971 ∧
    (exponent = -1074 ∨ Nat.pow 2 52 ≤ significand)

instance (significand : Nat) (exponent : Int) :
    Decidable (Binary64.Canonical significand exponent) :=
  inferInstanceAs (Decidable (_ ∧ _))

/-- A finite 64-bit float: plus or minus `significand * 2 ^ exponent`. -/
structure Binary64 where
  negative : Bool
  significand : Nat
  exponent : Int
  canonical : Binary64.Canonical significand exponent
deriving DecidableEq, Repr

namespace Binary64

/-- The float with the given parts, when the format stores them. -/
def ofParts? (negative : Bool) (significand : Nat) (exponent : Int) : Option Binary64 :=
  if h : Canonical significand exponent then some ⟨negative, significand, exponent, h⟩ else none

def zero (negative : Bool) : Binary64 := ⟨negative, 0, -1074, by decide⟩

def isZero (x : Binary64) : Bool := x.significand == 0

/-- Whether the float has the full 53 bits of precision; zero and the smallest floats do not. -/
def isNormal (x : Binary64) : Bool := decide (Nat.pow 2 52 ≤ x.significand)

/-- The magnitude as a whole number of units `2 ^ -1074`. -/
def magnitude (x : Binary64) : Nat := x.significand * Nat.pow 2 (x.exponent + 1074).toNat

/-- The value as a whole number of units `2 ^ -1074`; both zeros are 0. -/
def units (x : Binary64) : Int := if x.negative then -(x.magnitude : Int) else x.magnitude

/-- The integer part: the value with its fraction dropped. -/
def truncate (x : Binary64) : Int := x.units.tdiv (Nat.pow 2 1074)

/-- The whole number nearest to `num / den`, a tie going to the even one. -/
def divNearestEven (num den : Nat) : Nat :=
  let quotient := num / den
  let twice := 2 * (num % den)
  if twice < den then quotient
  else if den < twice then quotient + 1
  else quotient + quotient % 2

/-- The exponent `e` with `2 ^ e ≤ num / den < 2 ^ (e + 1)`. -/
def floorLog2 (num den : Nat) : Int :=
  let e : Int := (num.log2 : Int) - den.log2
  if den * Nat.pow 2 e.toNat ≤ num * Nat.pow 2 (-e).toNat then e else e - 1

/-- The float nearest to `num / den`, ties to even; none above the largest float. -/
def nearest? (negative : Bool) (num den : Nat) : Option Binary64 :=
  if num = 0 then some (zero negative)
  else
    let e := max (-1074) (floorLog2 num den - 52)
    let significand := divNearestEven (num * Nat.pow 2 (-e).toNat) (den * Nat.pow 2 e.toNat)
    if significand = Nat.pow 2 53 then ofParts? negative (Nat.pow 2 52) (e + 1)
    else ofParts? negative significand e

/-- The float nearest to `digits * 10 ^ exponent`. Far outside the range of the format the answer
is settled without building the power of ten. -/
def ofDecimal? (negative : Bool) (digits : Nat) (exponent : Int) : Option Binary64 :=
  if digits = 0 then some (zero negative)
  else if 400 < exponent then none
  else if exponent < -((digits.log2 : Int) + 401) then some (zero negative)
  else nearest? negative (digits * Nat.pow 10 exponent.toNat) (Nat.pow 10 (-exponent).toNat)

def ofInt? (n : Int) : Option Binary64 := ofDecimal? (decide (n < 0)) n.natAbs 0

end Binary64
end Stencil
