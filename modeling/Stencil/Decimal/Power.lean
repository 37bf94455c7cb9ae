import Stencil.Decimal.Basic

/-!
# Powers of decimals

A power is computed by squaring, along the binary digits of the exponent. How long that takes and
how long the result is are bounded by a test on the base and the exponent alone.
-/

namespace Stencil.Decimal

def maxExponent : Nat := 999999999

/-- The bound on the bits of the unscaled integer of a power. -/
def maxPowerBits : Nat := Nat.pow 2 20

/-- The number of binary digits of a natural number; zero has none. -/
def bitLength (n : Nat) : Nat := if n = 0 then 0 else n.log2 + 1

/-- `result * square ^ exponent`, by squaring. -/
def powerOnto (result square : Decimal) (exponent : Nat) : Decimal :=
  if h : exponent = 0 then result
  else
    let result := if exponent % 2 = 1 then result.mul square else result
    let square := if exponent / 2 = 0 then square else square.mul square
    powerOnto result square (exponent / 2)
termination_by exponent
decreasing_by omega

def power (base : Decimal) (exponent : Nat) : Decimal := powerOnto one base exponent

/-- The largest number of a 64-bit word. -/
def wordMax : Nat := 18446744073709551615

/-- A lower bound on the bits of the unscaled integer of a power, as far as a word holds it. -/
def leastPowerBits (base : Decimal) (exponent : Nat) : Nat :=
  min wordMax ((bitLength base.unscaled.natAbs - 1) * exponent)

/-- The exponent that a decimal denotes: its integer part, when that fits 32 bits. -/
def exponent? (d : Decimal) : Option Nat :=
  let n := d.truncate
  if 0 ≤ n ∧ n < 4294967296 then some n.toNat else none

end Stencil.Decimal
