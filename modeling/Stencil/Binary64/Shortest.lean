import Stencil.Binary64.Basic

/-!
# The shortest decimal text of a float

A float is written with the fewest significant digits that read back as the same float, and among
those with the digits nearest to its value. The digits are chosen by reading candidates back, so
that the choice is right by construction; `Layout` then holds what differs between formats, which
is only where positional notation ends and how an exponent is marked.
-/

namespace Stencil.Binary64

/-- Decimal digits and a power of ten: the number `digits * 10 ^ exponent`. -/
structure Digits where
  digits : Nat
  exponent : Int
deriving DecidableEq, Repr

/-- The magnitude of a float as a ratio of naturals. -/
def ratio (x : Binary64) : Nat × Nat :=
  (x.significand * Nat.pow 2 x.exponent.toNat, Nat.pow 2 (-x.exponent).toNat)

/-- The exponent `p` with `10 ^ p ≤ num / den < 10 ^ (p + 1)`, for a positive ratio. -/
def floorLog10 (num den : Nat) : Int :=
  if den ≤ num then ((Numeral.ofNat (num / den)).length : Int) - 1
  else -((Numeral.ofNat ((den + num - 1) / num - 1)).length : Int)

/-- Whether the float that `digits * 10 ^ exponent` rounds to is `x`. -/
def readsBack (x : Binary64) (d : Digits) : Bool :=
  decide (ofDecimal? x.negative d.digits d.exponent = some x)

/-- The number with `places` significant digits that is nearest to the magnitude of `x` among the
two neighbours that read back as `x`. -/
def withPlaces? (x : Binary64) (places : Nat) : Option Digits :=
  let (num, den) := x.ratio
  let exponent := floorLog10 num den - places + 1
  let num := num * Nat.pow 10 (-exponent).toNat
  let den := den * Nat.pow 10 exponent.toNat
  let low : Digits := ⟨num / den, exponent⟩
  let high : Digits := ⟨num / den + 1, exponent⟩
  let twice := 2 * (num % den)
  let lowFirst := twice < den ∨ (twice = den ∧ low.digits % 2 = 0)
  let (first, second) := if lowFirst then (low, high) else (high, low)
  if readsBack x first then some first
  else if readsBack x second then some second
  else none

/-- All digits of the magnitude of `x`. -/
def exactDigits (x : Binary64) : Digits :=
  ⟨x.significand * Nat.pow 2 x.exponent.toNat * Nat.pow 5 (-x.exponent).toNat, min x.exponent 0⟩

/-- The same number without zeros at the end of its digits. -/
def Digits.strip (d : Digits) : Digits :=
  let text := Numeral.ofNat d.digits
  let zeros := (text.reverse.takeWhile (· == '0')).length
  ⟨d.digits / Nat.pow 10 zeros, d.exponent + zeros⟩

/-- The fewest digits that read back as `x`. -/
def shortest (x : Binary64) : Digits :=
  if x.isZero then ⟨0, 0⟩
  else
    let found := (List.range 17).findSome? fun i => withPlaces? x (i + 1)
    (found.getD (exactDigits x)).strip

/-- How a format lays out the digits of a float. -/
structure Layout where
  /-- The least position of the point, counted from the first digit, that is written without an
  exponent. -/
  leastPoint : Int
  /-- The greatest such position. -/
  greatestPoint : Int
  /-- What stands before the digits of an exponent that is not negative. -/
  exponentSign : Text
deriving DecidableEq, Repr

/-- The digits with the point after `point` of them. -/
def positional (digits : Text) (point : Int) : Text :=
  if point ≤ 0 then '0' :: '.' :: (Text.fill (-point).toNat '0' ++ digits)
  else if point < digits.length then
    digits.take point.toNat ++ '.' :: digits.drop point.toNat
  else digits ++ Text.fill (point.toNat - digits.length) '0' ++ ['.', '0']

/-- One digit, the others after the point, and the power of ten. -/
def exponential (sign digits : Text) (power : Int) : Text :=
  let mantissa :=
    match digits with
    | d :: e :: rest => d :: '.' :: e :: rest
    | _ => digits
  mantissa ++ 'e' :: ((if power < 0 then [] else sign) ++ Numeral.ofInt power)

def print (layout : Layout) (x : Binary64) : Text :=
  let d := x.shortest
  let digits := Numeral.ofNat d.digits
  let point := (digits.length : Int) + d.exponent
  let body :=
    if d.digits = 0 then ['0', '.', '0']
    else if layout.leastPoint ≤ point ∧ point ≤ layout.greatestPoint then positional digits point
    else exponential layout.exponentSign digits (point - 1)
  if x.negative then '-' :: body else body

end Stencil.Binary64
