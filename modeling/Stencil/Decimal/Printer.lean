import Stencil.Decimal.Basic

/-!
# The text of a decimal

A decimal is written with all its digits, in positional notation unless that would put many zeros
between the digits and the point.
-/

namespace Stencil.Decimal

/-- The most zeros that are written between the point and the first digit. -/
def mostLeadingZeros : Nat := 5

/-- The most zeros that are written between the last digit and the point. -/
def mostTrailingZeros : Nat := 15

/-- An integer with its sign, also when it is not negative. -/
def withSign (n : Int) : Text := if n < 0 then Numeral.ofInt n else '+' :: Numeral.ofInt n

/-- One digit before the point, the others after it, and the power of ten. -/
def scientific (digits : Text) (power : Int) : Text :=
  let mantissa :=
    match digits with
    | d :: e :: rest => d :: '.' :: e :: rest
    | _ => digits
  if power = 0 then mantissa else mantissa ++ 'E' :: withSign power

/-- The digits with the point before the last `places` of them. -/
def pointed (digits : Text) (places : Nat) : Text :=
  let digits := Text.padStart (places + 1) '0' digits
  digits.take (digits.length - places) ++ '.' :: digits.drop (digits.length - places)

def magnitudeText (digits : Text) (scale : Int) : Text :=
  if scale ≤ 0 then
    if mostTrailingZeros < (-scale).toNat then digits ++ 'e' :: withSign (-scale)
    else digits ++ Text.fill (-scale).toNat '0'
  else if mostLeadingZeros < scale.toNat - digits.length then
    scientific digits (digits.length - scale - 1)
  else pointed digits scale.toNat

def text (d : Decimal) : Text :=
  let body := magnitudeText (Numeral.ofNat d.unscaled.natAbs) d.scale
  if d.unscaled < 0 then '-' :: body else body

end Stencil.Decimal
