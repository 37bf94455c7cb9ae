import Stencil.Decimal.Basic

/-!
# Reading decimals

A numeral may have a sign, a point and a power of ten, and underscores after its first digit. The
power of ten is read before the digits, so that of two faults the one in the power is reported.
-/

namespace Stencil.Decimal

inductive ReadError
  | empty
  | noDigits
  | invalidDigit
  | aboveRange
  | belowRange
  | exponentOverflow (text : Text)
deriving DecidableEq, Repr

def ReadError.message : ReadError → Text
  | .empty => "Failed to parse empty string".toList
  | .noDigits => "cannot parse integer from empty string".toList
  | .invalidDigit => "invalid digit found in string".toList
  | .aboveRange => "number too large to fit in target type".toList
  | .belowRange => "number too small to fit in target type".toList
  | .exponentOverflow text => "Exponent overflow when parsing '".toList ++ text ++ ['\'']

def isPowerMark (c : Char) : Bool := c = 'e' || c = 'E'

/-- The power of ten after its mark: an integer of 128 bits. -/
def readPower (t : Text) : Except ReadError Int :=
  if t.isEmpty then .error .noDigits
  else
    match Numeral.toInt? t with
    | none => .error .invalidDigit
    | some n =>
      if n < -(Nat.pow 2 127 : Int) then .error .belowRange
      else if Nat.pow 2 127 ≤ n then .error .aboveRange
      else .ok n

/-- The natural number that digits denote, underscores among them left out. -/
def readNatural (t : Text) : Except ReadError Nat :=
  if t.isEmpty then .error .noDigits
  else if t.head? = some '_' || !t.all (fun c => c.isDigit || c == '_') then .error .invalidDigit
  else .ok (Numeral.value (t.filter (· != '_')))

/-- The integer that digits with at most one sign in front denote. -/
def readInteger : Text → Except ReadError Int
  | '-' :: t => (readNatural t).map fun n => -(n : Int)
  | '+' :: t => (readNatural t).map fun n => (n : Int)
  | t => (readNatural t).map fun n => (n : Int)

/-- The digits without their point, and how many of them stand after it. -/
def splitPoint (t : Text) : Text × Nat :=
  match Text.splitOnce? '.' t with
  | some (whole, fraction) => (whole ++ fraction, (fraction.filter (· != '_')).length)
  | none => (t, 0)

/-- The decimal that a text without blanks around it denotes. -/
def read (t : Text) : Except ReadError Decimal := do
  let digits := t.takeWhile fun c => !isPowerMark c
  let rest := t.dropWhile fun c => !isPowerMark c
  let power ← if rest.isEmpty then pure 0 else readPower (rest.drop 1)
  if digits.isEmpty then throw .empty
  let (digits, places) := splitPoint digits
  let scale := (places : Int) - power
  if ¬ Numeral.FitsSigned scale then throw (.exponentOverflow t)
  return ⟨← readInteger digits, scale⟩

end Stencil.Decimal
