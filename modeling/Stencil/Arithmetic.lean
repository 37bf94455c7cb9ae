import Stencil.Binary64.Shortest
import Stencil.Decimal.Division
import Stencil.Decimal.Power
import Stencil.HelperError

/-!
# Arithmetic on numerals

One operation on two numbers given as text. The result is written as an integer, truncated toward
zero, unless a point occurs in either operand; a quotient with a fraction is written as a float in
any case.
-/

namespace Stencil.Arithmetic

inductive Operator
  | plus
  | minus
  | times
  | over
  | modulo
  | toThe
deriving DecidableEq, Repr

def Operator.ofText? (t : Text) : Option Operator :=
  match t with
  | ['+'] => some .plus
  | ['-'] => some .minus
  | ['*'] => some .times
  | ['/'] => some .over
  | ['%'] => some .modulo
  | ['^'] => some .toThe
  | _ => none

/-- The decimal that an operand denotes, blanks around it aside. -/
def operand (t : Text) : Except HelperError Decimal :=
  (Decimal.read (Text.trim t)).mapError fun reason => .invalidArgument (.notANumber t reason)

/-- The exponent of a power, when the power is not too large to compute. -/
def checkedExponent (base exponent : Decimal) : Except HelperError Nat :=
  match Decimal.exponent? exponent with
  | none => .error (.invalidArgument (.invalidExponent exponent))
  | some n =>
    if Decimal.maxExponent < n then .error (.invalidArgument (.exponentTooLarge n))
    else if Decimal.maxPowerBits < base.leastPowerBits n then
      .error (.invalidArgument (.powerTooLarge base n))
    else .ok n

/-- The quotient at sixteen places. -/
def divide (a b : Decimal) : Except HelperError Decimal :=
  match a.divide? b with
  | some quotient => .ok quotient
  | none => .error .divisionByZero

def Operator.apply (operator : Operator) (a b : Decimal) : Except HelperError Decimal :=
  match operator with
  | .plus => .ok (a.add b)
  | .minus => .ok (a.sub b)
  | .times => .ok (a.mul b)
  | .over => divide a b
  | .modulo => if b.isZero then .error .divisionByZero else .ok (a.remainder b).abs
  | .toThe => (checkedExponent a b).map a.power

/-- Floats are positional from four decimal places up to sixteen digits before the point. -/
def floatLayout : Binary64.Layout := ⟨-3, 16, []⟩

def floatText (d : Decimal) : Except HelperError Text :=
  match Binary64.ofDecimal? (decide (d.unscaled < 0)) d.unscaled.natAbs (-d.scale) with
  | some x => .ok (x.print floatLayout)
  | none => .error (.invalidArgument (.beyondFloats d))

def integerText (d : Decimal) : Text := Numeral.ofLongInt d.truncate

/-- Whether the result is written as a float. -/
def isFloating (left right : Text) (operator : Operator) (result : Decimal) : Bool :=
  decide ('.' ∈ left) || decide ('.' ∈ right) || (operator == .over && !result.isWhole)

/-- The text of `left operator right`. Both operands are read before the operator is looked at. -/
def evaluate (left operator right : Text) : Except HelperError Text := do
  let a ← operand left
  let b ← operand right
  match Operator.ofText? operator with
  | none => .error (.invalidOperator operator)
  | some sign =>
    let result ← sign.apply a b
    if isFloating left right sign result then floatText result else .ok (integerText result)

end Stencil.Arithmetic
