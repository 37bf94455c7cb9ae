import Stencil.Decimal.Reader
import Stencil.Decimal.Printer

/-!
# Errors of helpers

What a helper reports when its arguments do not fit: one constructor for each cause, and one
function for the wording.
-/

namespace Stencil

/-- What is wrong with an argument of the right kind. -/
inductive ArgumentFault
  | notANumber (text : Text) (reason : Decimal.ReadError)
  | invalidExponent (value : Decimal)
  | exponentTooLarge (exponent : Nat)
  | powerTooLarge (base : Decimal) (exponent : Nat)
  | beyondFloats (value : Decimal)
  | invalidLength (length : Int)
deriving DecidableEq, Repr

inductive HelperError
  | illegalArgumentType (helper found : Text)
  | invalidOperator (operator : Text)
  | invalidArgument (fault : ArgumentFault)
  | missingParameter (helper : Text) (index : Nat)
  | divisionByZero
  | invalidPeriod (token : Text)
  | timestampOutOfRange (millis : Int)
deriving DecidableEq, Repr

namespace ArgumentFault

/-- The helper whose argument is at fault. -/
def helper : ArgumentFault → Text
  | .invalidLength _ => "truncate".toList
  | _ => "expr".toList

def message : ArgumentFault → Text
  | .notANumber text reason =>
    "not a number '".toList ++ text ++ "': ".toList ++ reason.message
  | .invalidExponent value => "invalid exponent ".toList ++ value.text
  | .exponentTooLarge exponent =>
    "exponent ".toList ++ Numeral.ofNat exponent ++ " exceeds 999999999".toList
  | .powerTooLarge base exponent =>
    base.text ++ " ^ ".toList ++ Numeral.ofNat exponent ++ " is too large".toList
  | .beyondFloats value => "result ".toList ++ value.text ++ " does not fit a float".toList
  | .invalidLength length => "invalid length ".toList ++ Numeral.ofInt length

end ArgumentFault

def HelperError.message : HelperError → Text
  | .illegalArgumentType helper found =>
    helper ++ ": invalid argument type ".toList ++ found
  | .invalidOperator operator => "expr: invalid operator: ".toList ++ operator
  | .invalidArgument fault => fault.helper ++ ": ".toList ++ fault.message
  | .missingParameter helper index =>
    helper ++ ": missing parameter at position ".toList ++ Numeral.ofNat index
  | .divisionByZero => "expr: division by zero".toList
  | .invalidPeriod token =>
    "invalid period '".toList ++ token ++ "', expected [-]<months>m<days>d".toList
  | .timestampOutOfRange millis => "timestamp out of range: ".toList ++ Numeral.ofInt millis

end Stencil
