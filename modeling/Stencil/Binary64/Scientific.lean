import Stencil.Binary64.Basic

/-!
# Numerals with a point and an exponent

The grammar of a number written with digits, at most one decimal point and an optional power of
ten, and the floats that such a numeral and the words for infinity and not-a-number denote.
-/

namespace Stencil

/-- A number written out: plus or minus `digits * 10 ^ exponent`. -/
structure Scientific where
  negative : Bool
  digits : Nat
  exponent : Int
deriving DecidableEq, Repr

namespace Scientific

/-- The sign in front of a numeral and what follows it. -/
def splitSign : Text → Bool × Text
  | '-' :: t => (true, t)
  | '+' :: t => (false, t)
  | t => (false, t)

/-- The power of ten at the end of a numeral; an absent one is zero. -/
def tenPower? : Text → Option Int
  | [] => some 0
  | c :: t => if c = 'e' ∨ c = 'E' then Numeral.toInt? t else none

/-- The digits before the point, those after it, and what follows them. -/
def splitDigits (t : Text) : Text × Text × Text :=
  let whole := t.takeWhile Char.isDigit
  match t.dropWhile Char.isDigit with
  | '.' :: rest => (whole, rest.takeWhile Char.isDigit, rest.dropWhile Char.isDigit)
  | rest => (whole, [], rest)

/-- A numeral without sign: at least one digit, at most one point, an optional power of ten. -/
def ofUnsigned? (negative : Bool) (t : Text) : Option Scientific :=
  let (whole, fraction, rest) := splitDigits t
  if whole.isEmpty && fraction.isEmpty then none
  else
    (tenPower? rest).map fun power =>
      ⟨negative, Numeral.value (whole ++ fraction), power - fraction.length⟩

def ofText? (t : Text) : Option Scientific :=
  let (negative, rest) := splitSign t
  ofUnsigned? negative rest

/-- The nearest float; none when the number is too large for one. -/
def toBinary64? (s : Scientific) : Option Binary64 :=
  Binary64.ofDecimal? s.negative s.digits s.exponent

end Scientific

/-- What a text read as a floating point number denotes. -/
inductive FloatReading
  | finite (x : Binary64)
  | infinite (negative : Bool)
  | notANumber
deriving DecidableEq, Repr

namespace FloatReading

/-- A word for infinity or not-a-number, in any letter case. -/
def ofWord? (negative : Bool) (t : Text) : Option FloatReading :=
  let word := t.map Char.toLower
  if word = "inf".toList ∨ word = "infinity".toList then some (.infinite negative)
  else if word = "nan".toList then some .notANumber
  else none

/-- The reading of a numeral or a word, with an optional sign. A numeral beyond the largest float
reads as infinity. -/
def ofText? (t : Text) : Option FloatReading :=
  let (negative, rest) := Scientific.splitSign t
  match Scientific.ofUnsigned? negative rest with
  | some s =>
    match s.toBinary64? with
    | some x => some (.finite x)
    | none => some (.infinite negative)
  | none => ofWord? negative rest

/-- The reading as a signed 64-bit integer: the fraction is dropped, what lies outside becomes the
nearest limit, and not-a-number becomes zero. -/
def toSigned : FloatReading → Int
  | .finite x => Numeral.clampSigned x.truncate
  | .infinite true => -9223372036854775808
  | .infinite false => 9223372036854775807
  | .notANumber => 0

end FloatReading
end Stencil
