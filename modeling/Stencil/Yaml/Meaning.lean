import Stencil.Binary64.Scientific
import Stencil.Text.Hexadecimal

/-!
# Meanings of plain text

A text without quotes can denote null, a truth value or a number. A number with zeros in front of
other digits is a text, and so is one with underscores.
-/

namespace Stencil.Yaml

inductive Meaning
  | null
  | bool (b : Bool)
  | integer (n : Int)
  | float (x : FloatReading)
  | text
deriving DecidableEq, Repr

namespace Meaning

def isNull (t : Text) : Bool :=
  t = ['~'] || t = "null".toList || t = "Null".toList || t = "NULL".toList

def bool? (t : Text) : Option Bool :=
  if t = "true".toList ∨ t = "True".toList ∨ t = "TRUE".toList then some true
  else if t = "false".toList ∨ t = "False".toList ∨ t = "FALSE".toList then some false
  else none

/-- Whether a text is zeros in front of other digits, with or without a sign. -/
def isZeroPadded (t : Text) : Bool :=
  let (_, digits) := Scientific.splitSign t
  digits.head? = some '0' && 1 < digits.length && digits.all Char.isDigit

/-- The number that digits of a base denote. -/
def ofDigits? (base : Nat) (t : Text) : Option Nat :=
  if t.isEmpty then none
  else
    t.foldlM (fun n c => do
      let d ← Hexadecimal.digitValue? c
      if d < base then some (n * base + d) else none) 0

/-- The number that a text without sign denotes, in base ten or in the base that it starts with. -/
def magnitude? : Text → Option Nat
  | '0' :: 'x' :: digits => ofDigits? 16 digits
  | '0' :: 'o' :: digits => ofDigits? 8 digits
  | '0' :: 'b' :: digits => ofDigits? 2 digits
  | digits => if isZeroPadded digits then none else ofDigits? 10 digits

/-- The integer that a text denotes, when a word of 128 bits holds it. -/
def integer? (t : Text) : Option Int :=
  let (negative, rest) := Scientific.splitSign t
  match magnitude? rest with
  | none => none
  | some n =>
    if negative then if n ≤ Nat.pow 2 127 then some (-(n : Int)) else none
    else if n < Nat.pow 2 128 then some n
    else none

/-- The float that a text denotes: a numeral of finite value, or a word that starts with a
point. -/
def float? (t : Text) : Option FloatReading :=
  let (negative, rest) := Scientific.splitSign t
  if rest = ".inf".toList ∨ rest = ".Inf".toList ∨ rest = ".INF".toList then
    some (.infinite negative)
  else if t = ".nan".toList ∨ t = ".NaN".toList ∨ t = ".NAN".toList then some .notANumber
  else (Scientific.ofUnsigned? negative rest).bind fun s => s.toBinary64?.map .finite

def ofText (t : Text) : Meaning :=
  if t.isEmpty || isNull t then .null
  else
    match bool? t with
    | some b => .bool b
    | none =>
      match integer? t with
      | some n => .integer n
      | none =>
        if isZeroPadded t then .text
        else
          match float? t with
          | some x => .float x
          | none => .text

end Meaning
end Stencil.Yaml
