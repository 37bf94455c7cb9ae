import Stencil.Text.Basic

/-!
# Hexadecimal digits

The digits of base sixteen and the numbers that they write, in either letter case.
-/

namespace Stencil.Hexadecimal

def digitValue? (c : Char) : Option Nat :=
  if c.isDigit then some (c.toNat - 48)
  else if 'a' ≤ c ∧ c ≤ 'f' then some (c.toNat - 87)
  else if 'A' ≤ c ∧ c ≤ 'F' then some (c.toNat - 55)
  else none

/-- The value of the first `count` characters, which must all be digits, and what follows them. -/
def take? : (count : Nat) → (value : Nat) → Text → Option (Nat × Text)
  | 0, value, t => some (value, t)
  | _ + 1, _, [] => none
  | count + 1, value, c :: t => do take? count (value * 16 + (← digitValue? c)) t

/-- The digit of a value, in lower case. -/
def digit (n : Nat) : Char := Nat.digitChar n

/-- The digit of a value, in upper case. -/
def upperDigit (n : Nat) : Char := (Nat.digitChar n).toUpper

/-- The last `count` digits of a number, in upper case. -/
def upperDigits : (count : Nat) → Nat → Text
  | 0, _ => []
  | count + 1, n => upperDigits count (n / 16) ++ [upperDigit (n % 16)]

end Stencil.Hexadecimal
