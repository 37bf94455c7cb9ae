import Stencil.Text.Basic

/-!
# Decimal numerals

Whole numbers as text, in both directions. Writing gives the canonical numeral: no leading zeros
and no sign on zero. Reading takes leading zeros and, for integers, one sign in front.
-/

namespace Stencil.Numeral

/-- The canonical decimal numeral of a natural number. -/
def ofNat (n : Nat) : Text := Nat.toDigits 10 n

/-- The canonical decimal numeral of an integer. -/
def ofInt : Int → Text
  | .ofNat n => ofNat n
  | .negSucc n => '-' :: ofNat (n + 1)

/-- The digits of a block of a long numeral. -/
def blockDigits : Nat := 1000

/-- The numeral of `n` in front of `rest`, written in blocks of which at most `count` are split off.
Only the blocks are written digit by digit, so that a long numeral takes few divisions of the whole
number. -/
def blocksOnto : (count n : Nat) → (rest : Text) → Text
  | 0, n, rest => ofNat n ++ rest
  | count + 1, n, rest =>
    let unit := Nat.pow 10 blockDigits
    if n < unit then ofNat n ++ rest
    else blocksOnto count (n / unit) (Text.padStart blockDigits '0' (ofNat (n % unit)) ++ rest)

/-- The canonical decimal numeral of an integer that may be very long. -/
def ofLongInt : Int → Text
  | .ofNat n => blocksOnto n.log2 n []
  | .negSucc n => '-' :: blocksOnto (n + 1).log2 (n + 1) []

/-- Whether the text is one or more decimal digits. -/
def isDigits (t : Text) : Bool := !t.isEmpty && t.all Char.isDigit

def value (digits : Text) : Nat := Nat.ofDigitChars 10 digits 0

/-- The natural number that a text of digits denotes. -/
def toNat? (t : Text) : Option Nat := if isDigits t then some (value t) else none

/-- The integer that a text of digits with at most one sign in front denotes. -/
def toInt? : Text → Option Int
  | '-' :: t => (toNat? t).map fun n => -(n : Int)
  | '+' :: t => (toNat? t).map fun n => (n : Int)
  | t => (toNat? t).map fun n => (n : Int)

/-- The natural number that a text of digits with at most a plus sign in front denotes. -/
def toUnsigned? : Text → Option Nat
  | '+' :: t => toNat? t
  | t => toNat? t

@[simp] theorem value_ofNat (n : Nat) : value (ofNat n) = n := Nat.ofDigitChars_ten_toDigits

@[simp] theorem isDigits_ofNat (n : Nat) : isDigits (ofNat n) = true := by
  have h : Nat.toDigits 10 n ≠ [] := Nat.toDigits_ne_nil
  simp only [isDigits, ofNat, Bool.and_eq_true, Bool.not_eq_true', List.isEmpty_eq_false_iff,
    List.all_eq_true]
  exact ⟨h, fun c hc => Nat.isDigit_of_mem_toDigits (by decide) (by decide) hc⟩

/-- A numeral reads back as the number it was written for. -/
@[simp] theorem toNat?_ofNat (n : Nat) : toNat? (ofNat n) = some n := by simp [toNat?]

/-- The integers of a signed 64-bit word. -/
def FitsSigned (n : Int) : Prop := -9223372036854775808 ≤ n ∧ n ≤ 9223372036854775807

instance (n : Int) : Decidable (FitsSigned n) := inferInstanceAs (Decidable (_ ∧ _))

/-- The integer of a signed 64-bit word that is nearest to `n`. -/
def clampSigned (n : Int) : Int := max (-9223372036854775808) (min n 9223372036854775807)

/-- The signed 64-bit integer that the text denotes. -/
def toSigned? (t : Text) : Option Int := (toInt? t).filter fun n => decide (FitsSigned n)

/-- The position in a list that the text denotes, below the bound of a 64-bit word. -/
def toIndex? (t : Text) : Option Nat := (toUnsigned? t).filter (· < 18446744073709551616)

end Stencil.Numeral
