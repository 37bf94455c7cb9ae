import Stencil.Text.Numeral

/-!
# The Gregorian calendar

Dates of the proleptic Gregorian calendar, with a year 0 and negative years, and their numbers
counted in days from the first of January 1970. `Date.dayNumber` and `Date.ofDayNumber` go back
and forth between the two.
-/

namespace Stencil.Calendar

def isLeap (year : Int) : Bool :=
  year % 4 == 0 && (year % 100 != 0 || year % 400 == 0)

/-- The number of days in each month of a year, in order. -/
def monthLengths (year : Int) : List Nat :=
  [31, if isLeap year then 29 else 28, 31, 30, 31, 30, 31, 31, 30, 31, 30, 31]

/-- The number of days in a month, counted from 1. -/
def monthLength (year : Int) (month : Nat) : Nat := ((monthLengths year)[month - 1]?).getD 0

/-- The number of days from the first of January of the year 1 to that of the given year. -/
def daysBeforeYear (year : Int) : Int :=
  let n := year - 1
  365 * n + n / 4 - n / 100 + n / 400

/-- The number of the first of January 1970 counted from that of the year 1. -/
def epochDays : Int := 719162

/-- The year that holds a day, counted from the first of January of the year 1. The mean length
of a year gives it up to one, and the two neighbours are tried. -/
def yearOfDay (n : Int) : Int :=
  let guess := 400 * n / 146097 + 1
  if n < daysBeforeYear guess then guess - 1
  else if daysBeforeYear (guess + 1) ≤ n then guess + 1
  else guess

/-- The month and the day of the month of the day `n` of a year, counted from 0, where the months
from `month` on have the given lengths. -/
def locate (month : Nat) : List Nat → Nat → Nat × Nat
  | [], n => (month, n + 1)
  | length :: lengths, n =>
    if n < length then (month, n + 1) else locate (month + 1) lengths (n - length)

/-- A date. Month and day are counted from 1. -/
@[ext] structure Date where
  year : Int
  month : Nat
  day : Nat
deriving DecidableEq, Repr

namespace Date

def Valid (d : Date) : Prop :=
  1 ≤ d.month ∧ d.month ≤ 12 ∧ 1 ≤ d.day ∧ d.day ≤ monthLength d.year d.month

instance (d : Date) : Decidable d.Valid := inferInstanceAs (Decidable (_ ∧ _))

/-- The days of the year before the month of the date. -/
def daysBeforeMonth (d : Date) : Nat := ((monthLengths d.year).take (d.month - 1)).foldr (· + ·) 0

/-- The number of the day, counted from the first of January 1970. -/
def dayNumber (d : Date) : Int :=
  daysBeforeYear d.year + d.daysBeforeMonth + (d.day - 1 : Nat) - epochDays

/-- The date of a day, counted from the first of January 1970. -/
def ofDayNumber (n : Int) : Date :=
  let n := n + epochDays
  let year := yearOfDay n
  let (month, day) := locate 1 (monthLengths year) (n - daysBeforeYear year).toNat
  ⟨year, month, day⟩

/-- The date a number of months later, or earlier when it is negative. A day that the month does
not have becomes the last one that it has. -/
def addMonths (d : Date) (months : Int) : Date :=
  let total := d.year * 12 + (d.month - 1 : Nat) + months
  let year := total / 12
  let month := (total % 12).toNat + 1
  ⟨year, month, min d.day (monthLength year month)⟩

/-- The years that a timestamp may lie in. -/
def Representable (d : Date) : Prop := -262143 ≤ d.year ∧ d.year ≤ 262142

instance (d : Date) : Decidable d.Representable := inferInstanceAs (Decidable (_ ∧ _))

end Date
end Stencil.Calendar
