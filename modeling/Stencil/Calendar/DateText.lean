import Stencil.Calendar.Date

/-!
# Dates as text

Four fixed patterns. A year is written with at least four digits, and with a sign when it is
negative or has more than four.
-/

namespace Stencil.Calendar

def monthNames : List Text :=
  ["January".toList, "February".toList, "March".toList, "April".toList, "May".toList,
    "June".toList, "July".toList, "August".toList, "September".toList, "October".toList,
    "November".toList, "December".toList]

/-- The name of a month, counted from 1. -/
def monthName (month : Nat) : Text := (monthNames[month - 1]?).getD []

/-- A number with at least two digits. -/
def twoDigits (n : Nat) : Text := Text.padStart 2 '0' (Numeral.ofNat n)

def yearText (year : Int) : Text :=
  let digits := Text.padStart 4 '0' (Numeral.ofNat year.natAbs)
  if year < 0 then '-' :: digits
  else if 9999 < year then '+' :: digits
  else digits

inductive DatePattern
  /-- Month, day and year as numbers with slashes. -/
  | slashes
  /-- The name of the month, the day and the year. -/
  | words
  /-- Year, month and day as numbers with hyphens. -/
  | hyphens
  /-- The first three letters of the month, the day in two digits and the year. -/
  | abbreviated
deriving DecidableEq, Repr

def DatePattern.print (pattern : DatePattern) (d : Date) : Text :=
  match pattern with
  | .slashes => twoDigits d.month ++ '/' :: (twoDigits d.day ++ '/' :: yearText d.year)
  | .words =>
    monthName d.month ++ ' ' :: (Numeral.ofNat d.day ++ ',' :: ' ' :: yearText d.year)
  | .hyphens => yearText d.year ++ '-' :: (twoDigits d.month ++ '-' :: twoDigits d.day)
  | .abbreviated =>
    (monthName d.month).take 3 ++ ' ' :: (twoDigits d.day ++ ',' :: ' ' :: yearText d.year)

end Stencil.Calendar
