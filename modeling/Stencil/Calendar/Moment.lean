import Stencil.Calendar.Date

/-!
# Moments

A moment is a point of time in UTC: the number of its day and the time that has passed since the
day began, in nanoseconds. Every day has 86400 seconds, and there are moments only in the years that
can be represented.
-/

namespace Stencil.Calendar

def dayMillis : Int := 86400000

/-- The nanoseconds of a millisecond. -/
def milliNanos : Nat := 1000000

/-- The nanoseconds of a day. -/
def dayNanos : Nat := 86400000000000

@[ext] structure Moment where
  /-- The number of the day, counted from the first of January 1970. -/
  day : Int
  /-- The time of day. -/
  nanos : Nat
  nanos_lt : nanos < dayNanos
  representable : (Date.ofDayNumber day).Representable
deriving DecidableEq, Repr

def dayOf (millis : Int) : Int := millis / dayMillis

namespace Moment

def date (m : Moment) : Date := Date.ofDayNumber m.day

/-- The whole milliseconds since the start of 1970. -/
def millis (m : Moment) : Int := m.day * dayMillis + (m.nanos / milliNanos : Nat)

theorem nanos_of_millis_lt (millis : Int) : (millis % dayMillis).toNat * milliNanos < dayNanos := by
  unfold dayMillis milliNanos dayNanos
  omega

/-- The moment a number of milliseconds after the start of 1970, when there is one. -/
def ofMillis? (millis : Int) : Option Moment :=
  if h : (Date.ofDayNumber (dayOf millis)).Representable then
    some ⟨dayOf millis, (millis % dayMillis).toNat * milliNanos, nanos_of_millis_lt millis, h⟩
  else none

/-- The same time of another day, when there are moments on it. -/
def onDay? (m : Moment) (day : Int) : Option Moment :=
  if h : (Date.ofDayNumber day).Representable then some ⟨day, m.nanos, m.nanos_lt, h⟩ else none

def addMonths? (m : Moment) (months : Int) : Option Moment :=
  m.onDay? (m.date.addMonths months).dayNumber

def addDays? (m : Moment) (days : Int) : Option Moment := m.onDay? (m.day + days)

end Moment
end Stencil.Calendar
