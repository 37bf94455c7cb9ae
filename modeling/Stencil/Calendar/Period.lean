import Stencil.Calendar.Moment
import Stencil.HelperError

/-!
# Periods

A period such as `3m15d` or `-1m0d` moves a moment by months and then by days, both in one
direction.
-/

namespace Stencil.Calendar

/-- A number of months and days, forward or backward. -/
structure Period where
  negative : Bool
  months : Nat
  days : Nat
deriving DecidableEq, Repr

namespace Period

/-- The bound below which both numbers of a period lie. -/
def bound : Nat := 4294967296

/-- A number of months or days: digits, and a value of 32 bits. -/
def component? (t : Text) : Option Nat := (Numeral.toNat? t).filter (· < bound)

/-- The text before a `d` at the end. -/
def beforeDayMark? (t : Text) : Option Text :=
  match t.reverse with
  | 'd' :: rest => some rest.reverse
  | _ => none

/-- The period without its sign. -/
def ofUnsigned? (negative : Bool) (t : Text) : Option Period := do
  let (months, rest) ← Text.splitOnce? 'm' t
  let days ← beforeDayMark? rest
  some ⟨negative, ← component? months, ← component? days⟩

/-- The period that a text denotes: months first, days second, and both present. -/
def parse? : Text → Option Period
  | '-' :: t => ofUnsigned? true t
  | t => ofUnsigned? false t

def parse (t : Text) : Except HelperError Period :=
  match parse? t with
  | some period => .ok period
  | none => .error (.invalidPeriod t)

def print (p : Period) : Text :=
  let body := Numeral.ofNat p.months ++ 'm' :: (Numeral.ofNat p.days ++ ['d'])
  if p.negative then '-' :: body else body

/-- A number in the direction of the period. -/
def directed (p : Period) (n : Nat) : Int := if p.negative then -(n : Int) else n

/-- The moment that a period leads to. The months come first, and neither they nor the days after
them may leave the years that can be represented. -/
def apply (p : Period) (m : Moment) : Except HelperError Moment :=
  match (m.addMonths? (p.directed p.months)).bind (·.addDays? (p.directed p.days)) with
  | some m' => .ok m'
  | none => .error (.timestampOutOfRange m.millis)

end Period
end Stencil.Calendar
