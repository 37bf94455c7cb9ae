import Stencil.Text.Numeral

/-!
# Amounts of money

An amount in cents is written in dollars, with or without the sign of the currency, the cents, and
commas between groups of three digits.
-/

namespace Stencil

structure Money.Style where
  symbol : Bool
  cents : Bool
  grouped : Bool
deriving DecidableEq, Repr

namespace Money

/-- The digits with a comma before each group of three, counted from the end. -/
def groupThousands : Text → Text
  | [] => []
  | d :: rest =>
    if rest ≠ [] ∧ rest.length % 3 = 0 then d :: ',' :: groupThousands rest
    else d :: groupThousands rest

/-- The point and the two digits of the cents. -/
def centsText (cents : Nat) : Text := '.' :: Text.padStart 2 '0' (Numeral.ofNat cents)

/-- The text of an amount in cents. The sign comes first and the currency second. -/
def print (style : Style) (amount : Int) : Text :=
  let dollars := Numeral.ofNat (amount.natAbs / 100)
  (if amount < 0 then ['-'] else []) ++
    (if style.symbol then ['$'] else []) ++
    (if style.grouped then groupThousands dollars else dollars) ++
    (if style.cents then centsText (amount.natAbs % 100) else [])

def dollars : Style := ⟨false, false, true⟩

def dollarsWithSign : Style := ⟨true, false, true⟩

def dollarsAndCents : Style := ⟨false, true, true⟩

def dollarsAndCentsWithSign : Style := ⟨true, true, true⟩

/-- Dollars and cents without groups. -/
def plain : Style := ⟨false, true, false⟩

end Money
end Stencil
