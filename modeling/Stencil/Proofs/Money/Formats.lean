import Mathlib.Data.Nat.Notation
import Stencil.Proofs.Decimal.Reading
import Stencil.Proofs.Money.Groups

/-!
# Formats of an amount

Main statement: the formats of an amount in cents differ only in the sign of the currency, the
commas and the cents, and the plain format is read as the amount.
-/

namespace Stencil.Money
open Numeral
variable {amount : ℤ}

/-- The parts of an amount in writing: its sign, its dollars without and with commas, and its
cents. -/
structure Parts (amount : ℤ) where
  sign : Text
  dollars : Text
  grouped : Text
  cents : Text
  sign_eq : sign = if amount < 0 then ['-'] else []
  dollars_digits : isDigits dollars = true
  dollars_canonical : Canonical dollars
  grouped_groups : Grouped grouped
  grouped_delete : Text.delete ',' grouped = dollars
  cents_digits : isDigits cents = true
  cents_length : cents.length = 2

namespace Parts
variable {c : Char} (p : Parts amount)

theorem not_mem_sign (h : c ≠ '-') : c ∉ p.sign := by
  rw [p.sign_eq]
  split
  · exact fun hc => h (List.mem_singleton.mp hc)
  · exact List.not_mem_nil

/-- Only digits and commas stand in the dollars. -/
theorem not_mem_grouped (hc : c.isDigit = false) (h : c ≠ ',') : c ∉ p.grouped := by
  rw [← Text.mem_delete_iff h, p.grouped_delete]
  exact not_mem_of_isDigits p.dollars_digits hc

theorem delete_sign (h : c ≠ '-') : Text.delete c p.sign = p.sign :=
  Text.delete_of_not_mem (p.not_mem_sign h)

/-- The cents have no mark but their point. -/
theorem not_mem_cents (hc : c.isDigit = false) (h : c ≠ '.') : c ∉ '.' :: p.cents :=
  List.not_mem_cons_of_ne_of_not_mem h (not_mem_of_isDigits p.cents_digits hc)

/-- Without its commas an amount in groups is the plain one. -/
theorem delete_comma :
    Text.delete ',' (p.sign ++ (p.grouped ++ '.' :: p.cents)) =
      p.sign ++ (p.dollars ++ '.' :: p.cents) := by
  rw [Text.delete_append, Text.delete_append, p.delete_sign (by decide), p.grouped_delete,
    Text.delete_of_not_mem (p.not_mem_cents rfl (by decide))]

/-- The sign of the currency can be taken away from in front of what has none in it. -/
theorem delete_symbol {body : Text} (h : '$' ∉ body) :
    Text.delete '$' (p.sign ++ '$' :: body) = p.sign ++ body := by
  rw [Text.delete_append, p.delete_sign (by decide), Text.delete_cons_self,
    Text.delete_of_not_mem h]

/-- The first point ends the dollars. -/
theorem splitOnce_point :
    Text.splitOnce? '.' (p.sign ++ (p.grouped ++ '.' :: p.cents)) =
      some (p.sign ++ p.grouped, p.cents) := by
  rw [← List.append_assoc]
  apply Text.splitOnce?_append
  rw [List.mem_append, not_or]
  exact ⟨p.not_mem_sign (by decide), p.not_mem_grouped rfl (by decide)⟩

end Parts

/-- The parts of which the formats of an amount are made. -/
def parts (amount : ℤ) : Parts amount where
  sign := if amount < 0 then ['-'] else []
  dollars := ofNat (amount.natAbs / 100)
  grouped := groupThousands (ofNat (amount.natAbs / 100))
  cents := Text.padStart 2 '0' (ofNat (amount.natAbs % 100))
  sign_eq := rfl
  dollars_digits := isDigits_ofNat _
  dollars_canonical := canonical_ofInt (amount.natAbs / 100 : ℕ)
  grouped_groups := grouped_groupThousands (isDigits_ofNat _)
  grouped_delete := delete_groupThousands (not_mem_of_isDigits (isDigits_ofNat _) rfl)
  cents_digits := isDigits_padStart 2 _
  cents_length := length_padStart '0' (length_ofNat_le (by decide) (Nat.mod_lt _ (by decide)))

/-- Each format puts the parts together in one order and leaves some of them out. -/
theorem print_eq (style : Style) (amount : ℤ) :
    print style amount =
      (parts amount).sign ++ ((if style.symbol then ['$'] else []) ++
        ((if style.grouped then (parts amount).grouped else (parts amount).dollars) ++
          if style.cents then '.' :: (parts amount).cents else [])) := by
  rw [print]
  simp only [List.append_assoc]
  rfl

theorem value_parts (amount : ℤ) :
    value ((parts amount).dollars ++ (parts amount).cents) = amount.natAbs := by
  have hdollars : value (parts amount).dollars = amount.natAbs / 100 := value_ofNat _
  have hcents : value (parts amount).cents = amount.natAbs % 100 := value_padStart 2 _
  rw [value_append, (parts amount).cents_length, hdollars, hcents]
  omega

/-- The plain format is read as the amount, with two digits after the point. -/
theorem read_print_plain (amount : ℤ) : Decimal.read (print plain amount) = .ok ⟨amount, 2⟩ := by
  have hmantissa := Decimal.Mantissa.pointed (parts amount).dollars_digits
    (parts amount).cents_digits
  have hread := Decimal.read_mantissa (decide (amount < 0)) hmantissa .absent
    (by rw [(parts amount).cents_length]; decide)
  rw [value_parts, (parts amount).cents_length, List.append_nil] at hread
  have hvalue : (if decide (amount < 0) = true then -(amount.natAbs : ℤ) else amount.natAbs) =
      amount := by
    simp only [decide_eq_true_eq]
    split
    · omega
    · omega
  have hprint : print plain amount = Decimal.signText (decide (amount < 0)) ++
      ((parts amount).dollars ++ '.' :: (parts amount).cents) := by
    rw [print_eq, (parts amount).sign_eq, Decimal.signText]
    simp only [decide_eq_true_eq]
    rfl
  rw [hprint, hread, hvalue]
  rfl

/-- The formats of an amount are made of the same parts: a minus sign when it is negative, dollars
with or without commas, and two digits of cents. The plain format, whose dollars have no zero in
front, is read as the amount. Without its commas the format with cents is the plain one, without the
sign of the currency each format with it is the one that has none, and up to its point the format
with cents is the one without. -/
theorem formats_agree (amount : ℤ) :
    ∃ p : Parts amount,
      print plain amount = p.sign ++ (p.dollars ++ '.' :: p.cents) ∧
      Decimal.read (print plain amount) = .ok ⟨amount, 2⟩ ∧
      print dollars amount = p.sign ++ p.grouped ∧
      print dollarsWithSign amount = p.sign ++ '$' :: p.grouped ∧
      print dollarsAndCents amount = p.sign ++ (p.grouped ++ '.' :: p.cents) ∧
      print dollarsAndCentsWithSign amount = p.sign ++ '$' :: (p.grouped ++ '.' :: p.cents) ∧
      Text.delete ',' (print dollarsAndCents amount) = print plain amount ∧
      Text.delete '$' (print dollarsWithSign amount) = print dollars amount ∧
      Text.delete '$' (print dollarsAndCentsWithSign amount) = print dollarsAndCents amount ∧
      Text.splitOnce? '.' (print dollarsAndCents amount) =
        some (print dollars amount, p.cents) := by
  let p := parts amount
  have hplain : print plain amount = p.sign ++ (p.dollars ++ '.' :: p.cents) :=
    print_eq plain amount
  have hdollars : print dollars amount = p.sign ++ p.grouped := by
    rw [← List.append_nil p.grouped]
    exact print_eq dollars amount
  have hdollarsWithSign : print dollarsWithSign amount = p.sign ++ '$' :: p.grouped := by
    rw [← List.append_nil p.grouped]
    exact print_eq dollarsWithSign amount
  have hcents : print dollarsAndCents amount = p.sign ++ (p.grouped ++ '.' :: p.cents) :=
    print_eq dollarsAndCents amount
  have hcentsWithSign : print dollarsAndCentsWithSign amount =
      p.sign ++ '$' :: (p.grouped ++ '.' :: p.cents) := print_eq dollarsAndCentsWithSign amount
  have hgrouped : '$' ∉ p.grouped := p.not_mem_grouped rfl (by decide)
  have hbody : '$' ∉ p.grouped ++ '.' :: p.cents := by
    rw [List.mem_append, not_or]
    exact ⟨hgrouped, p.not_mem_cents rfl (by decide)⟩
  refine ⟨p, hplain, read_print_plain amount, hdollars, hdollarsWithSign, hcents, hcentsWithSign,
    ?_, ?_, ?_, ?_⟩
  · rw [hcents, p.delete_comma, hplain]
  · rw [hdollarsWithSign, p.delete_symbol hgrouped, hdollars]
  · rw [hcentsWithSign, p.delete_symbol hbody, hcents]
  · rw [hcents, p.splitOnce_point, hdollars]

/-- The sign stands in front of the currency, and cents are written with two digits. -/
example : print dollarsAndCentsWithSign (-123456705) = "-$1,234,567.05".toList ∧
    print dollars (-5) = "-0".toList := by decide

end Stencil.Money
