import Stencil.Money
import Stencil.Proofs.Text.Fields
import Stencil.Proofs.Text.Numeral

/-!
# Digits in groups

Main statement: digits with commas among them are groups of three, of which the first may be
shorter, and without the commas they are the digits themselves.
-/

namespace Stencil.Money
open Numeral
variable {d : Char} {t first : Text} {rest : List Text}

/-- Groups of digits: three in each, and one to three in the first. -/
structure Groups (first : Text) (rest : List Text) : Prop where
  first_digits : isDigits first = true
  first_le : first.length ≤ 3
  rest_digits : ∀ group ∈ rest, isDigits group = true
  rest_length : ∀ group ∈ rest, group.length = 3

/-- The pieces between the commas of a text are groups of digits. -/
def Grouped (t : Text) : Prop := ∃ first rest, Text.fields ',' t = first :: rest ∧ Groups first rest

theorem groups_singleton (hd : d.isDigit = true) : Groups [d] [] :=
  ⟨isDigits_singleton hd, by simp, List.forall_mem_nil _, List.forall_mem_nil _⟩

/-- A digit in front of a group that is not full yet. -/
theorem Groups.cons (h : Groups first rest) (hd : d.isDigit = true) (hlt : first.length < 3) :
    Groups (d :: first) rest :=
  ⟨isDigits_cons hd h.first_digits, hlt, h.rest_digits, h.rest_length⟩

/-- A digit in front of full groups begins a group of its own. -/
theorem Groups.next (h : Groups first rest) (hd : d.isDigit = true) (hfull : first.length = 3) :
    Groups [d] (first :: rest) :=
  ⟨isDigits_singleton hd, by simp, List.forall_mem_cons.mpr ⟨h.first_digits, h.rest_digits⟩,
    List.forall_mem_cons.mpr ⟨hfull, h.rest_length⟩⟩

theorem groupThousands_of_full (hne : t ≠ []) (h : t.length % 3 = 0) :
    groupThousands (d :: t) = [d] ++ ',' :: groupThousands t := by
  rw [groupThousands, if_pos ⟨hne, h⟩]
  rfl

theorem groupThousands_of_not_full (h : t.length % 3 ≠ 0) :
    groupThousands (d :: t) = d :: groupThousands t := by
  rw [groupThousands, if_neg fun hand => h hand.2]

/-- The groups have all the digits, so that the length tells whether the first group is full. -/
theorem exists_groups (h : isDigits t = true) :
    ∃ first rest, Text.fields ',' (groupThousands t) = first :: rest ∧ Groups first rest ∧
      first.length + 3 * rest.length = t.length := by
  induction t with
  | nil => cases h
  | cons d t ih =>
    obtain ⟨-, hall⟩ := isDigits_iff.mp h
    obtain ⟨hd, ht⟩ := Bool.and_eq_true_iff.mp hall
    have hcomma : ',' ∉ [d] := by
      rw [List.mem_singleton]
      rintro rfl
      cases hd
    by_cases hnil : t = []
    · subst hnil
      exact ⟨[d], [], Text.fields_of_not_mem hcomma, groups_singleton hd, rfl⟩
    · obtain ⟨first, rest, hfields, hgroups, hlength⟩ := ih (isDigits_iff.mpr ⟨hnil, ht⟩)
      have hpos := length_pos_of_isDigits hgroups.first_digits
      have hle := hgroups.first_le
      -- The first group is full when the other digits are groups of three throughout.
      by_cases hfull : t.length % 3 = 0
      · refine ⟨[d], first :: rest, ?_, hgroups.next hd (by omega), ?_⟩
        · rw [groupThousands_of_full hnil hfull, Text.fields_append hcomma, hfields]
        · simp only [List.length_cons, List.length_nil]
          omega
      · refine ⟨d :: first, rest, ?_, hgroups.cons hd (by omega), ?_⟩
        · rw [groupThousands_of_not_full hfull, Text.fields_cons_of_ne _ hfields]
          rintro rfl
          exact hcomma (List.mem_singleton_self _)
        · simp only [List.length_cons]
          omega

theorem grouped_groupThousands (h : isDigits t = true) : Grouped (groupThousands t) := by
  obtain ⟨first, rest, hfields, hgroups, -⟩ := exists_groups h
  exact ⟨first, rest, hfields, hgroups⟩

theorem delete_groupThousands (h : ',' ∉ t) : Text.delete ',' (groupThousands t) = t := by
  induction t with
  | nil => rfl
  | cons d t ih =>
    simp only [List.mem_cons, not_or] at h
    have hd : d ≠ ',' := Ne.symm h.1
    rw [groupThousands]
    split
    · rw [Text.delete_cons_of_ne hd, Text.delete_cons_self, ih h.2]
    · rw [Text.delete_cons_of_ne hd, ih h.2]

end Stencil.Money
