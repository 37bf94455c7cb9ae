import Mathlib.Data.Int.Notation
import Stencil.Proofs.Text.Fields
import Stencil.Proofs.Text.Numeral
import Stencil.Toolkit

/-!
# Integers as operands

Main statement: an integer of a signed 64-bit word means the same as a number and as a text, with
blanks around it or not. Beyond the signed words the text is refused, while the number stands for
the greatest of them.
-/

namespace Stencil.Toolkit
open Numeral
variable {helper name : Text} {n : ℤ} {value source : Json} {before after : Text}

/-! ## Numbers and texts -/

theorem integerArgument_number (helper : Text) (n : Number) :
    integerArgument helper (.number n) = .ok n.toSigned := rfl

theorem isBlank_of_mem_ofInt {c : Char} (hc : c ∈ ofInt n) : Text.isBlank c = false :=
  forall_numeral_char (P := fun c => Text.isBlank c = false) (by decide)
    (.inr (.inr ((signedDigits_ofInt n).forall_mem hc)))

/-- A text is read without the blanks around it, and refused with them. -/
theorem integerArgument_text (hbefore : ∀ c ∈ before, Text.isBlank c = true)
    (hafter : ∀ c ∈ after, Text.isBlank c = true) (helper : Text) (n : ℤ) :
    integerArgument helper (.string (before ++ ofInt n ++ after)) =
      if FitsSigned n then .ok n
      else .error (.illegalArgumentType helper (before ++ ofInt n ++ after)) := by
  have htrim : Text.trim (before ++ ofInt n ++ after) = ofInt n :=
    Text.trim_append hbefore hafter (fun _ hc => isBlank_of_mem_ofInt (List.mem_of_head? hc))
      fun _ hc => isBlank_of_mem_ofInt (List.mem_of_getLast? hc)
  unfold integerArgument
  simp only [htrim, toSigned?_ofInt]
  by_cases h : FitsSigned n
  · rw [if_pos h, if_pos h]
  · rw [if_neg h, if_neg h]
    rfl

/-- The operands mean one integer, or both are refused as being of the wrong type. -/
def Agree (helper : Text) (n : ℤ) (value value' : Json) : Prop :=
  (integerArgument helper value = .ok n ∧ integerArgument helper value' = .ok n) ∨
    ((∃ found, integerArgument helper value = .error (.illegalArgumentType helper found)) ∧
      ∃ found, integerArgument helper value' = .error (.illegalArgumentType helper found))

/-- Both forms mean an integer of a signed word, and of the others only the text is refused. -/
theorem agree_iff (hn : Number.Exact n) (hbefore : ∀ c ∈ before, Text.isBlank c = true)
    (hafter : ∀ c ∈ after, Text.isBlank c = true) :
    Agree helper n (.number (.integer n hn)) (.string (before ++ ofInt n ++ after)) ↔
      n ≤ 9223372036854775807 := by
  have hfits : FitsSigned n ↔ n ≤ 9223372036854775807 := and_iff_right hn.1
  rw [Agree, integerArgument_number, integerArgument_text hbefore hafter, ← hfits]
  by_cases h : FitsSigned n
  · rw [if_pos h, iff_true_right h, Number.toSigned, clampSigned_of_fits h]
    exact .inl ⟨rfl, rfl⟩
  · rw [if_neg h, iff_false_right h]
    rintro (⟨-, htext⟩ | ⟨⟨found, hnumber⟩, -⟩)
    · cases htext
    · cases hnumber

/-! ## Amounts and lengths -/

/-- The operand is the integer where an amount of money or the length of a cut is asked for. -/
def Means (n : ℤ) (value : Json) : Prop :=
  (∀ name style, amount name style [value] = .ok (Money.print style n)) ∧
    ∀ source, truncate [value, source] = Excerpt.truncate n source.text

theorem amount_singleton (h : isEmpty (some value) = false) (name : Text) (style : Money.Style) :
    amount name style [value] = (integerArgument name value).map (Money.print style) := by
  unfold amount
  dsimp only
  rw [h, if_neg Bool.false_ne_true]

theorem truncate_pair (value source : Json) :
    truncate [value, source] =
      integerArgument "truncate".toList value >>= fun limit =>
        Excerpt.truncate limit source.text := rfl

theorem means_of_integerArgument (hvalue : isEmpty (some value) = false)
    (h : ∀ helper, integerArgument helper value = .ok n) : Means n value := by
  constructor
  · intro name style
    rw [amount_singleton hvalue, h]
    rfl
  · intro source
    rw [truncate_pair, h]
    rfl

theorem isEmpty_string {t : Text} (h : t ≠ []) : isEmpty (some (.string t)) = false := by
  obtain ⟨c, t, rfl⟩ := List.exists_cons_of_ne_nil h
  rfl

/-- An integer that a number holds exactly is read from the number as the nearest one of a signed
word, and from its text, with any blanks around it, only when it is one; so the two forms agree up
to the greatest one, and are then the same amount of money and the same length of a cut. -/
theorem integerArgument_forms (helper : Text) (hn : Number.Exact n)
    (hbefore : ∀ c ∈ before, Text.isBlank c = true)
    (hafter : ∀ c ∈ after, Text.isBlank c = true) :
    integerArgument helper (.number (.integer n hn)) = .ok (clampSigned n) ∧
    integerArgument helper (.string (before ++ ofInt n ++ after)) =
      (if FitsSigned n then .ok n
        else .error (.illegalArgumentType helper (before ++ ofInt n ++ after))) ∧
    (Agree helper n (.number (.integer n hn)) (.string (before ++ ofInt n ++ after)) ↔
      n ≤ 9223372036854775807) ∧
    (n ≤ 9223372036854775807 →
      Means n (.number (.integer n hn)) ∧ Means n (.string (before ++ ofInt n ++ after))) := by
  have htext := integerArgument_text hbefore hafter
  refine ⟨integerArgument_number helper _, htext helper n, agree_iff hn hbefore hafter, ?_⟩
  intro hle
  have hfits : FitsSigned n := ⟨hn.1, hle⟩
  constructor
  · apply means_of_integerArgument rfl
    intro helper
    rw [integerArgument_number, Number.toSigned, clampSigned_of_fits hfits]
  · apply means_of_integerArgument
    · apply isEmpty_string
      exact List.append_ne_nil_of_left_ne_nil
        (List.append_ne_nil_of_right_ne_nil _ (ofInt_ne_nil n)) _
    · intro helper
      rw [htext, if_pos hfits]

/-- The greatest integer of a signed word, with blanks around its text. -/
theorem integerArgument_forms_greatest :
    Number.Exact 9223372036854775807 ∧ (∀ c ∈ [' ', '\t'], Text.isBlank c = true) ∧
      (∀ c ∈ ['\n'], Text.isBlank c = true) ∧
      Agree "truncate".toList 9223372036854775807
        (.number (.integer 9223372036854775807 (by decide)))
        (.string " \t9223372036854775807\n".toList) ∧
      Means 9223372036854775807 (.string " \t9223372036854775807\n".toList) := by
  have hn : Number.Exact 9223372036854775807 := by decide
  have hbefore : ∀ c ∈ [' ', '\t'], Text.isBlank c = true := List.all_eq_true.mp (by decide)
  have hafter : ∀ c ∈ ['\n'], Text.isBlank c = true := List.all_eq_true.mp (by decide)
  obtain ⟨-, -, hagree, hmeans⟩ := integerArgument_forms "truncate".toList hn hbefore hafter
  exact ⟨hn, hbefore, hafter, hagree.mpr (by decide), (hmeans (by decide)).2⟩

/-- The integer after the greatest signed word is another amount as a number, and none as a text. -/
theorem integerArgument_clamped :
    ¬ Agree "dollarsAndCentsPlain".toList 9223372036854775808
        (.number (.integer 9223372036854775808 (by decide)))
        (.string "9223372036854775808".toList) ∧
      integerArgument "dollarsAndCentsPlain".toList (.string "9223372036854775808".toList) =
        .error (.illegalArgumentType "dollarsAndCentsPlain".toList
          "9223372036854775808".toList) ∧
      amount "dollarsAndCentsPlain".toList Money.plain
        [.number (.integer 9223372036854775808 (by decide))] =
          .ok "92233720368547758.07".toList := by
  refine ⟨?_, by decide, by decide⟩
  rintro (⟨-, htext⟩ | ⟨⟨found, hnumber⟩, -⟩)
  · exact absurd htext (by decide)
  · cases hnumber

end Stencil.Toolkit
