import Stencil.Encoding.Form
import Stencil.Proofs.Text.Hexadecimal

/-!
# Form encoding read back

What stands in a form-encoded text is told by a grammar, and a reader gives the bytes that such a
text stands for. Main statement: encoding gives a text of the grammar, the reader gives back
exactly the UTF-8 bytes of what was encoded, so that no two texts are encoded alike, and a text in
two parts is encoded part by part.
-/

namespace Stencil.Encoding
variable {c : Char} {t : Text} {b : UInt8}

/-- The characters that stand for themselves: letters and digits of ASCII and four marks. -/
def IsPlain (c : Char) : Prop := c.isAlphanum = true ∨ c ∈ "*-._".toList

instance : DecidablePred IsPlain := fun _ => inferInstanceAs (Decidable (_ ∨ _))

def IsUpperDigit (c : Char) : Prop := c ∈ "0123456789ABCDEF".toList

instance : DecidablePred IsUpperDigit := fun _ => inferInstanceAs (Decidable (_ ∈ _))

/-- The form-encoded texts: plain characters, plus signs, and percent signs with two upper-case
hexadecimal digits each. -/
inductive FormText : Text → Prop
  | empty : FormText []
  | plain {c : Char} {t : Text} (hc : IsPlain c) (rest : FormText t) : FormText (c :: t)
  | space {t : Text} (rest : FormText t) : FormText ('+' :: t)
  | percent {high low : Char} {t : Text} (hhigh : IsUpperDigit high) (hlow : IsUpperDigit low)
    (rest : FormText t) : FormText ('%' :: high :: low :: t)

/-- The bytes that a form-encoded text stands for: a space for each plus sign, the byte of the two
digits behind a percent sign, and the UTF-8 form of any other character. -/
def formDecode? : Text → Option (List UInt8)
  | [] => some []
  | '+' :: t => (formDecode? t).map (32 :: ·)
  | '%' :: high :: low :: t => do
    let (n, _) ← Hexadecimal.take? 2 0 [high, low]
    (formDecode? t).map (UInt8.ofNat n :: ·)
  | '%' :: _ => none
  | c :: t => (formDecode? t).map (String.utf8EncodeChar c ++ ·)

theorem formDecode?_cons_of_ne (hpercent : c ≠ '%') (hplus : c ≠ '+') (t : Text) :
    formDecode? (c :: t) = (formDecode? t).map (String.utf8EncodeChar c ++ ·) := by
  rw [formDecode?]
  · exact hplus
  · exact fun _ _ _ hc _ => hpercent hc
  · exact hpercent

/-! ## One byte -/

/-- What holds of the bytes with the numbers below 256 holds of each byte. -/
theorem forall_byte {P : UInt8 → Prop} (h : ∀ n < 256, P (UInt8.ofNat n)) (b : UInt8) : P b := by
  have hb := h b.toNat b.toNat_lt
  rwa [UInt8.ofNat_toNat] at hb

theorem isPlain_of_isPlainByte (h : isPlainByte b = true) : IsPlain (Char.ofNat b.toNat) := by
  revert h
  exact forall_byte (P := fun b => isPlainByte b = true → IsPlain (Char.ofNat b.toNat))
    (by decide +kernel) b

theorem utf8EncodeChar_of_isPlainByte (h : isPlainByte b = true) :
    String.utf8EncodeChar (Char.ofNat b.toNat) = [b] := by
  revert h
  exact forall_byte
    (P := fun b => isPlainByte b = true → String.utf8EncodeChar (Char.ofNat b.toNat) = [b])
    (by decide +kernel) b

/-- The signs that the reader looks for are not plain. -/
theorem IsPlain.ne_sign (h : IsPlain c) : c ≠ '%' ∧ c ≠ '+' := by
  constructor
  all_goals
    rintro rfl
    exact absurd h (by decide)

theorem isUpperDigit_upperDigit : ∀ n < 16, IsUpperDigit (Hexadecimal.upperDigit n) := by decide

theorem upperDigits_two (n : Nat) :
    Hexadecimal.upperDigits 2 n =
      [Hexadecimal.upperDigit (n / 16 % 16), Hexadecimal.upperDigit (n % 16)] := rfl

theorem FormText.formByte_append (h : FormText t) (b : UInt8) : FormText (formByte b ++ t) := by
  unfold formByte
  split
  · next hplain => exact .plain (isPlain_of_isPlainByte hplain) h
  · split
    · exact .space h
    · rw [upperDigits_two]
      exact .percent (isUpperDigit_upperDigit _ (Nat.mod_lt _ (by decide)))
        (isUpperDigit_upperDigit _ (Nat.mod_lt _ (by decide))) h

/-- The reader takes one encoded byte off the front. -/
theorem formDecode?_formByte_append (b : UInt8) (t : Text) :
    formDecode? (formByte b ++ t) = (formDecode? t).map (b :: ·) := by
  unfold formByte
  split
  · next hplain =>
    obtain ⟨hpercent, hplus⟩ := (isPlain_of_isPlainByte hplain).ne_sign
    rw [List.singleton_append, formDecode?_cons_of_ne hpercent hplus,
      utf8EncodeChar_of_isPlainByte hplain]
    rfl
  · split
    · next hspace =>
      have hb : b = 32 := UInt8.toNat_inj.mp hspace
      rw [hb, List.singleton_append, formDecode?]
    · have hdigits := Hexadecimal.take?_upperDigits 2 0 b.toNat
      have hvalue : UInt8.ofNat (0 * Nat.pow 16 2 + b.toNat % Nat.pow 16 2) = b := by
        rw [Nat.zero_mul, Nat.zero_add, Nat.mod_eq_of_lt b.toNat_lt, UInt8.ofNat_toNat]
      rw [upperDigits_two] at hdigits ⊢
      rw [List.cons_append, List.cons_append, List.singleton_append, formDecode?, hdigits,
        Option.bind_eq_bind, Option.bind_some]
      dsimp only
      rw [hvalue]

/-! ## Bytes and texts -/

theorem formText_formBytes (bytes : List UInt8) : FormText (formBytes bytes) := by
  induction bytes with
  | nil => exact .empty
  | cons b bytes ih => exact ih.formByte_append b

theorem formDecode?_formBytes (bytes : List UInt8) :
    formDecode? (formBytes bytes) = some bytes := by
  induction bytes with
  | nil => rfl
  | cons b bytes ih =>
    have hrest : formDecode? (bytes.flatMap formByte) = some bytes := ih
    rw [formBytes, List.flatMap_cons, formDecode?_formByte_append, hrest, Option.map_some]

theorem form_injective : Function.Injective form := by
  intro s t h
  have hread := formDecode?_formBytes (Utf8.encode s)
  rw [← form, h, form, formDecode?_formBytes] at hread
  exact Utf8.encode_inj.mp (Option.some.inj hread).symm

theorem IsPlain.toNat_lt (h : IsPlain c) : c.toNat < 128 := by
  rcases h with h | h
  · have hcode : ((decide (c.val ≥ 'A'.val ∧ c.val ≤ 'Z'.val) ||
        (decide (c.val ≥ 'a'.val) && decide (c.val ≤ 'z'.val))) ||
        (decide (c.val ≥ '0'.val) && decide (c.val ≤ '9'.val))) = true := h
    simp only [Bool.or_eq_true, Bool.and_eq_true, decide_eq_true_eq, ge_iff_le,
      UInt32.le_iff_toNat_le, Char.reduceVal, UInt32.reduceToNat] at hcode
    rw [← Char.toNat_val]
    omega
  · have hall : "*-._".toList.all (fun d => d.toNat < 128) = true := by decide
    exact of_decide_eq_true (List.all_eq_true.mp hall c h)

theorem form_of_isPlain (h : IsPlain c) : form [c] = [c] := by
  have hall : ∀ n < 128, IsPlain (Char.ofNat n) → form [Char.ofNat n] = [Char.ofNat n] := by
    decide +kernel
  have hc := hall c.toNat h.toNat_lt
  rw [Char.ofNat_toNat] at hc
  exact hc h

/-- Form encoding is reversible. What it gives is a form-encoded text, and reading that gives the
UTF-8 bytes of what was encoded, so that different texts are encoded differently. Plain characters
are left as they are, and texts one after the other are encoded one after the other. -/
theorem form_reversible :
    (∀ t, FormText (form t)) ∧ (∀ t, formDecode? (form t) = some (Utf8.encode t)) ∧
      Function.Injective form ∧ (∀ c, IsPlain c → form [c] = [c]) ∧
      ∀ s t, form (s ++ t) = form s ++ form t :=
  ⟨fun _ => formText_formBytes _, fun _ => formDecode?_formBytes _, form_injective,
    fun _ => form_of_isPlain, form_append⟩

/-- A letter of two bytes, a space and a plus sign. -/
example : form "é +".toList = "%C3%A9+%2B".toList := by decide +kernel

end Stencil.Encoding
