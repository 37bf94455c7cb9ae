import Stencil.Json.Basic
import Stencil.Proofs.Binary64.Scientific
import Stencil.Proofs.Json.Grammar
import Stencil.Proofs.Text.Numeral
import Stencil.Proofs.Yaml.PlainText
import Stencil.Yaml.Meaning

/-!
# Numerals as plain text

An integer can be written without quotes, and as a plain text it denotes itself.
-/

namespace Stencil.Yaml

/-! ## Without quotes -/

theorem forall_ofInt_char {p : Char → Bool} (h : "-0123456789".toList.all p = true) (n : Int) :
    ∀ e ∈ Numeral.ofInt n, p e = true := by
  intro e he
  refine List.all_eq_true.mp h e ?_
  rw [Numeral.ofInt_eq] at he
  rcases List.mem_append.mp he with he | he
  · split at he
    · exact List.mem_singleton.mp he ▸ List.mem_cons_self
    · cases he
  · have hdigit := List.all_eq_true.mp (Numeral.all_isDigit_ofNat n.natAbs) e he
    exact List.mem_cons_of_mem '-' (Numeral.mem_digits_of_isDigit hdigit)

/-- What no character of an integer is, is neither its first nor its last one. -/
theorem ends_ofInt_ne {d : Char} (h : "-0123456789".toList.all (· != d) = true) (n : Int) :
    (Numeral.ofInt n).head? ≠ some d ∧ (Numeral.ofInt n).getLast? ≠ some d := by
  have hmem : d ∉ Numeral.ofInt n := fun hd => by simpa using forall_ofInt_char h n d hd
  exact ⟨fun hd => hmem (List.mem_of_mem_head? hd), fun hd => hmem (List.mem_of_getLast? hd)⟩

theorem Scalar.hasPair_ofInt {p q : Char → Bool}
    (h : "-0123456789".toList.all (!p ·) = true ∨ "-0123456789".toList.all (!q ·) = true)
    (n : Int) : Scalar.hasPair p q (Numeral.ofInt n) = false := by
  rw [← Bool.not_eq_true, Scalar.hasPair_iff]
  rintro ⟨before, x, y, after, hsplit, hx, hy⟩
  rcases h with h | h
  · have hfirst := forall_ofInt_char h n x (by rw [hsplit]; simp)
    rw [hx] at hfirst
    cases hfirst
  · have hsecond := forall_ofInt_char h n y (by rw [hsplit]; simp)
    rw [hy] at hsecond
    cases hsecond

/-- The dash of a negative integer is followed by a digit, so that it is no mark. -/
theorem Scalar.startsWithMark_ofInt (n : Int) :
    Scalar.startsWithMark (Numeral.ofInt n) = false := by
  have hdigits := Numeral.all_isDigit_ofNat n.natAbs
  obtain ⟨d, digits, hcons⟩ := List.exists_cons_of_ne_nil (Numeral.ofNat_ne_nil n.natAbs)
  rw [hcons, List.all_eq_true] at hdigits
  obtain ⟨hdash, hpoint, hquestion, hspace, hbreak, hother⟩ := Numeral.forall_isDigit
    (P := fun d => d ≠ '-' ∧ d ≠ '.' ∧ d ≠ '?' ∧ isSpace d = false ∧ isBreak d = false ∧
      "#,[]\x7b\x7d&*!|>'\"%@`".toList.contains d = false) (by decide)
    (hdigits d List.mem_cons_self)
  rw [Numeral.ofInt_eq, hcons, Scalar.startsWithMark]
  split
  · simp [Text.startsWith, Text.afterPrefix?, startsWithWord, endsWord, hspace, hbreak,
      hdash.symm]
  · simp only [Text.startsWith, startsWithWord, List.nil_append, List.head?_cons,
      Option.any_some, hother]
    simp [Text.afterPrefix?, hdash.symm, hpoint.symm, hquestion.symm]

theorem canBePlain_ofInt (n : Int) : Scalar.canBePlain (Numeral.ofInt n) = true := by
  have hprintable : (Numeral.ofInt n).all (fun e => Scalar.isPrintable e && !isBreak e) = true :=
    List.all_eq_true.mpr (forall_ofInt_char (by decide) n)
  simp only [Scalar.canBePlain, Bool.and_eq_true, Bool.not_eq_true', List.isEmpty_eq_false_iff,
    hprintable, Scalar.hasOuterSpace, Scalar.hasWordMark, Bool.or_eq_false_iff,
    decide_eq_false_iff_not]
  exact ⟨⟨⟨⟨Numeral.ofInt_ne_nil n, trivial⟩, ends_ofInt_ne (by decide) n⟩,
    Scalar.startsWithMark_ofInt n⟩,
    ⟨Scalar.hasPair_ofInt (.inr (by decide)) n, Scalar.hasPair_ofInt (.inl (by decide)) n⟩,
    (ends_ofInt_ne (by decide) n).2⟩

/-! ## As a value -/

theorem splitSign_ofInt (n : Int) :
    Scientific.splitSign (Numeral.ofInt n) = (decide (n < 0), Numeral.ofNat n.natAbs) := by
  rw [Numeral.ofInt_eq]
  by_cases h : n < 0
  · rw [if_pos h, decide_eq_true h]
    rfl
  · rw [if_neg h, decide_eq_false h, List.nil_append]
    exact Scientific.splitSign_digits (Numeral.all_isDigit_ofNat _)

namespace Meaning

theorem isZeroPadded_ofNat (n : Nat) : isZeroPadded (Numeral.ofNat n) = false := by
  rw [isZeroPadded, Scientific.splitSign_digits (Numeral.all_isDigit_ofNat n)]
  by_cases h : (Numeral.ofNat n).head? = some '0'
  · simp [Numeral.length_of_head?_ofNat h]
  · simp [h]

theorem ofDigits?_digits {t : Text} (hne : t ≠ []) (h : t.all Char.isDigit = true) :
    ofDigits? 10 t = some (Numeral.value t) := by
  have hfold (n : Nat) : t.foldlM (fun n c => do
      let d ← Hexadecimal.digitValue? c
      if d < 10 then some (n * 10 + d) else none) n = some (Nat.ofDigitChars 10 t n) := by
    clear hne
    induction t generalizing n with
    | nil => rfl
    | cons d t ih =>
      obtain ⟨hd, ht⟩ := Bool.and_eq_true_iff.mp h
      have hvalue : Hexadecimal.digitValue? d = some (d.toNat - 48) ∧ d.toNat - 48 < 10 :=
        Numeral.forall_isDigit (P := fun d => Hexadecimal.digitValue? d = some (d.toNat - 48) ∧
          d.toNat - 48 < 10) (by decide) hd
      rw [List.foldlM_cons, hvalue.1]
      simp only [Option.bind_eq_bind, Option.bind_some, if_pos hvalue.2]
      exact ih ht (n * 10 + (d.toNat - 48)) |>.trans
        (by rw [Nat.ofDigitChars_cons, Nat.mul_comm]; rfl)
  rw [ofDigits?, if_neg (by simpa using hne), hfold 0]
  rfl

theorem magnitude?_ofNat (n : Nat) : magnitude? (Numeral.ofNat n) = some n := by
  have hdigits := Numeral.all_isDigit_ofNat n
  have hten : (if isZeroPadded (Numeral.ofNat n) then none else ofDigits? 10 (Numeral.ofNat n)) =
      some n := by
    rw [isZeroPadded_ofNat, if_neg Bool.false_ne_true,
      ofDigits?_digits (Numeral.ofNat_ne_nil n) hdigits,
      Numeral.value_ofNat]
  have hbase (b : Char) (hb : b.isDigit = false) (t : Text) : Numeral.ofNat n ≠ '0' :: b :: t := by
    intro h
    rw [h, List.all_cons, List.all_cons, hb] at hdigits
    simp at hdigits
  rw [magnitude?]
  · exact hten
  · exact hbase 'x' rfl
  · exact hbase 'o' rfl
  · exact hbase 'b' rfl

theorem integer?_ofInt {n : Int} (h : Number.Exact n) : integer? (Numeral.ofInt n) = some n := by
  obtain ⟨hleast, hmost⟩ := h
  rw [integer?, splitSign_ofInt]
  dsimp only
  rw [magnitude?_ofNat]
  dsimp only
  by_cases hn : n < 0
  · have hfits : n.natAbs ≤ Nat.pow 2 127 := by
      have : Nat.pow 2 127 = 170141183460469231731687303715884105728 := by decide
      omega
    rw [decide_eq_true hn, if_pos rfl, if_pos hfits]
    congr 1
    omega
  · have hfits : n.natAbs < Nat.pow 2 128 := by
      have : Nat.pow 2 128 = 340282366920938463463374607431768211456 := by decide
      omega
    rw [decide_eq_false hn, if_neg Bool.false_ne_true, if_pos hfits]
    congr 1
    omega

/-- No word is an integer. -/
theorem ofText_ofInt {n : Int} (h : Number.Exact n) : ofText (Numeral.ofInt n) = .integer n := by
  obtain ⟨d, t, hcons, hd⟩ := Json.head?_ofInt n
  have hdigit : d ∈ "-0123456789".toList := by
    rcases hd with rfl | hd
    · decide
    · exact List.mem_cons_of_mem '-' (Numeral.mem_digits_of_isDigit hd)
  have hword (e : Char) (word : Text) (he : e ∉ "-0123456789".toList) :
      Numeral.ofInt n ≠ e :: word := by
    rw [hcons]
    rintro ⟨⟩
    exact he hdigit
  have hempty : (Numeral.ofInt n).isEmpty = false := by rw [hcons]; rfl
  have hnull : isNull (Numeral.ofInt n) = false := by
    simp only [isNull, Bool.or_eq_false_iff, decide_eq_false_iff_not]
    exact ⟨⟨⟨hword '~' [] (by decide), hword 'n' _ (by decide)⟩, hword 'N' _ (by decide)⟩,
      hword 'N' _ (by decide)⟩
  have hbool : bool? (Numeral.ofInt n) = none := by
    rw [bool?, if_neg, if_neg]
    · rintro (h | h | h)
      · exact hword 'f' _ (by decide) h
      · exact hword 'F' _ (by decide) h
      · exact hword 'F' _ (by decide) h
    · rintro (h | h | h)
      · exact hword 't' _ (by decide) h
      · exact hword 'T' _ (by decide) h
      · exact hword 'T' _ (by decide) h
  rw [ofText, hempty, hnull, Bool.or_false, if_neg Bool.false_ne_true, hbool]
  dsimp only
  rw [integer?_ofInt h]

end Meaning
end Stencil.Yaml
