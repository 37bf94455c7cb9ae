import Mathlib.Data.List.TakeWhile
import Stencil.Decimal.Reader
import Stencil.Proofs.Fallible
import Stencil.Proofs.Text.Numeral

/-!
# Numerals read as decimals

A numeral is read piece by piece: its digits, with or without a point among them, and the power of
ten behind them. An integer that is written out is read as itself at scale 0.
-/

namespace Stencil

theorem Text.trim_eq_self {t : Text} (h : ∀ c ∈ t, Text.isBlank c = false) : Text.trim t = t := by
  have hstart {u : Text} (hu : ∀ c ∈ u, Text.isBlank c = false) : u.dropWhile isBlank = u := by
    cases u with
    | nil => rfl
    | cons c u => rw [List.dropWhile_cons, hu c List.mem_cons_self, if_neg Bool.false_ne_true]
  have hend := hstart (u := t.reverse) fun c hc => h c (List.mem_reverse.mp hc)
  rw [trim, trimStart, hstart h, trimEnd, dropEndWhile, hend, List.reverse_reverse]

theorem Text.mem_of_mem_trim {t : Text} {c : Char} (h : c ∈ Text.trim t) : c ∈ t := by
  have hstart := (List.dropWhile_sublist Text.isBlank (l := t)).subset
  have hend := (List.dropWhile_sublist Text.isBlank (l := (Text.trimStart t).reverse)).subset
  exact hstart (List.mem_reverse.mp (hend (List.mem_reverse.mp h)))

namespace Decimal
open Numeral

/-! ## Digits -/

theorem readNatural_digits {t : Text} (h : isDigits t = true) :
    readNatural t = .ok (Numeral.value t) := by
  obtain ⟨hne, hall⟩ := isDigits_iff.mp h
  obtain ⟨d, digits, rfl⟩ := List.exists_cons_of_ne_nil hne
  have hunderscore : ∀ c ∈ d :: digits, c ≠ '_' := fun c hc =>
    forall_isDigit (P := fun c => c ≠ '_') (by decide) (List.all_eq_true.mp hall c hc)
  have hhead : d ≠ '_' := hunderscore d List.mem_cons_self
  have hchars : (d :: digits).all (fun c => c.isDigit || c == '_') = true :=
    List.all_eq_true.mpr fun c hc => by rw [List.all_eq_true.mp hall c hc, Bool.true_or]
  have hkept : (d :: digits).filter (· != '_') = d :: digits :=
    List.filter_eq_self.mpr fun c hc => bne_iff_ne.mpr (hunderscore c hc)
  unfold readNatural
  rw [if_neg (by simp), if_neg (by simp [hhead, hchars]), hkept]

/-- Digits with a sign are read as the integer that they denote. -/
theorem readInteger_signedDigits {t : Text} {n : Int} (h : SignedDigits t n) :
    readInteger t = .ok n := by
  cases h with
  | minus h =>
    rw [readInteger, readNatural_digits h]
    rfl
  | plus h =>
    rw [readInteger, readNatural_digits h]
    rfl
  | bare h =>
    obtain ⟨hne, hall⟩ := isDigits_iff.mp h
    obtain ⟨d, digits, rfl⟩ := List.exists_cons_of_ne_nil hne
    obtain ⟨hminus, hplus⟩ := not_sign_of_isDigit (List.all_eq_true.mp hall d List.mem_cons_self)
    rw [readInteger, readNatural_digits h]
    · rfl
    · rintro t' ⟨⟩
      exact hminus rfl
    · rintro t' ⟨⟩
      exact hplus rfl

/-! ## Points and powers of ten -/

theorem splitPoint_of_no_point {t : Text} (h : '.' ∉ t) : splitPoint t = (t, 0) := by
  have hnone : Text.splitOnce? '.' t = none := by
    induction t with
    | nil => rfl
    | cons c t ih =>
      simp only [List.mem_cons, not_or] at h
      rw [Text.splitOnce?, if_neg (Ne.symm h.1), ih h.2]
      rfl
  rw [splitPoint, hnone]

theorem splitPoint_append {whole fraction : Text} (h : '.' ∉ whole)
    (hdigits : fraction.all Char.isDigit = true) :
    splitPoint (whole ++ '.' :: fraction) = (whole ++ fraction, fraction.length) := by
  have hkept : fraction.filter (· != '_') = fraction :=
    List.filter_eq_self.mpr fun c hc => bne_iff_ne.mpr
      (forall_isDigit (P := fun c => c ≠ '_') (by decide) (List.all_eq_true.mp hdigits c hc))
  rw [splitPoint, Text.splitOnce?_append whole fraction h]
  simp only [hkept]

/-- What stands behind the digits of a numeral, and the power of ten that it means. -/
inductive PowerText : Text → Int → Prop
  | absent : PowerText [] 0
  | written {mark : Char} {t : Text} {power : Int} (hmark : isPowerMark mark = true)
      (h : readPower t = .ok power) : PowerText (mark :: t) power

theorem readPower_signedDigits {t : Text} {n : Int} (h : SignedDigits t n)
    (hleast : -(2 ^ 127) ≤ n) (hmost : n < 2 ^ 127) : readPower t = .ok n := by
  have hne : t.isEmpty = false := by
    rw [List.isEmpty_eq_false_iff]
    cases h with
    | bare h => exact (isDigits_iff.mp h).1
    | plus _ | minus _ => exact List.cons_ne_nil _ _
  have hpow : Nat.pow 2 127 = 170141183460469231731687303715884105728 := by decide
  unfold readPower
  rw [if_neg (by simp [hne]), h.toInt?_eq]
  dsimp only
  rw [if_neg (by omega), if_neg (by omega)]

theorem powerText_signedDigits {t : Text} {n : Int} (h : SignedDigits t n)
    (hleast : -(2 ^ 127) ≤ n) (hmost : n < 2 ^ 127) : PowerText ('e' :: t) n :=
  .written rfl (readPower_signedDigits h hleast hmost)

/-- A numeral from its parts. -/
theorem read_append {mantissa digits rest : Text} {places : Nat} {n power : Int}
    (hmantissa : ∀ c ∈ mantissa, isPowerMark c = false) (hne : mantissa ≠ [])
    (hpoint : splitPoint mantissa = (digits, places)) (hdigits : readInteger digits = .ok n)
    (hrest : PowerText rest power) (hfits : FitsSigned (places - power)) :
    read (mantissa ++ rest) = .ok ⟨n, places - power⟩ := by
  have hall : ∀ c ∈ mantissa, (!isPowerMark c) = true := fun c hc => by rw [hmantissa c hc]; rfl
  have hempty : mantissa.isEmpty = false := List.isEmpty_eq_false_iff.mpr hne
  have hparts : (mantissa ++ rest).takeWhile (fun c => !isPowerMark c) = mantissa ∧
      (mantissa ++ rest).dropWhile (fun c => !isPowerMark c) = rest := by
    rw [List.takeWhile_append_of_pos hall, List.dropWhile_append_of_pos hall]
    cases hrest with
    | absent => simp
    | written hmark _ => simp [hmark]
  unfold read
  rw [hparts.1, hparts.2]
  cases hrest with
  | absent =>
    rw [Int.sub_zero] at hfits ⊢
    simp [hempty, hpoint, hdigits, hfits, bind, pure, Except.bind, Except.pure]
  | written hmark h =>
    simp [hempty, hpoint, hdigits, hfits, h, bind, pure, Except.bind, Except.pure]

/-- Without a power of ten no number has a negative scale. -/
theorem scale_nonneg_of_read {t : Text} {d : Decimal} (hpower : ∀ c ∈ t, isPowerMark c = false)
    (h : read t = .ok d) : 0 ≤ d.scale := by
  have hrest : t.dropWhile (fun c => !isPowerMark c) = [] :=
    List.dropWhile_eq_nil_iff.mpr fun c hc => by rw [hpower c hc]; rfl
  unfold read at h
  rw [hrest] at h
  simp only [List.isEmpty_nil, if_true, pure_bind] at h
  split at h
  · cases h
  · split at h
    · cases h
    · obtain ⟨n, -, h⟩ := Fallible.bind_eq_ok_iff.mp h
      rw [← Except.ok.inj h, Int.sub_zero]
      exact Int.natCast_nonneg _

/-- Digits with at most one point among them, the digits alone, and how many stand after it. -/
inductive Mantissa : Text → Text → Nat → Prop
  | plain {digits : Text} (h : isDigits digits = true) : Mantissa digits digits 0
  | pointed {whole fraction : Text} (hwhole : isDigits whole = true)
      (hfraction : isDigits fraction = true) :
      Mantissa (whole ++ '.' :: fraction) (whole ++ fraction) fraction.length

section
variable {mantissa digits : Text} {places : Nat}

theorem isDigits_append {t u : Text} (ht : isDigits t = true) (hu : isDigits u = true) :
    isDigits (t ++ u) = true := by
  rw [isDigits_iff] at ht hu ⊢
  exact ⟨List.append_ne_nil_of_left_ne_nil ht.1 u, by rw [List.all_append, ht.2, hu.2]; rfl⟩

theorem Mantissa.isDigits (h : Mantissa mantissa digits places) : isDigits digits = true := by
  cases h with
  | plain h => exact h
  | pointed hwhole hfraction => exact isDigits_append hwhole hfraction

theorem Mantissa.forall_mem (h : Mantissa mantissa digits places) {c : Char} (hc : c ∈ mantissa) :
    c = '.' ∨ c.isDigit = true := by
  cases h with
  | plain h => exact .inr (List.all_eq_true.mp (isDigits_iff.mp h).2 c hc)
  | pointed hwhole hfraction =>
    rcases List.mem_append.mp hc with hc | hc
    · exact .inr (List.all_eq_true.mp (isDigits_iff.mp hwhole).2 c hc)
    · rcases List.mem_cons.mp hc with rfl | hc
      · exact .inl rfl
      · exact .inr (List.all_eq_true.mp (isDigits_iff.mp hfraction).2 c hc)

theorem Mantissa.splitPoint (h : Mantissa mantissa digits places) {sign : Text}
    (hsign : '.' ∉ sign) : splitPoint (sign ++ mantissa) = (sign ++ digits, places) := by
  have hpoint {t : Text} (ht : Numeral.isDigits t = true) : '.' ∉ sign ++ t := by
    intro hc
    rcases List.mem_append.mp hc with hc | hc
    · exact hsign hc
    · have hdigit := List.all_eq_true.mp (isDigits_iff.mp ht).2 '.' hc
      cases hdigit
  cases h with
  | plain h => exact splitPoint_of_no_point (hpoint h)
  | pointed hwhole hfraction =>
    rw [← List.append_assoc, splitPoint_append (hpoint hwhole) (isDigits_iff.mp hfraction).2,
      List.append_assoc]

/-- The sign in front of a number. -/
def signText (negative : Bool) : Text := if negative then ['-'] else []

/-- A numeral with a point and a power of ten is read as its digits at the scale of its last one. -/
theorem read_mantissa (negative : Bool) {rest : Text} {power : Int}
    (h : Mantissa mantissa digits places) (hrest : PowerText rest power)
    (hfits : FitsSigned (places - power)) :
    read (signText negative ++ (mantissa ++ rest)) =
      .ok ⟨if negative then -(Numeral.value digits : Int) else Numeral.value digits,
        places - power⟩ := by
  have hchars : ∀ c ∈ signText negative ++ mantissa, isPowerMark c = false := by
    intro c hc
    rcases List.mem_append.mp hc with hc | hc
    · cases negative with
      | false => cases hc
      | true =>
        rw [List.mem_singleton.mp hc]
        rfl
    · rcases h.forall_mem hc with rfl | hdigit
      · rfl
      · exact forall_isDigit (P := fun c => isPowerMark c = false) (by decide) hdigit
  have hsign : '.' ∉ signText negative := by cases negative <;> decide
  have hne : signText negative ++ mantissa ≠ [] := by
    apply List.append_ne_nil_of_right_ne_nil
    cases h with
    | plain h => exact (isDigits_iff.mp h).1
    | pointed hwhole _ => exact List.append_ne_nil_of_left_ne_nil (isDigits_iff.mp hwhole).1 _
  have hsigned : SignedDigits (signText negative ++ digits)
      (if negative then -(Numeral.value digits : Int) else Numeral.value digits) := by
    cases negative with
    | false => exact .bare h.isDigits
    | true => exact .minus h.isDigits
  rw [← List.append_assoc]
  exact read_append hchars hne (h.splitPoint hsign) (readInteger_signedDigits hsigned) hrest hfits

end

/-- An integer that is written out is read as itself. -/
theorem read_signedDigits {t : Text} {n : Int} (h : SignedDigits t n) : read t = .ok ⟨n, 0⟩ := by
  have hchars : ∀ c ∈ t, isPowerMark c = false ∧ c ≠ '.' := by
    intro c hc
    rcases h.forall_mem hc with rfl | rfl | hdigit
    · decide
    · decide
    · exact forall_isDigit (P := fun c => isPowerMark c = false ∧ c ≠ '.') (by decide) hdigit
  have hne : t ≠ [] := by
    cases h with
    | bare h => exact (isDigits_iff.mp h).1
    | plus _ | minus _ => exact List.cons_ne_nil _ _
  have hread := read_append (fun c hc => (hchars c hc).1) hne
    (splitPoint_of_no_point fun hc => (hchars '.' hc).2 rfl) (readInteger_signedDigits h)
    .absent (by decide)
  rwa [List.append_nil] at hread

end Decimal
end Stencil
