import Mathlib.Algebra.Ring.Int.Defs
import Mathlib.Algebra.Ring.Nat
import Stencil.Text.Numeral

/-!
# Shape of numerals

A canonical numeral is a run of digits that starts with a zero only where it is the zero itself,
after a minus sign when the number is negative. Reading undoes writing, and the numeral that is
written is the only canonical one for its number.
-/

namespace Stencil.Numeral

theorem ofNat_ne_nil (n : Nat) : ofNat n ≠ [] := Nat.toDigits_ne_nil

theorem all_isDigit_ofNat (n : Nat) : (ofNat n).all Char.isDigit = true := by
  have h := isDigits_ofNat n
  simp only [isDigits, Bool.and_eq_true] at h
  exact h.2

theorem ofNat_of_lt {n : Nat} (h : n < 10) : ofNat n = [Nat.digitChar n] :=
  Nat.toDigits_of_lt_base h

theorem head?_ofNat_ne {n : Nat} (h : n ≠ 0) : (ofNat n).head? ≠ some '0' := by
  induction n using Nat.strongRecOn with
  | ind n ih =>
    by_cases hlt : n < 10
    · have hdigit : ∀ n < 10, n ≠ 0 → Nat.digitChar n ≠ '0' := by decide
      rw [ofNat_of_lt hlt]
      simpa using hdigit n hlt h
    · have hfront := ih (n / 10) (by omega) (by omega)
      rw [ofNat, Nat.toDigits_of_base_le (by decide) (by omega)]
      rw [ofNat] at hfront
      cases hdigits : Nat.toDigits 10 (n / 10) with
      | nil => exact absurd hdigits Nat.toDigits_ne_nil
      | cons d digits => rwa [hdigits] at hfront

/-- The first digit of a numeral is a zero only where the numeral is that one digit. -/
theorem length_of_head?_ofNat {n : Nat} (h : (ofNat n).head? = some '0') : (ofNat n).length = 1 := by
  by_cases hn : n = 0
  · rw [hn]
    rfl
  · exact absurd h (head?_ofNat_ne hn)

/-! ## Length -/

theorem length_ofNat_pos (n : Nat) : 0 < (ofNat n).length := Nat.length_toDigits_pos

theorem length_ofNat_le {n k : Nat} (hk : 0 < k) (h : n < 10 ^ k) : (ofNat n).length ≤ k :=
  (Nat.length_toDigits_le_iff (by decide) hk).mpr h

theorem lt_pow_length_ofNat (n : Nat) : n < 10 ^ (ofNat n).length :=
  (Nat.length_toDigits_le_iff (by decide) (length_ofNat_pos n)).mp (Nat.le_refl _)

theorem le_of_length_ofNat {n k : Nat} (hn : 0 < n) (hk : k < (ofNat n).length) : 10 ^ k ≤ n := by
  rcases Nat.eq_zero_or_pos k with rfl | hpos
  · rw [Nat.pow_zero]
    exact hn
  · apply Nat.le_of_not_lt
    intro hlt
    have hlength := length_ofNat_le hpos hlt
    omega

/-! ## Digits and signs -/

theorem mem_digits_of_isDigit {d : Char} (h : d.isDigit = true) : d ∈ "0123456789".toList := by
  have hall : ∀ n < 10, Char.ofNat (48 + n) ∈ "0123456789".toList := by decide
  have hbounds : 48 ≤ d.toNat ∧ d.toNat ≤ 57 := by
    simpa [Char.isDigit, UInt32.le_iff_toNat_le] using h
  have hd := hall (d.toNat - 48) (by omega)
  rwa [Nat.add_sub_cancel' hbounds.1, Char.ofNat_toNat] at hd

/-- What holds of the ten digits holds of each digit. -/
theorem forall_isDigit {P : Char → Prop} [DecidablePred P]
    (h : "0123456789".toList.all (fun d => P d) = true) {d : Char} (hd : d.isDigit = true) : P d :=
  of_decide_eq_true (List.all_eq_true.mp h d (mem_digits_of_isDigit hd))

theorem not_sign_of_isDigit {d : Char} (hd : d.isDigit = true) : d ≠ '-' ∧ d ≠ '+' :=
  forall_isDigit (P := fun d => d ≠ '-' ∧ d ≠ '+') (by decide) hd

/-- What holds of the marks and the digits of numerals holds of each character of a numeral. -/
theorem forall_numeral_char {P : Char → Prop} [DecidablePred P]
    (h : ".e-+0123456789".toList.all (fun c => P c) = true) {c : Char}
    (hc : c = '.' ∨ c = 'e' ∨ c = '-' ∨ c = '+' ∨ c.isDigit = true) : P c := by
  have hmem : c ∈ ".e-+".toList ++ "0123456789".toList := by
    rcases hc with rfl | rfl | rfl | rfl | hdigit
    · decide
    · decide
    · decide
    · decide
    · exact List.mem_append_right _ (mem_digits_of_isDigit hdigit)
  exact of_decide_eq_true (List.all_eq_true.mp h c hmem)

/-- A run of digits ends where a character stands that is none. -/
theorem takeWhile_digits_append {digits rest : Text} (hdigits : digits.all Char.isDigit = true)
    (hrest : ∀ c ∈ rest.head?, c.isDigit = false) :
    (digits ++ rest).takeWhile Char.isDigit = digits ∧
      (digits ++ rest).dropWhile Char.isDigit = rest := by
  have hall : ∀ c ∈ digits, c.isDigit = true := List.all_eq_true.mp hdigits
  rw [List.takeWhile_append_of_pos hall, List.dropWhile_append_of_pos hall]
  cases rest with
  | nil => simp
  | cons c rest =>
    have hc := hrest c rfl
    simp [hc]

/-- An integer is a text of digits, with a minus sign in front when it is negative. -/
theorem ofInt_eq (n : Int) :
    ofInt n = (if n < 0 then ['-'] else []) ++ ofNat n.natAbs := by
  cases n with
  | ofNat n => rw [ofInt, if_neg (by simp)]; rfl
  | negSucc n => rw [ofInt, if_pos (Int.negSucc_lt_zero n)]; rfl

theorem ofInt_ne_nil (n : Int) : ofInt n ≠ [] := by
  rw [ofInt_eq]
  exact List.append_ne_nil_of_right_ne_nil _ (ofNat_ne_nil _)

/-- Reading digits does not depend on how a sign is told from them. -/
theorem toInt?_digits {t : Text} (h : t.all Char.isDigit = true) :
    toInt? t = (toNat? t).map fun n => (n : Int) := by
  cases t with
  | nil => rfl
  | cons d t =>
    obtain ⟨hd, -⟩ := Bool.and_eq_true_iff.mp h
    obtain ⟨hminus, hplus⟩ := not_sign_of_isDigit hd
    rw [toInt?]
    · rintro t' ⟨⟩
      exact hminus rfl
    · rintro t' ⟨⟩
      exact hplus rfl

@[simp] theorem toInt?_ofInt (n : Int) : toInt? (ofInt n) = some n := by
  cases n with
  | ofNat n =>
    rw [ofInt, toInt?_digits (all_isDigit_ofNat n), toNat?_ofNat]
    rfl
  | negSucc n =>
    rw [ofInt, toInt?, toNat?_ofNat]
    rfl

/-- Digits with at most one sign in front, and the integer that they denote. -/
inductive SignedDigits : Text → Int → Prop
  | bare {t : Text} (h : isDigits t = true) : SignedDigits t (value t)
  | plus {t : Text} (h : isDigits t = true) : SignedDigits ('+' :: t) (value t)
  | minus {t : Text} (h : isDigits t = true) : SignedDigits ('-' :: t) (-(value t : Int))

theorem isDigits_iff {t : Text} : isDigits t = true ↔ t ≠ [] ∧ t.all Char.isDigit = true := by
  rw [isDigits, Bool.and_eq_true, Bool.not_eq_true', List.isEmpty_eq_false_iff]

theorem isDigits_singleton {d : Char} (hd : d.isDigit = true) : isDigits [d] = true :=
  isDigits_iff.mpr ⟨List.cons_ne_nil _ _, by rw [List.all_cons, hd]; rfl⟩

theorem isDigits_cons {d : Char} {t : Text} (hd : d.isDigit = true) (h : isDigits t = true) :
    isDigits (d :: t) = true :=
  isDigits_iff.mpr ⟨List.cons_ne_nil _ _, by rw [List.all_cons, hd, (isDigits_iff.mp h).2]; rfl⟩

theorem length_pos_of_isDigits {t : Text} (h : isDigits t = true) : 0 < t.length :=
  List.length_pos_iff.mpr (isDigits_iff.mp h).1

theorem not_mem_of_isDigits {t : Text} {c : Char} (h : isDigits t = true)
    (hc : c.isDigit = false) : c ∉ t := by
  intro hmem
  have hdigit := List.all_eq_true.mp (isDigits_iff.mp h).2 c hmem
  rw [hc] at hdigit
  cases hdigit

theorem toNat?_eq_some_iff {t : Text} {n : Nat} :
    toNat? t = some n ↔ isDigits t = true ∧ value t = n := by
  unfold toNat?
  split
  · next h => simp [h]
  · next h => simp [h]

theorem signedDigits_of_toInt? {t : Text} {n : Int} (h : toInt? t = some n) : SignedDigits t n := by
  unfold toInt? at h
  split at h
  all_goals
    obtain ⟨m, hm, rfl⟩ := Option.map_eq_some_iff.mp h
    obtain ⟨k, hk, hcast⟩ := Option.bind_eq_some_iff.mp hm
    obtain ⟨hdigits, rfl⟩ := toNat?_eq_some_iff.mp hk
    obtain rfl := Option.some.inj hcast
  · exact .minus hdigits
  · exact .plus hdigits
  · exact .bare hdigits

theorem SignedDigits.toInt?_eq {t : Text} {n : Int} (h : SignedDigits t n) : toInt? t = some n := by
  cases h with
  | bare h =>
    rw [toInt?_digits (isDigits_iff.mp h).2, toNat?_eq_some_iff.mpr ⟨h, rfl⟩]
    rfl
  | plus h | minus h =>
    rw [toInt?, toNat?_eq_some_iff.mpr ⟨h, rfl⟩]
    rfl

theorem signedDigits_ofInt (n : Int) : SignedDigits (ofInt n) n :=
  signedDigits_of_toInt? (toInt?_ofInt n)

theorem signedDigits_plus (n : Nat) : SignedDigits ('+' :: ofInt n) n := by
  have h := SignedDigits.plus (isDigits_ofNat n)
  rwa [value_ofNat] at h

/-- What can stand in the text of an integer. -/
theorem SignedDigits.forall_mem {t : Text} {n : Int} (h : SignedDigits t n) {c : Char}
    (hc : c ∈ t) : c = '-' ∨ c = '+' ∨ c.isDigit = true := by
  cases h with
  | bare h => exact .inr (.inr (List.all_eq_true.mp (isDigits_iff.mp h).2 c hc))
  | plus h =>
    rcases List.mem_cons.mp hc with rfl | hc
    · exact .inr (.inl rfl)
    · exact .inr (.inr (List.all_eq_true.mp (isDigits_iff.mp h).2 c hc))
  | minus h =>
    rcases List.mem_cons.mp hc with rfl | hc
    · exact .inl rfl
    · exact .inr (.inr (List.all_eq_true.mp (isDigits_iff.mp h).2 c hc))

/-- The text of an integer has no point and no power of ten in it. -/
theorem not_mem_of_toInt? {t : Text} {n : Int} (h : toInt? t = some n) : '.' ∉ t ∧ 'e' ∉ t := by
  have hsigned := signedDigits_of_toInt? h
  constructor
  all_goals
    intro hmem
    rcases hsigned.forall_mem hmem with h | h | h <;> cases h

theorem toInt?_of_mem {t : Text} (h : '.' ∈ t ∨ 'e' ∈ t) : toInt? t = none := by
  cases hint : toInt? t with
  | none => rfl
  | some n =>
    obtain ⟨hpoint, hpower⟩ := not_mem_of_toInt? hint
    exact absurd h (not_or.mpr ⟨hpoint, hpower⟩)

theorem value_append (t u : Text) : value (t ++ u) = value t * 10 ^ u.length + value u := by
  rw [value, Nat.ofDigitChars_append, Nat.ofDigitChars_eq_ofDigitChars_zero, Nat.mul_comm]
  rfl

theorem value_append_zeros (t : Text) (k : Nat) :
    value (t ++ Text.fill k '0') = value t * 10 ^ k := by
  rw [value, Nat.ofDigitChars_append, Text.fill, Nat.ofDigitChars_replicate_zero, Nat.mul_comm]
  rfl

theorem value_zeros_append (k : Nat) (t : Text) : value (Text.fill k '0' ++ t) = value t := by
  rw [value, Nat.ofDigitChars_append, Text.fill, Nat.ofDigitChars_replicate_zero, Nat.mul_zero]
  rfl

/-! ## Signed words -/

theorem clampSigned_of_fits {n : Int} (h : FitsSigned n) : clampSigned n = n := by
  unfold FitsSigned at h
  unfold clampSigned
  omega

theorem clampSigned_of_ge {n : Int} (h : 9223372036854775807 ≤ n) :
    clampSigned n = 9223372036854775807 := by
  unfold clampSigned
  omega

theorem toSigned?_ofInt (n : Int) :
    toSigned? (ofInt n) = if FitsSigned n then some n else none := by
  rw [toSigned?, toInt?_ofInt]
  simp [Option.filter]

/-! ## Canonical numerals -/

/-- A numeral without needless characters. -/
structure Canonical (t : Text) : Prop where
  no_plus : t.head? ≠ some '+'
  no_leading_zero : ∀ digits, t = '0' :: digits → digits = []
  no_zero_after_minus : ∀ digits, t = '-' :: digits → digits.head? ≠ some '0'

theorem canonical_ofInt (n : Int) : Canonical (ofInt n) := by
  have hdigit (m : Nat) (c : Char) (hc : c.isDigit = false) : (ofNat m).head? ≠ some c := by
    intro h
    have hall := List.all_eq_true.mp (all_isDigit_ofNat m) c (List.mem_of_mem_head? h)
    rw [hc] at hall
    cases hall
  cases n with
  | ofNat n =>
    constructor
    · exact hdigit n '+' rfl
    · intro digits h
      have hlength := length_of_head?_ofNat (n := n) (by rw [← ofInt, h]; rfl)
      rw [← ofInt, h, List.length_cons] at hlength
      exact List.length_eq_zero_iff.mp (by omega)
    · intro digits h
      exact absurd (by rw [← ofInt, h]; rfl) (hdigit n '-' rfl)
  | negSucc n =>
    constructor
    · rw [ofInt]
      simp
    · intro digits h
      cases h
    · intro digits h
      rw [← (List.cons.inj h).2]
      exact head?_ofNat_ne (Nat.succ_ne_zero n)

/-- Digits after the numeral of a positive number make the numeral that they continue. -/
theorem ofNat_append {n : Nat} {t : Text} (hn : 0 < n) (h : t.all Char.isDigit = true) :
    ofNat n ++ t = ofNat (Nat.ofDigitChars 10 t n) := by
  induction t generalizing n with
  | nil => rw [Nat.ofDigitChars_nil, List.append_nil]
  | cons d t ih =>
    obtain ⟨hd, ht⟩ := Bool.and_eq_true_iff.mp h
    obtain ⟨hlt, hchar⟩ := forall_isDigit
      (P := fun d => d.toNat - '0'.toNat < 10 ∧ Nat.digitChar (d.toNat - '0'.toNat) = d)
      (by decide) hd
    have hnext := Nat.toDigits_append_toDigits (b := 10) (by decide) hn hlt
    rw [Nat.toDigits_of_lt_base hlt, hchar] at hnext
    rw [Nat.ofDigitChars_cons, ← ih (by omega) ht, ofNat, ofNat, ← hnext, List.append_assoc]
    rfl

/-- Digits without a zero in front are the numeral of their value. -/
theorem ofNat_value {t : Text} (hne : t ≠ []) (h : t.all Char.isDigit = true)
    (hzero : ∀ digits, t = '0' :: digits → digits = []) : ofNat (value t) = t := by
  obtain ⟨d, digits, rfl⟩ := List.exists_cons_of_ne_nil hne
  obtain ⟨hd, hdigits⟩ := Bool.and_eq_true_iff.mp h
  obtain ⟨hlt, hchar, hpos⟩ := forall_isDigit
    (P := fun d => d.toNat - '0'.toNat < 10 ∧ Nat.digitChar (d.toNat - '0'.toNat) = d ∧
      (d = '0' ∨ 0 < d.toNat - '0'.toNat)) (by decide) hd
  rw [value, Nat.ofDigitChars_cons, Nat.mul_zero, Nat.zero_add]
  rcases hpos with rfl | hpos
  · rw [hzero digits rfl]
    rfl
  · rw [← ofNat_append hpos hdigits, ofNat_of_lt hlt, hchar]
    rfl

/-! ## Filled numerals -/

theorem isDigits_fill_append (k n : Nat) : isDigits (Text.fill k '0' ++ ofNat n) = true := by
  rw [isDigits_iff]
  constructor
  · exact List.append_ne_nil_of_right_ne_nil _ (ofNat_ne_nil n)
  · rw [List.all_append, all_isDigit_ofNat, Bool.and_true, List.all_eq_true]
    intro c hc
    rw [List.eq_of_mem_replicate hc]
    rfl

theorem value_fill_append (k n : Nat) : value (Text.fill k '0' ++ ofNat n) = n := by
  rw [value_zeros_append, value_ofNat]

theorem toNat?_fill_append (k n : Nat) : toNat? (Text.fill k '0' ++ ofNat n) = some n :=
  toNat?_eq_some_iff.mpr ⟨isDigits_fill_append k n, value_fill_append k n⟩

theorem toUnsigned?_of_isDigits {t : Text} (h : isDigits t = true) :
    toUnsigned? t = toNat? t := by
  rw [toUnsigned?]
  rintro rest rfl
  exact not_mem_of_isDigits h (c := '+') rfl List.mem_cons_self

/-- Digits are the numeral of their value with zeros in front. -/
theorem exists_eq_fill_append {t : Text} (h : isDigits t = true) :
    ∃ zeros, t = Text.fill zeros '0' ++ ofNat (value t) := by
  induction t with
  | nil => cases h
  | cons d t ih =>
    by_cases hlonger : d = '0' ∧ t ≠ []
    · obtain ⟨rfl, hne⟩ := hlonger
      have hall := (isDigits_iff.mp h).2
      rw [List.all_cons, Bool.and_eq_true] at hall
      obtain ⟨zeros, ht⟩ := ih (isDigits_iff.mpr ⟨hne, hall.2⟩)
      have hvalue : value ('0' :: t) = value t := value_zeros_append 1 t
      refine ⟨zeros + 1, ?_⟩
      rw [hvalue, Text.fill, List.replicate_succ, List.cons_append, ← Text.fill, ← ht]
    · obtain ⟨hne, hall⟩ := isDigits_iff.mp h
      refine ⟨0, (ofNat_value hne hall fun digits hdigits => ?_).symm⟩
      obtain ⟨rfl, rfl⟩ := List.cons.inj hdigits
      exact not_not.mp fun hdigits => hlonger ⟨rfl, hdigits⟩

theorem length_padStart {t : Text} {width : Nat} (c : Char) (h : t.length ≤ width) :
    (Text.padStart width c t).length = width := by
  rw [Text.padStart, List.length_append, Text.fill, List.length_replicate]
  omega

theorem isDigits_padStart (width n : Nat) :
    isDigits (Text.padStart width '0' (ofNat n)) = true := isDigits_fill_append _ n

theorem value_padStart (width n : Nat) : value (Text.padStart width '0' (ofNat n)) = n :=
  value_fill_append _ n

theorem toNat?_padStart (width n : Nat) :
    toNat? (Text.padStart width '0' (ofNat n)) = some n := toNat?_fill_append _ n

/-! ## Numerals in blocks -/

/-- The digits of a remainder, filled up with zeros, continue the numeral of the quotient. -/
theorem ofNat_div_append {n k : Nat} (hk : 0 < k) (h : 10 ^ k ≤ n) :
    ofNat (n / 10 ^ k) ++ Text.padStart k '0' (ofNat (n % 10 ^ k)) = ofNat n := by
  have hunit : 0 < 10 ^ k := Nat.pow_pos (by decide)
  have hdigits := isDigits_padStart k (n % 10 ^ k)
  have hlength := length_padStart '0' (length_ofNat_le hk (Nat.mod_lt n hunit))
  have hvalue := value_padStart k (n % 10 ^ k)
  rw [ofNat_append (Nat.div_pos h hunit) (isDigits_iff.mp hdigits).2,
    Nat.ofDigitChars_eq_ofDigitChars_zero, hlength, ← value, hvalue, Nat.div_add_mod]

/-- A numeral that is written in blocks is the one that is written digit by digit. -/
theorem blocksOnto_eq (count n : Nat) (rest : Text) :
    blocksOnto count n rest = ofNat n ++ rest := by
  induction count generalizing n rest with
  | zero => rfl
  | succ count ih =>
    have hpositive : 0 < blockDigits := by decide
    unfold blocksOnto
    generalize blockDigits = k at *
    dsimp only
    split
    · rfl
    · next hlong =>
      rw [ih, ← List.append_assoc, Nat.pow_eq,
        ofNat_div_append hpositive (Nat.le_of_not_lt hlong)]

theorem ofLongInt_eq (n : Int) : ofLongInt n = ofInt n := by
  cases n with
  | ofNat n => rw [ofLongInt, blocksOnto_eq, List.append_nil, ofInt]
  | negSucc n => rw [ofLongInt, blocksOnto_eq, List.append_nil, ofInt]

end Stencil.Numeral
