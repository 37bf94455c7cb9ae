import Stencil.Calendar.Period
import Stencil.Proofs.Text.Fields
import Stencil.Proofs.Text.Numeral

/-!
# Periods in writing

Main statement: a text is read as a period exactly when it has the form `[-]<months>m<days>d`, with
two numbers of 32 bits in digits, and the period is then the one with that sign and those numbers.
Every other text is refused, and what is printed for a period is read as that period.
-/

namespace Stencil.Calendar.Period
open Numeral
variable {p : Period} {t u : Text} {n : ℕ}

/-- A number of months or days in writing; zeros may stand in front. -/
structure CountText (t : Text) (n : ℕ) : Prop where
  digits : isDigits t = true
  value_eq : value t = n
  lt_bound : n < bound

/-- The months and the days of a period in writing, each with its letter. -/
inductive BodyText : Text → ℕ → ℕ → Prop
  | mk {months days : Text} {m d : ℕ} (hmonths : CountText months m) (hdays : CountText days d) :
      BodyText (months ++ 'm' :: (days ++ ['d'])) m d

/-- The text writes the period: a minus sign when it leads backward, the months and the days. -/
inductive Spells : Period → Text → Prop
  | forward {t : Text} {months days : ℕ} (h : BodyText t months days) :
      Spells ⟨false, months, days⟩ t
  | backward {t : Text} {months days : ℕ} (h : BodyText t months days) :
      Spells ⟨true, months, days⟩ ('-' :: t)

theorem component?_eq_some_iff : component? t = some n ↔ CountText t n := by
  rw [component?, Option.filter_eq_some_iff, toNat?_eq_some_iff, decide_eq_true_eq]
  constructor
  · rintro ⟨⟨hdigits, hvalue⟩, hlt⟩
    exact ⟨hdigits, hvalue, hlt⟩
  · rintro ⟨hdigits, hvalue, hlt⟩
    exact ⟨⟨hdigits, hvalue⟩, hlt⟩

theorem beforeDayMark?_eq_some_iff : beforeDayMark? t = some u ↔ t = u ++ ['d'] := by
  unfold beforeDayMark?
  constructor
  · intro h
    split at h
    · next rest hrest =>
      obtain rfl := Option.some.inj h
      rw [← List.reverse_reverse t, hrest, List.reverse_cons]
    · cases h
  · rintro rfl
    rw [List.reverse_append, List.reverse_singleton, List.singleton_append]
    exact congrArg some (List.reverse_reverse u)

/-- No `m` is a digit, so the first one ends the months. -/
theorem CountText.not_mem (h : CountText t n) : 'm' ∉ t := not_mem_of_isDigits h.digits rfl

theorem ofUnsigned?_eq_some_iff {negative : Bool} :
    ofUnsigned? negative t = some p ↔ p.negative = negative ∧ BodyText t p.months p.days := by
  unfold ofUnsigned?
  constructor
  · intro h
    obtain ⟨⟨months, rest⟩, hsplit, h⟩ := Option.bind_eq_some_iff.mp h
    obtain ⟨days, hmark, h⟩ := Option.bind_eq_some_iff.mp h
    obtain ⟨m, hmonths, h⟩ := Option.bind_eq_some_iff.mp h
    obtain ⟨d, hdays, h⟩ := Option.bind_eq_some_iff.mp h
    obtain rfl := Option.some.inj h
    obtain ⟨rfl, -⟩ := Text.splitOnce?_eq_some_iff.mp hsplit
    obtain rfl := beforeDayMark?_eq_some_iff.mp hmark
    exact ⟨rfl, .mk (component?_eq_some_iff.mp hmonths) (component?_eq_some_iff.mp hdays)⟩
  · obtain ⟨negative', m, d⟩ := p
    rintro ⟨rfl, hbody⟩
    cases hbody with
    | mk hmonths hdays =>
      rw [Text.splitOnce?_append _ _ hmonths.not_mem]
      simp only [Option.bind_eq_bind, Option.bind_some,
        beforeDayMark?_eq_some_iff.mpr rfl, component?_eq_some_iff.mpr hmonths,
        component?_eq_some_iff.mpr hdays]

/-- The months begin with a digit, so that they are not taken for a sign. -/
theorem BodyText.ne_minus {months days : ℕ} (h : BodyText t months days) :
    ∀ rest, t ≠ '-' :: rest := by
  cases h with
  | mk hmonths hdays =>
    rintro rest heq
    obtain ⟨hne, hall⟩ := isDigits_iff.mp hmonths.digits
    obtain ⟨c, digits, rfl⟩ := List.exists_cons_of_ne_nil hne
    obtain ⟨rfl, -⟩ := List.cons.inj heq
    exact absurd (List.all_eq_true.mp hall '-' List.mem_cons_self) (by decide)

/-- A text is read as the one period that it writes. -/
theorem parse?_eq_some_iff : parse? t = some p ↔ p.Spells t := by
  constructor
  · intro h
    unfold parse? at h
    split at h
    · obtain ⟨hnegative, hbody⟩ := ofUnsigned?_eq_some_iff.mp h
      obtain ⟨negative, m, d⟩ := p
      obtain rfl : negative = true := hnegative
      exact .backward hbody
    · obtain ⟨hnegative, hbody⟩ := ofUnsigned?_eq_some_iff.mp h
      obtain ⟨negative, m, d⟩ := p
      obtain rfl : negative = false := hnegative
      exact .forward hbody
  · intro h
    cases h with
    | forward h =>
      rw [parse?]
      · exact ofUnsigned?_eq_some_iff.mpr ⟨rfl, h⟩
      · exact h.ne_minus
    | backward h => exact ofUnsigned?_eq_some_iff.mpr ⟨rfl, h⟩

theorem parse_eq_ok_iff : parse t = .ok p ↔ p.Spells t := by
  rw [← parse?_eq_some_iff, parse]
  split
  · next h => rw [h, Except.ok.injEq, Option.some_inj]
  · next h => exact iff_of_false nofun (by rw [h]; nofun)

/-- A text that writes no period is refused with its own text. -/
theorem parse_of_not_spells (h : ∀ p : Period, ¬ p.Spells t) :
    parse t = .error (.invalidPeriod t) := by
  have hnone : parse? t = none :=
    Option.eq_none_iff_forall_not_mem.mpr fun p hp => h p (parse?_eq_some_iff.mp hp)
  rw [parse, hnone]

/-- What can stand in the text of a period. -/
theorem Spells.forall_mem (h : p.Spells t) {c : Char} (hc : c ∈ t) :
    c = '-' ∨ c = 'm' ∨ c = 'd' ∨ c.isDigit = true := by
  have hcount {n : ℕ} {u : Text} (hu : CountText u n) (hmem : c ∈ u) : c.isDigit = true :=
    List.all_eq_true.mp (isDigits_iff.mp hu.digits).2 c hmem
  have hbody {m d : ℕ} {u : Text} (hu : BodyText u m d) (hmem : c ∈ u) :
      c = 'm' ∨ c = 'd' ∨ c.isDigit = true := by
    cases hu with
    | mk hmonths hdays =>
      simp only [List.mem_append, List.mem_cons, List.not_mem_nil, or_false] at hmem
      rcases hmem with hmem | rfl | hmem | rfl
      · exact .inr (.inr (hcount hmonths hmem))
      · exact .inl rfl
      · exact .inr (.inr (hcount hdays hmem))
      · exact .inr (.inl rfl)
  cases h with
  | forward h => exact .inr (hbody h hc)
  | backward h =>
    rcases List.mem_cons.mp hc with rfl | hc
    · exact .inl rfl
    · exact .inr (hbody h hc)

theorem Spells.ne_nil (h : p.Spells t) : t ≠ [] := by
  cases h with
  | forward h =>
    cases h
    simp
  | backward h => exact List.cons_ne_nil _ _

/-! ## Errors and printed periods -/

/-- The only error is the one that names the text, for a text that writes no period. -/
theorem parse_eq_error_iff {e : HelperError} :
    parse t = .error e ↔ e = .invalidPeriod t ∧ ∀ p : Period, ¬ p.Spells t := by
  constructor
  · intro h
    have hnone : ∀ p : Period, ¬ p.Spells t := by
      intro p hp
      rw [parse_eq_ok_iff.mpr hp] at h
      cases h
    rw [parse_of_not_spells hnone] at h
    exact ⟨(Except.error.inj h).symm, hnone⟩
  · rintro ⟨rfl, h⟩
    exact parse_of_not_spells h

theorem BodyText.lt_bound {months days : ℕ} (h : BodyText t months days) :
    months < bound ∧ days < bound := by
  cases h with
  | mk hmonths hdays => exact ⟨hmonths.lt_bound, hdays.lt_bound⟩

theorem Spells.lt_bound (h : p.Spells t) : p.months < bound ∧ p.days < bound := by
  cases h with
  | forward h => exact h.lt_bound
  | backward h => exact h.lt_bound

/-- What is printed for a period writes it, when both of its numbers have 32 bits. -/
theorem spells_print (hmonths : p.months < bound) (hdays : p.days < bound) : p.Spells p.print := by
  have hcount {n : ℕ} (h : n < bound) : CountText (ofNat n) n :=
    ⟨isDigits_ofNat n, value_ofNat n, h⟩
  have hbody := BodyText.mk (hcount hmonths) (hcount hdays)
  obtain ⟨negative, months, days⟩ := p
  cases negative with
  | false => exact .forward hbody
  | true => exact .backward hbody

theorem parse_print_iff : parse p.print = .ok p ↔ p.months < bound ∧ p.days < bound := by
  rw [parse_eq_ok_iff]
  exact ⟨Spells.lt_bound, fun h => spells_print h.1 h.2⟩

/-- A text is read as the period that it writes: a minus sign or none, the months, `m`, the days and
`d`. Any other text is refused with its own text, and what is printed for a period of two 32-bit
numbers is read as that period. -/
theorem parse_by_grammar (t : Text) :
    (∀ p : Period, parse t = .ok p ↔ p.Spells t) ∧
      (∀ e, parse t = .error e ↔ e = .invalidPeriod t ∧ ∀ p : Period, ¬ p.Spells t) ∧
      ∀ p : Period, parse p.print = .ok p ↔ p.months ≤ 4294967295 ∧ p.days ≤ 4294967295 := by
  refine ⟨fun p => parse_eq_ok_iff, fun e => parse_eq_error_iff, fun p => ?_⟩
  rw [parse_print_iff, bound, Nat.lt_succ_iff, Nat.lt_succ_iff]

/-- A sign stands in front of the months only; zeros may stand in front of each number. -/
example : parse? "1m-2d".toList = none ∧ parse? "-007m0d".toList = some ⟨true, 7, 0⟩ := by decide

end Stencil.Calendar.Period
