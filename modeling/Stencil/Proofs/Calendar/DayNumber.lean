import Mathlib.Algebra.BigOperators.Group.List.Basic
import Mathlib.Algebra.GroupWithZero.Nat
import Mathlib.Algebra.Order.Group.Int
import Stencil.Calendar.Date

/-!
# Dates and their day numbers

Main statement: the numbers of days and the dates of the calendar are in one-to-one correspondence,
in the order of the calendar. A day lies in the one year whose first day is not after it and whose
successor's first day is, and in that year in the one month that the lengths of the months lead to.
-/

namespace Stencil.Calendar

/-! ## Years -/

/-- The number of days in a year. -/
def yearLength (year : ℤ) : ℕ := if isLeap year then 366 else 365

theorem isLeap_iff (year : ℤ) :
    isLeap year = true ↔ year % 4 = 0 ∧ (year % 100 ≠ 0 ∨ year % 400 = 0) := by
  simp [isLeap]

theorem daysBeforeYear_succ (year : ℤ) :
    daysBeforeYear (year + 1) = daysBeforeYear year + yearLength year := by
  unfold daysBeforeYear yearLength
  have hleap := isLeap_iff year
  split
  · next h =>
    have hyear := hleap.mp h
    dsimp only
    omega
  · next h =>
    have hyear := mt hleap.mpr h
    dsimp only
    omega

theorem daysBeforeYear_lt_iff {year year' : ℤ} :
    daysBeforeYear year < daysBeforeYear year' ↔ year < year' := by
  have hmono : StrictMono daysBeforeYear := by
    apply strictMono_int_of_lt_succ
    intro year
    rw [daysBeforeYear_succ]
    unfold yearLength
    split
    all_goals omega
  exact hmono.lt_iff_lt

/-- The year that is computed for a day holds it. -/
theorem yearOfDay_bounds (n : ℤ) :
    daysBeforeYear (yearOfDay n) ≤ n ∧ n < daysBeforeYear (yearOfDay n + 1) := by
  -- The estimate is at most one year off, in either direction.
  have hnear : daysBeforeYear (400 * n / 146097) ≤ n ∧
      n < daysBeforeYear (400 * n / 146097 + 1 + 1 + 1) := by
    unfold daysBeforeYear
    dsimp only
    omega
  unfold yearOfDay
  dsimp only
  split
  · next h => exact ⟨by simpa using hnear.1, by simpa using h⟩
  · next h =>
    split
    · next h' => exact ⟨h', hnear.2⟩
    · next h' => exact ⟨not_lt.mp h, not_le.mp h'⟩

theorem yearOfDay_eq {n year : ℤ} (hle : daysBeforeYear year ≤ n)
    (hlt : n < daysBeforeYear (year + 1)) : yearOfDay n = year := by
  obtain ⟨hle', hlt'⟩ := yearOfDay_bounds n
  have h := daysBeforeYear_lt_iff.mp (hle.trans_lt hlt')
  have h' := daysBeforeYear_lt_iff.mp (hle'.trans_lt hlt)
  omega

/-! ## Months -/

theorem length_monthLengths (year : ℤ) : (monthLengths year).length = 12 := rfl

theorem sum_monthLengths (year : ℤ) : (monthLengths year).sum = yearLength year := by
  unfold monthLengths yearLength
  split
  all_goals rfl

theorem getElem?_monthLengths (year : ℤ) {month : ℕ} (hpos : 1 ≤ month) (hle : month ≤ 12) :
    (monthLengths year)[month - 1]? = some (monthLength year month) := by
  have hlt : month - 1 < (monthLengths year).length := by
    rw [length_monthLengths]
    omega
  rw [monthLength, List.getElem?_eq_getElem hlt, Option.getD_some]

theorem monthLength_bounds (year : ℤ) {month : ℕ} (hpos : 1 ≤ month) (hle : month ≤ 12) :
    28 ≤ monthLength year month ∧ monthLength year month ≤ 31 := by
  have hall : ∀ length ∈ monthLengths year, 28 ≤ length ∧ length ≤ 31 := by
    unfold monthLengths
    split
    all_goals decide
  exact hall _ (List.mem_of_getElem? (getElem?_monthLengths year hpos hle))

/-- The days before an item of a list of lengths and those of the item itself. -/
theorem sum_take_succ {lengths : List ℕ} {k length : ℕ} (h : lengths[k]? = some length) :
    (lengths.take (k + 1)).sum = (lengths.take k).sum + length := by
  rw [List.take_add_one, h, List.sum_append, Option.toList_some, List.sum_singleton]

/-- A day of a month is found in that month. -/
theorem locate_take {lengths : List ℕ} {k length n : ℕ} (h : lengths[k]? = some length)
    (hn : n < length) (month : ℕ) :
    locate month lengths ((lengths.take k).sum + n) = (month + k, n + 1) := by
  induction lengths generalizing k month with
  | nil => cases h
  | cons first lengths ih =>
    cases k with
    | zero =>
      obtain rfl := Option.some.inj h
      rw [List.take_zero, List.sum_nil, Nat.zero_add, locate, if_pos hn]
      rfl
    | succ k =>
      rw [List.take_succ_cons, List.sum_cons, Nat.add_assoc, locate,
        if_neg (Nat.not_lt.mpr (Nat.le_add_right _ _)), Nat.add_sub_cancel_left, ih h,
        Nat.add_assoc, Nat.add_comm 1 k]

/-- Each day of a year is a day of one of its months. -/
theorem exists_month {lengths : List ℕ} {n : ℕ} (h : n < lengths.sum) :
    ∃ k length m, lengths[k]? = some length ∧ m < length ∧ n = (lengths.take k).sum + m := by
  induction lengths generalizing n with
  | nil => cases h
  | cons first lengths ih =>
    by_cases hn : n < first
    · exact ⟨0, first, n, rfl, hn, by simp⟩
    · rw [List.sum_cons] at h
      obtain ⟨k, length, m, hk, hm, hrest⟩ := ih (n := n - first) (by omega)
      refine ⟨k + 1, length, m, hk, hm, ?_⟩
      rw [List.take_succ_cons, List.sum_cons]
      omega

namespace Date
variable {d d' : Date}

theorem daysBeforeMonth_eq (d : Date) :
    d.daysBeforeMonth = ((monthLengths d.year).take (d.month - 1)).sum := rfl

/-- The days of the year up to the end of the month of a date. -/
theorem sum_take_month (h : d.Valid) :
    ((monthLengths d.year).take d.month).sum =
      d.daysBeforeMonth + monthLength d.year d.month := by
  have hsum := sum_take_succ (getElem?_monthLengths d.year h.1 h.2.1)
  rwa [Nat.sub_add_cancel h.1] at hsum

/-- A month ends before a later one of the year begins. -/
theorem month_end_le (h : d.Valid) {month : ℕ} (hlt : d.month < month) :
    d.daysBeforeMonth + monthLength d.year d.month ≤
      ((monthLengths d.year).take (month - 1)).sum := by
  obtain ⟨k, hk⟩ := Nat.exists_eq_add_of_le (Nat.le_sub_one_of_lt hlt)
  rw [← sum_take_month h, hk, List.take_add, List.sum_append]
  exact Nat.le_add_right _ _

/-- A date lies in its year. -/
theorem daysBeforeMonth_lt (h : d.Valid) :
    d.daysBeforeMonth + (d.day - 1) < yearLength d.year := by
  have hend := month_end_le h (Nat.lt_succ_of_le h.2.1)
  have hall : (monthLengths d.year).take (12 + 1 - 1) = monthLengths d.year := rfl
  rw [hall, sum_monthLengths] at hend
  have hday := h.2.2
  omega

theorem dayNumber_bounds (h : d.Valid) :
    daysBeforeYear d.year ≤ d.dayNumber + epochDays ∧
      d.dayNumber + epochDays < daysBeforeYear (d.year + 1) := by
  have hlt := daysBeforeMonth_lt h
  rw [daysBeforeYear_succ, dayNumber]
  omega

/-! ## The correspondence -/

theorem ofDayNumber_dayNumber (h : d.Valid) : ofDayNumber d.dayNumber = d := by
  obtain ⟨hle, hlt⟩ := dayNumber_bounds h
  obtain ⟨hmonth, hmonth', hday, hday'⟩ := h
  have hrest : (d.dayNumber + epochDays - daysBeforeYear d.year).toNat =
      ((monthLengths d.year).take (d.month - 1)).sum + (d.day - 1) := by
    rw [← daysBeforeMonth_eq, dayNumber]
    omega
  have hlocate := locate_take (getElem?_monthLengths d.year hmonth hmonth') (n := d.day - 1)
    (by omega) 1
  unfold ofDayNumber
  dsimp only
  rw [yearOfDay_eq hle hlt, hrest, hlocate, Nat.add_sub_cancel' hmonth, Nat.sub_add_cancel hday]

theorem exists_dayNumber (n : ℤ) : ∃ d : Date, d.Valid ∧ d.dayNumber = n := by
  obtain ⟨hle, hlt⟩ := yearOfDay_bounds (n + epochDays)
  rw [daysBeforeYear_succ, ← sum_monthLengths] at hlt
  generalize yearOfDay (n + epochDays) = year at hle hlt
  obtain ⟨k, length, m, hk, hm, hrest⟩ :=
    exists_month (n := (n + epochDays - daysBeforeYear year).toNat)
      (show _ < (monthLengths year).sum by omega)
  have hmonth : k + 1 ≤ 12 := (List.getElem?_eq_some_iff.mp hk).1
  have hlength := getElem?_monthLengths year (Nat.succ_pos k) hmonth
  rw [Nat.succ_sub_one, hk, Option.some_inj] at hlength
  refine ⟨⟨year, k + 1, m + 1⟩, ⟨Nat.succ_pos k, hmonth, Nat.succ_pos m, ?_⟩, ?_⟩
  · rw [← hlength]
    exact hm
  · rw [dayNumber, daysBeforeMonth_eq]
    dsimp only
    rw [Nat.add_sub_cancel, Nat.add_sub_cancel]
    omega

theorem valid_ofDayNumber (n : ℤ) : (ofDayNumber n).Valid := by
  obtain ⟨d, hd, rfl⟩ := exists_dayNumber n
  rwa [ofDayNumber_dayNumber hd]

@[simp] theorem dayNumber_ofDayNumber (n : ℤ) : (ofDayNumber n).dayNumber = n := by
  obtain ⟨d, hd, rfl⟩ := exists_dayNumber n
  rw [ofDayNumber_dayNumber hd]

theorem dayNumber_inj (h : d.Valid) (h' : d'.Valid) : d.dayNumber = d'.dayNumber ↔ d = d' := by
  constructor
  · intro heq
    rw [← ofDayNumber_dayNumber h, ← ofDayNumber_dayNumber h', heq]
  · rintro rfl
    rfl

theorem ofDayNumber_inj {m n : ℤ} : ofDayNumber m = ofDayNumber n ↔ m = n := by
  rw [← dayNumber_inj (valid_ofDayNumber m) (valid_ofDayNumber n), dayNumber_ofDayNumber,
    dayNumber_ofDayNumber]

/-! ## Order -/

/-- The date stands before the other one in the calendar. -/
def Earlier (d d' : Date) : Prop :=
  d.year < d'.year ∨ d.year = d'.year ∧ (d.month < d'.month ∨ d.month = d'.month ∧ d.day < d'.day)

theorem earlier_trichotomy (d d' : Date) : d.Earlier d' ∨ d = d' ∨ d'.Earlier d := by
  unfold Earlier
  rcases lt_trichotomy d.year d'.year with hyear | hyear | hyear
  · exact .inl (.inl hyear)
  · rcases lt_trichotomy d.month d'.month with hmonth | hmonth | hmonth
    · exact .inl (.inr ⟨hyear, .inl hmonth⟩)
    · rcases lt_trichotomy d.day d'.day with hday | hday | hday
      · exact .inl (.inr ⟨hyear, .inr ⟨hmonth, hday⟩⟩)
      · exact .inr (.inl (Date.ext hyear hmonth hday))
      · exact .inr (.inr (.inr ⟨hyear.symm, .inr ⟨hmonth.symm, hday⟩⟩))
    · exact .inr (.inr (.inr ⟨hyear.symm, .inl hmonth⟩))
  · exact .inr (.inr (.inl hyear))

theorem dayNumber_lt_of_earlier (h : d.Valid) (h' : d'.Valid) (hearlier : d.Earlier d') :
    d.dayNumber < d'.dayNumber := by
  rcases hearlier with hyear | ⟨hyear, hmonth | ⟨hmonth, hday⟩⟩
  · have hlast := (dayNumber_bounds h).2
    have hfirst := (dayNumber_bounds h').1
    have hle : daysBeforeYear (d.year + 1) ≤ daysBeforeYear d'.year :=
      not_lt.mp (mt daysBeforeYear_lt_iff.mp (by omega))
    omega
  · have hlt := month_end_le h hmonth
    have hday := h.2.2
    rw [dayNumber, dayNumber, hyear, daysBeforeMonth_eq d', ← hyear]
    omega
  · have hbefore : d.daysBeforeMonth = d'.daysBeforeMonth := by
      rw [daysBeforeMonth_eq, daysBeforeMonth_eq, hyear, hmonth]
    have hpos := h.2.2.1
    rw [dayNumber, dayNumber, hyear, hbefore]
    omega

/-- Days follow one another as their dates do. -/
theorem dayNumber_lt_iff (h : d.Valid) (h' : d'.Valid) :
    d.dayNumber < d'.dayNumber ↔ d.Earlier d' := by
  refine ⟨fun hlt => ?_, dayNumber_lt_of_earlier h h'⟩
  rcases earlier_trichotomy d d' with hearlier | rfl | hearlier
  · exact hearlier
  · exact absurd hlt (lt_irrefl _)
  · exact absurd hlt (dayNumber_lt_of_earlier h' h hearlier).not_gt

theorem year_le_of_dayNumber_le (h : d.Valid) (h' : d'.Valid) (hle : d.dayNumber ≤ d'.dayNumber) :
    d.year ≤ d'.year := by
  by_contra hyear
  exact absurd hle (dayNumber_lt_of_earlier h' h (.inl (not_le.mp hyear))).not_ge

end Date
end Stencil.Calendar
