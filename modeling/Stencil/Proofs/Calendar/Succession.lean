import Mathlib.Data.Int.Init
import Stencil.Proofs.Calendar.DayNumber

/-!
# Counting days

Main statement: counting from one date to the next is counting day numbers, in both directions, so
that the date of a day number is found by counting from the first of January 1970.
-/

namespace Stencil.Calendar.Date
variable {d d' : Date} {n : ℤ}

/-- The date after a date. -/
def next (d : Date) : Date :=
  if d.day < monthLength d.year d.month then ⟨d.year, d.month, d.day + 1⟩
  else if d.month < 12 then ⟨d.year, d.month + 1, 1⟩
  else ⟨d.year + 1, 1, 1⟩

/-- The dates that are reached from `d` by counting a number of days, forward or backward. -/
inductive DaysLater (d : Date) : ℤ → Date → Prop
  | same : DaysLater d 0 d
  | forward {n : ℤ} {d' : Date} (h : DaysLater d n d') : DaysLater d (n + 1) d'.next
  | backward {n : ℤ} {d' : Date} (hvalid : d'.Valid) (h : DaysLater d n d'.next) :
      DaysLater d (n - 1) d'

/-- The date that days are counted from. -/
def epoch : Date := ⟨1970, 1, 1⟩

theorem valid_first {year : ℤ} {month : ℕ} (hpos : 1 ≤ month) (hle : month ≤ 12) :
    Valid ⟨year, month, 1⟩ :=
  ⟨hpos, hle, Nat.le_refl 1, (show 1 ≤ 28 by decide).trans (monthLength_bounds year hpos hle).1⟩

theorem valid_next (h : d.Valid) : d.next.Valid := by
  obtain ⟨hmonth, hmonth', hday, hday'⟩ := h
  unfold next
  split
  · next hlt => exact ⟨hmonth, hmonth', Nat.succ_pos _, hlt⟩
  · split
    · next hlt => exact valid_first (Nat.succ_pos _) hlt
    · exact valid_first (by decide) (by decide)

theorem dayNumber_next (h : d.Valid) : d.next.dayNumber = d.dayNumber + 1 := by
  obtain ⟨-, hmonth, hday, hday'⟩ := id h
  unfold next
  split
  · rw [dayNumber, dayNumber]
    change daysBeforeYear d.year + d.daysBeforeMonth + (d.day + 1 - 1 : ℕ) - epochDays = _
    omega
  · next hlast =>
    have hsum := sum_take_month h
    split
    · rw [dayNumber, dayNumber]
      change daysBeforeYear d.year + ((monthLengths d.year).take d.month).sum + (0 : ℕ) - epochDays
        = _
      omega
    · next hyear =>
      have htwelve : d.month = 12 := by omega
      have hall : (monthLengths d.year).take 12 = monthLengths d.year := rfl
      rw [htwelve] at hsum hlast hday'
      rw [hall, sum_monthLengths] at hsum
      rw [dayNumber, dayNumber]
      change daysBeforeYear (d.year + 1) + (0 : ℕ) + (0 : ℕ) - epochDays = _
      rw [daysBeforeYear_succ]
      omega

theorem next_ofDayNumber (n : ℤ) : (ofDayNumber n).next = ofDayNumber (n + 1) := by
  have hvalid := valid_ofDayNumber n
  rw [← dayNumber_inj (valid_next hvalid) (valid_ofDayNumber _), dayNumber_next hvalid,
    dayNumber_ofDayNumber, dayNumber_ofDayNumber]

/-- Counting keeps to the dates of the calendar, and adds to their day numbers what is counted. -/
theorem DaysLater.dayNumber (h : DaysLater d n d') (hd : d.Valid) :
    d'.Valid ∧ d'.dayNumber = d.dayNumber + n := by
  induction h with
  | same => exact ⟨hd, (add_zero _).symm⟩
  | forward _ ih =>
    obtain ⟨hvalid, hnumber⟩ := ih
    exact ⟨valid_next hvalid, by rw [dayNumber_next hvalid, hnumber, add_assoc]⟩
  | backward hvalid _ ih =>
    obtain ⟨-, hnumber⟩ := ih
    rw [dayNumber_next hvalid] at hnumber
    exact ⟨hvalid, by omega⟩

theorem daysLater_ofDayNumber (m n : ℤ) : DaysLater (ofDayNumber m) n (ofDayNumber (m + n)) := by
  induction n with
  | zero =>
    rw [add_zero]
    exact .same
  | succ n ih =>
    rw [← add_assoc, ← next_ofDayNumber]
    exact .forward ih
  | pred n ih =>
    refine .backward (valid_ofDayNumber _) ?_
    rwa [next_ofDayNumber, add_assoc, sub_add_cancel]

/-- Each number of days is counted from a date of the calendar to exactly one other. -/
theorem daysLater_iff (hd : d.Valid) :
    DaysLater d n d' ↔ d' = ofDayNumber (d.dayNumber + n) := by
  constructor
  · intro h
    obtain ⟨hvalid, hnumber⟩ := h.dayNumber hd
    rw [← hnumber, ofDayNumber_dayNumber hvalid]
  · rintro rfl
    have h := daysLater_ofDayNumber d.dayNumber n
    rwa [ofDayNumber_dayNumber hd] at h

theorem valid_epoch : epoch.Valid := by decide

/-- The date of a day number is counted from the first of January 1970. -/
theorem daysLater_epoch_iff : DaysLater epoch n d ↔ d = ofDayNumber n := by
  have hzero : epoch.dayNumber = 0 := by decide
  rw [daysLater_iff valid_epoch, hzero, zero_add]

/-- The last day of February in a year with a leap day, and the days around a turn of the year. -/
example : next ⟨2024, 2, 28⟩ = ⟨2024, 2, 29⟩ ∧ next ⟨1900, 2, 28⟩ = ⟨1900, 3, 1⟩ ∧
    next ⟨-1, 12, 31⟩ = ⟨0, 1, 1⟩ := by decide

end Stencil.Calendar.Date
