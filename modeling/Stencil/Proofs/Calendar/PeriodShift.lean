import Stencil.Calendar.Period
import Stencil.Proofs.Calendar.Succession

/-!
# Moments moved by a period

Main statement: a period moves the date of a moment by its months, with the day cut to the length of
the month that is reached, and then by its days, and leaves the time of day. It fails exactly when
the date that is reached so lies outside the representable years: the months and the days lead in
one direction, so that the date between them is never further out.
-/

namespace Stencil.Calendar

namespace Date
variable {d d' d'' : Date} {n : ℤ}

/-! ## Months -/

/-- The date lies a number of months later, or earlier, on the same day of the month or, where the
month has no such day, on its last one. -/
structure MonthsLater (d : Date) (n : ℤ) (d' : Date) : Prop where
  month_pos : 1 ≤ d'.month
  month_le : d'.month ≤ 12
  months : d'.year * 12 + d'.month = d.year * 12 + d.month + n
  day_eq : d'.day = min d.day (monthLength d'.year d'.month)

theorem monthsLater_addMonths (h : d.Valid) (n : ℤ) : d.MonthsLater n (d.addMonths n) := by
  have hmonth := h.1
  constructor
  · exact Nat.succ_pos _
  · dsimp only [addMonths]
    omega
  · dsimp only [addMonths]
    omega
  · rfl

theorem monthsLater_iff (h : d.Valid) : d.MonthsLater n d' ↔ d' = d.addMonths n := by
  have hadd := monthsLater_addMonths h n
  refine ⟨fun hn => ?_, fun heq => heq ▸ hadd⟩
  obtain ⟨hmonth, hmonth', hmonths, hday⟩ := hn
  obtain ⟨hmonth'', hmonth''', hmonths', hday'⟩ := hadd
  obtain ⟨hyear, hsame⟩ : d'.year = (d.addMonths n).year ∧ d'.month = (d.addMonths n).month := by
    omega
  rw [hyear, hsame, ← hday'] at hday
  exact Date.ext hyear hsame hday

theorem MonthsLater.valid (hn : d.MonthsLater n d') (h : d.Valid) : d'.Valid := by
  obtain ⟨hmonth, hmonth', -, hday⟩ := hn
  have hlength := (monthLength_bounds d'.year hmonth hmonth').1
  have hpos := h.2.2.1
  refine ⟨hmonth, hmonth', ?_, ?_⟩
  all_goals omega

theorem MonthsLater.earlier (hn : d.MonthsLater n d') (h : d.Valid) (hpos : 0 < n) :
    d.Earlier d' := by
  obtain ⟨hmonth, hmonth', hmonths, -⟩ := hn
  obtain ⟨hfirst, hfirst', -, -⟩ := h
  unfold Earlier
  omega

theorem MonthsLater.later (hn : d.MonthsLater n d') (h : d.Valid) (hneg : n < 0) :
    d'.Earlier d := by
  obtain ⟨hmonth, hmonth', hmonths, -⟩ := hn
  obtain ⟨hfirst, hfirst', -, -⟩ := h
  unfold Earlier
  omega

theorem MonthsLater.eq (hn : d.MonthsLater 0 d') (h : d.Valid) : d' = d := by
  obtain ⟨hmonth, hmonth', hmonths, hday⟩ := hn
  obtain ⟨hfirst, hfirst', -, hday'⟩ := h
  obtain ⟨hyear, hsame⟩ : d'.year = d.year ∧ d'.month = d.month := by omega
  rw [hyear, hsame, Nat.min_eq_left hday'] at hday
  exact Date.ext hyear hsame hday

/-- Months lead in the direction of their number. -/
theorem MonthsLater.dayNumber_le (hn : d.MonthsLater n d') (h : d.Valid) (hpos : 0 ≤ n) :
    d.dayNumber ≤ d'.dayNumber := by
  rcases hpos.eq_or_lt with rfl | hpos
  · rw [hn.eq h]
  · exact (dayNumber_lt_of_earlier h (hn.valid h) (hn.earlier h hpos)).le

theorem MonthsLater.le_dayNumber (hn : d.MonthsLater n d') (h : d.Valid) (hneg : n ≤ 0) :
    d'.dayNumber ≤ d.dayNumber := by
  rcases hneg.eq_or_lt with rfl | hneg
  · rw [hn.eq h]
  · exact (dayNumber_lt_of_earlier (hn.valid h) h (hn.later h hneg)).le

/-! ## Representable years -/

/-- A date between two dates of representable years lies in such a year. -/
theorem Representable.between (hd : d.Representable) (hd'' : d''.Representable) (h : d.Valid)
    (h' : d'.Valid) (h'' : d''.Valid) (hle : d.dayNumber ≤ d'.dayNumber)
    (hle' : d'.dayNumber ≤ d''.dayNumber) : d'.Representable :=
  ⟨hd.1.trans (year_le_of_dayNumber_le h h' hle),
    (year_le_of_dayNumber_le h' h'' hle').trans hd''.2⟩

end Date

namespace Moment
variable {m m' : Moment} {day : ℤ}

theorem valid_date (m : Moment) : m.date.Valid := Date.valid_ofDayNumber m.day

theorem dayNumber_date (m : Moment) : m.date.dayNumber = m.day := Date.dayNumber_ofDayNumber m.day

theorem onDay?_eq_some_iff : m.onDay? day = some m' ↔ m'.day = day ∧ m'.nanos = m.nanos := by
  unfold onDay?
  constructor
  · intro h
    split at h
    · obtain rfl := Option.some.inj h
      exact ⟨rfl, rfl⟩
    · cases h
  · rintro ⟨rfl, hnanos⟩
    rw [dif_pos m'.representable, Option.some_inj]
    exact Moment.ext rfl hnanos.symm

theorem onDay?_of_representable (h : (Date.ofDayNumber day).Representable) :
    ∃ m', m.onDay? day = some m' := by
  unfold onDay?
  rw [dif_pos h]
  exact ⟨_, rfl⟩

theorem addDays?_eq_some_iff {n : ℤ} :
    m.addDays? n = some m' ↔ m'.day = m.day + n ∧ m'.nanos = m.nanos := onDay?_eq_some_iff

theorem addMonths?_eq_some_iff {n : ℤ} :
    m.addMonths? n = some m' ↔ m'.date = m.date.addMonths n ∧ m'.nanos = m.nanos := by
  have hvalid := (Date.monthsLater_addMonths m.valid_date n).valid m.valid_date
  rw [addMonths?, onDay?_eq_some_iff, ← Date.dayNumber_inj m'.valid_date hvalid, dayNumber_date]

end Moment

namespace Period
open Date
variable {p : Period} {m m' : Moment}

/-- The period leads from one date to another: its months first, and then its days. -/
def LeadsTo (p : Period) (d target : Date) : Prop :=
  ∃ shifted : Date, d.MonthsLater (p.directed p.months) shifted ∧
    shifted.DaysLater (p.directed p.days) target

/-- The date that a period leads to. -/
def target (p : Period) (d : Date) : Date :=
  ofDayNumber ((d.addMonths (p.directed p.months)).dayNumber + p.directed p.days)

theorem valid_target (p : Period) (d : Date) : (p.target d).Valid := valid_ofDayNumber _

theorem leadsTo_iff {d d' : Date} (h : d.Valid) : p.LeadsTo d d' ↔ d' = p.target d := by
  have hvalid := (monthsLater_addMonths h (p.directed p.months)).valid h
  constructor
  · rintro ⟨shifted, hmonths, hdays⟩
    rw [monthsLater_iff h] at hmonths
    rw [hmonths] at hdays
    exact (daysLater_iff hvalid).mp hdays
  · rintro rfl
    exact ⟨_, monthsLater_addMonths h _, (daysLater_iff hvalid).mpr rfl⟩

/-- The date between the months and the days of a period lies between the first and the last. -/
theorem representable_between {d : Date} (h : d.Valid) (hfirst : d.Representable)
    (hlast : (p.target d).Representable) :
    (d.addMonths (p.directed p.months)).Representable := by
  have hmonths := monthsLater_addMonths h (p.directed p.months)
  have hshifted := hmonths.valid h
  have htarget := p.valid_target d
  have hnumber : (p.target d).dayNumber =
      (d.addMonths (p.directed p.months)).dayNumber + p.directed p.days := dayNumber_ofDayNumber _
  generalize d.addMonths (p.directed p.months) = shifted at hmonths hshifted hnumber ⊢
  unfold directed at hmonths hnumber
  -- Both steps lead in the direction of the sign, so the date between them is in order with the ends.
  split at hmonths
  · next hneg =>
    rw [if_pos hneg] at hnumber
    exact hlast.between hfirst htarget hshifted h (by omega) (hmonths.le_dayNumber h (by omega))
  · next hpos =>
    rw [if_neg hpos] at hnumber
    exact hfirst.between hlast h hshifted htarget (hmonths.dayNumber_le h (by omega)) (by omega)

/-- The two steps of a moment are one step of its date. -/
theorem bind_eq_some_iff :
    (m.addMonths? (p.directed p.months)).bind (·.addDays? (p.directed p.days)) = some m' ↔
      m'.date = p.target m.date ∧ m'.nanos = m.nanos := by
  have hvalid := (monthsLater_addMonths m.valid_date (p.directed p.months)).valid m.valid_date
  rw [Option.bind_eq_some_iff]
  constructor
  · rintro ⟨between, hmonths, hdays⟩
    obtain ⟨hdate, hnanos⟩ := Moment.addMonths?_eq_some_iff.mp hmonths
    obtain ⟨hday, hnanos'⟩ := Moment.addDays?_eq_some_iff.mp hdays
    refine ⟨?_, hnanos'.trans hnanos⟩
    rw [target, ← hdate, Moment.dayNumber_date, Moment.date, hday]
  · rintro ⟨hdate, hnanos⟩
    have hlast : (p.target m.date).Representable := hdate ▸ m'.representable
    have hbetween := representable_between m.valid_date m.representable hlast
    rw [← ofDayNumber_dayNumber hvalid] at hbetween
    obtain ⟨between, hmonths⟩ := m.onDay?_of_representable hbetween
    obtain ⟨hday, hnanos'⟩ := Moment.onDay?_eq_some_iff.mp hmonths
    refine ⟨between, hmonths, Moment.addDays?_eq_some_iff.mpr ⟨?_, hnanos.trans hnanos'.symm⟩⟩
    rw [← Moment.dayNumber_date m', hdate, target, dayNumber_ofDayNumber, hday]

theorem apply_eq_ok_iff :
    p.apply m = .ok m' ↔ m'.date = p.target m.date ∧ m'.nanos = m.nanos := by
  rw [← bind_eq_some_iff]
  unfold apply
  split
  · next h =>
    rw [h, Except.ok.injEq, Option.some_inj]
  · next h =>
    rw [h]
    exact iff_of_false nofun nofun

/-- Where the date that is reached is representable, the moment gets there. -/
theorem exists_apply (h : (p.target m.date).Representable) : ∃ m', p.apply m = .ok m' := by
  have hday : (ofDayNumber (p.target m.date).dayNumber).Representable := by
    rwa [ofDayNumber_dayNumber (p.valid_target m.date)]
  obtain ⟨m', hmoved⟩ := m.onDay?_of_representable hday
  obtain ⟨hday', hnanos⟩ := Moment.onDay?_eq_some_iff.mp hmoved
  refine ⟨m', apply_eq_ok_iff.mpr ⟨?_, hnanos⟩⟩
  rw [Moment.date, hday', ofDayNumber_dayNumber (p.valid_target m.date)]

theorem eq_of_apply_error {e : HelperError} (h : p.apply m = .error e) :
    e = .timestampOutOfRange m.millis := by
  unfold apply at h
  split at h
  · cases h
  · exact (Except.error.inj h).symm

/-- The only failure is that the date that is reached is not representable; it names the moment of
the start. -/
theorem apply_eq_error_iff {e : HelperError} :
    p.apply m = .error e ↔
      ¬ (p.target m.date).Representable ∧ e = .timestampOutOfRange m.millis := by
  constructor
  · intro h
    refine ⟨fun hlast => ?_, eq_of_apply_error h⟩
    obtain ⟨m', hmoved⟩ := exists_apply hlast
    rw [hmoved] at h
    cases h
  · rintro ⟨hlast, rfl⟩
    cases h : p.apply m with
    | ok m' =>
      rw [← (apply_eq_ok_iff.mp h).1] at hlast
      exact absurd m'.representable hlast
    | error e => rw [eq_of_apply_error h]

/-- A period leads from the date of a moment, which is counted from the first of January 1970, to
one other date. The moment is moved to that date, at the same time of day, when its year is
representable, and otherwise the period is out of range. -/
theorem apply_by_calendar (p : Period) (m : Moment) :
    epoch.DaysLater m.day m.date ∧
      ∃ target : Date, (∀ d, p.LeadsTo m.date d ↔ d = target) ∧
        (target.Representable →
          ∃ m', p.apply m = .ok m' ∧ epoch.DaysLater m'.day target ∧ m'.nanos = m.nanos) ∧
        (¬ target.Representable → p.apply m = .error (.timestampOutOfRange m.millis)) := by
  refine ⟨daysLater_epoch_iff.mpr rfl, p.target m.date, fun d => leadsTo_iff m.valid_date, ?_, ?_⟩
  · intro hlast
    obtain ⟨m', h⟩ := exists_apply hlast
    obtain ⟨hdate, hnanos⟩ := apply_eq_ok_iff.mp h
    exact ⟨m', h, daysLater_epoch_iff.mpr hdate.symm, hnanos⟩
  · intro hlast
    exact apply_eq_error_iff.mpr ⟨hlast, rfl⟩

end Period
end Stencil.Calendar
