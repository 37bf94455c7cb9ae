import Mathlib.Data.Rat.Floor
import Stencil.Calendar.Timestamp
import Stencil.Proofs.Calendar.DateReading
import Stencil.Proofs.Calendar.Succession
import Stencil.Proofs.Text.NumeralOrder

/-!
# The text of a day

Main statement: a timestamp is written as the date of its day in UTC, so that its text tells one day
from another, and the texts that begin with the year are in the order of the days as long as years
have four digits.
-/

namespace Stencil.Calendar
open Numeral
variable {millis : ℤ} {pattern : DatePattern} {text : Text} {d d' : Date}

/-! ## Days -/

/-- The day of a timestamp in UTC, counted from the first of January 1970. -/
def utcDay (millis : ℤ) : ℤ := ⌊(millis : ℚ) / 86400000⌋

theorem dayOf_eq (millis : ℤ) : dayOf millis = utcDay millis := by
  have hfloor := Rat.floor_intCast_div_natCast millis 86400000
  exact hfloor.symm

theorem formatMillis_of_representable (h : (Date.ofDayNumber (utcDay millis)).Representable)
    (pattern : DatePattern) :
    formatMillis millis pattern = .ok (pattern.print (Date.ofDayNumber (utcDay millis))) := by
  rw [← dayOf_eq] at h ⊢
  unfold formatMillis
  rw [Moment.ofMillis?, dif_pos h]
  rfl

theorem formatMillis_of_not_representable
    (h : ¬ (Date.ofDayNumber (utcDay millis)).Representable) (pattern : DatePattern) :
    formatMillis millis pattern = .error (.timestampOutOfRange millis) := by
  rw [← dayOf_eq] at h
  unfold formatMillis
  rw [Moment.ofMillis?, dif_neg h]

/-- A text is written for a day only, and it is the one of its date. -/
theorem formatMillis_eq_ok_iff :
    formatMillis millis pattern = .ok text ↔
      (Date.ofDayNumber (utcDay millis)).Representable ∧
        text = pattern.print (Date.ofDayNumber (utcDay millis)) := by
  by_cases h : (Date.ofDayNumber (utcDay millis)).Representable
  · rw [formatMillis_of_representable h, Except.ok.injEq, and_iff_right h, eq_comm]
  · rw [formatMillis_of_not_representable h]
    exact iff_of_false nofun fun hand => h hand.1

/-! ## Texts -/

/-- Two dates of the calendar are told apart by their texts. -/
theorem DatePattern.print_inj (pattern : DatePattern) (h : d.Valid) (h' : d'.Valid) :
    pattern.print d = pattern.print d' ↔ d = d' := by
  constructor
  · intro heq
    have hread := pattern.read?_print h
    rw [heq, pattern.read?_print h'] at hread
    exact (Option.some.inj hread).symm
  · rintro rfl
    rfl

/-- Years of four digits are written without a sign, so that all parts have fixed widths. -/
theorem print_hyphens (hpos : 0 ≤ d.year) (hle : d.year ≤ 9999) :
    DatePattern.hyphens.print d =
      Text.padStart 4 '0' (ofNat d.year.natAbs) ++
        '-' :: (Text.padStart 2 '0' (ofNat d.month) ++
          '-' :: Text.padStart 2 '0' (ofNat d.day)) := by
  rw [DatePattern.print, yearText, if_neg (not_lt.mpr hpos), if_neg (not_lt.mpr hle)]
  rfl

/-- In years of four digits, the texts that begin with the year are ordered as the dates are. -/
theorem print_hyphens_lt_iff (h : d.Valid) (h' : d'.Valid) (hpos : 0 ≤ d.year)
    (hle : d.year ≤ 9999) (hpos' : 0 ≤ d'.year) (hle' : d'.year ≤ 9999) :
    DatePattern.hyphens.print d < DatePattern.hyphens.print d' ↔ d.Earlier d' := by
  have hparts {d : Date} (h : d.Valid) : d.month < 10 ^ 2 ∧ d.day < 10 ^ 2 := by
    obtain ⟨hmonth, hmonth', -, hday⟩ := h
    have hlast := (monthLength_bounds d.year hmonth hmonth').2
    omega
  obtain ⟨hmonth, hday⟩ := hparts h
  obtain ⟨hmonth', hday'⟩ := hparts h'
  rw [print_hyphens hpos hle, print_hyphens hpos' hle',
    padStart_append_lt_iff (by decide) (by omega) (by omega), List.cons_lt_cons_self,
    padStart_append_lt_iff (by decide) hmonth hmonth', List.cons_lt_cons_self,
    padStart_lt_iff (by decide) hday hday']
  unfold Date.Earlier
  omega

/-! ## Timestamps -/

/-- The date of a timestamp in UTC. -/
def OnDate (millis : ℤ) (d : Date) : Prop := Date.epoch.DaysLater (utcDay millis) d

theorem onDate_iff : OnDate millis d ↔ d = Date.ofDayNumber (utcDay millis) :=
  Date.daysLater_epoch_iff

/-- A timestamp is written, in each pattern, as the one date that is its number of whole days away
from the first of January 1970, when that date can be represented. Texts are equal for timestamps of
one day only, and in years of four digits the texts that begin with the year are ordered as the days
are. -/
theorem formatMillis_identifies_day (millis millis' : ℤ) :
    ∃ d d', OnDate millis d ∧ OnDate millis' d' ∧
      (∀ pattern : DatePattern,
        (d.Representable → ∃ text, formatMillis millis pattern = .ok text ∧
          pattern.read? text = some d) ∧
        (¬ d.Representable → formatMillis millis pattern = .error (.timestampOutOfRange millis))) ∧
      (∀ (pattern : DatePattern) text text', formatMillis millis pattern = .ok text →
        formatMillis millis' pattern = .ok text' →
        (text = text' ↔ utcDay millis = utcDay millis')) ∧
      (0 ≤ d.year → d.year ≤ 9999 → 0 ≤ d'.year → d'.year ≤ 9999 →
        ∃ text text', formatMillis millis .hyphens = .ok text ∧
          formatMillis millis' .hyphens = .ok text' ∧
          (text < text' ↔ utcDay millis < utcDay millis')) := by
  have hvalid := Date.valid_ofDayNumber (utcDay millis)
  have hvalid' := Date.valid_ofDayNumber (utcDay millis')
  refine ⟨_, _, onDate_iff.mpr rfl, onDate_iff.mpr rfl, ?_, ?_, ?_⟩
  · intro pattern
    refine ⟨fun h => ⟨_, formatMillis_of_representable h pattern, ?_⟩,
      fun h => formatMillis_of_not_representable h pattern⟩
    exact pattern.read?_print hvalid
  · intro pattern text text' h h'
    obtain ⟨-, rfl⟩ := formatMillis_eq_ok_iff.mp h
    obtain ⟨-, rfl⟩ := formatMillis_eq_ok_iff.mp h'
    rw [pattern.print_inj hvalid hvalid', Date.ofDayNumber_inj]
  · intro hpos hle hpos' hle'
    have hrepresentable {d : Date} (hpos : 0 ≤ d.year) (hle : d.year ≤ 9999) :
        d.Representable := by
      unfold Date.Representable
      omega
    refine ⟨_, _, formatMillis_of_representable (hrepresentable hpos hle) _,
      formatMillis_of_representable (hrepresentable hpos' hle') _, ?_⟩
    rw [print_hyphens_lt_iff hvalid hvalid' hpos hle hpos' hle',
      ← Date.dayNumber_lt_iff hvalid hvalid', Date.dayNumber_ofDayNumber,
      Date.dayNumber_ofDayNumber]

/-- The last millisecond before 1970 lies on the last day of December. -/
example : formatMillis (-1) .words = .ok "December 31, 1969".toList ∧
    formatMillis (-1) .abbreviated = .ok "Dec 31, 1969".toList := by decide

end Stencil.Calendar
