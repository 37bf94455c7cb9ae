import Stencil.Calendar.DateText
import Stencil.Proofs.Text.Numeral

/-!
# Reading dates

Main statement: the text of a date in any of the four patterns is read as that date. The reader
takes a text apart at its marks and knows nothing of widths, so that it says what a text denotes
whoever wrote it.
-/

namespace Stencil.Calendar
open Numeral

/-! ## Reader -/

/-- The first three letters of the names of the months. -/
def shortMonthNames : List Text := monthNames.map (List.take 3)

/-- The number of a month among the given names, counted from 1. -/
def monthNamed? (names : List Text) (t : Text) : Option ℕ := (names.idxOf? t).map (· + 1)

/-- The text before and after the first hyphen that is not a sign in front. -/
def splitSigned? : Text → Option (Text × Text)
  | '-' :: t => (Text.splitOnce? '-' t).map fun (year, rest) => ('-' :: year, rest)
  | t => Text.splitOnce? '-' t

/-- A month by its name, a day and a year. -/
def readNamed? (names : List Text) (t : Text) : Option Date := do
  let (month, t) ← Text.splitOnce? ' ' t
  let (day, t) ← Text.splitOnce? ',' t
  let year ← Text.afterPrefix? [' '] t
  some ⟨← toInt? year, ← monthNamed? names month, ← toNat? day⟩

/-- The date that a text denotes under a pattern. -/
def DatePattern.read? : DatePattern → Text → Option Date
  | .slashes, t => do
    let (month, t) ← Text.splitOnce? '/' t
    let (day, year) ← Text.splitOnce? '/' t
    some ⟨← toInt? year, ← toNat? month, ← toNat? day⟩
  | .words, t => readNamed? monthNames t
  | .hyphens, t => do
    let (year, t) ← splitSigned? t
    let (month, day) ← Text.splitOnce? '-' t
    some ⟨← toInt? year, ← toNat? month, ← toNat? day⟩
  | .abbreviated, t => readNamed? shortMonthNames t

/-! ## Parts -/

section
variable {t : Text} {n : ℕ}

theorem not_mem_of_toNat? {c : Char} (h : toNat? t = some n) (hc : c.isDigit = false) :
    c ∉ t := not_mem_of_isDigits (toNat?_eq_some_iff.mp h).1 hc

theorem toNat?_twoDigits (n : ℕ) : toNat? (twoDigits n) = some n := toNat?_padStart 2 n

theorem signedDigits_yearText (year : ℤ) : SignedDigits (yearText year) year := by
  obtain ⟨hdigits, hvalue⟩ := toNat?_eq_some_iff.mp (toNat?_padStart 4 year.natAbs)
  unfold yearText
  dsimp only
  split
  · have hminus := SignedDigits.minus hdigits
    rwa [hvalue, show -(year.natAbs : ℤ) = year by omega] at hminus
  · split
    · have hplus := SignedDigits.plus hdigits
      rwa [hvalue, show (year.natAbs : ℤ) = year by omega] at hplus
    · have hbare := SignedDigits.bare hdigits
      rwa [hvalue, show (year.natAbs : ℤ) = year by omega] at hbare

theorem toInt?_yearText (year : ℤ) : toInt? (yearText year) = some year :=
  (signedDigits_yearText year).toInt?_eq

/-- The hyphen behind a year is told from the one that is its sign. -/
theorem splitSigned?_append {year : ℤ} (h : SignedDigits t year) (rest : Text) :
    splitSigned? (t ++ '-' :: rest) = some (t, rest) := by
  have hhyphen {t : Text} (h : isDigits t = true) : '-' ∉ t := not_mem_of_isDigits h rfl
  cases h with
  | bare h =>
    rw [splitSigned?, Text.splitOnce?_append t rest (hhyphen h)]
    rintro t' heq
    obtain ⟨hne, -⟩ := isDigits_iff.mp h
    obtain ⟨c, t, rfl⟩ := List.exists_cons_of_ne_nil hne
    obtain ⟨rfl, -⟩ := List.cons.inj heq
    exact hhyphen h List.mem_cons_self
  | @plus t h =>
    have hplus : '-' ∉ '+' :: t := List.not_mem_cons_of_ne_of_not_mem (by decide) (hhyphen h)
    rw [splitSigned?, Text.splitOnce?_append _ rest hplus]
    nofun
  | @minus t h =>
    rw [List.cons_append, splitSigned?, Text.splitOnce?_append t rest (hhyphen h)]
    rfl

/-- The names of the months have no blanks, and no two of them begin with the same three letters. -/
theorem monthNames_spec : ∀ month ∈ List.range' 1 12,
    ' ' ∉ monthName month ∧ monthNamed? monthNames (monthName month) = some month ∧
      monthNamed? shortMonthNames ((monthName month).take 3) = some month := by
  decide

theorem readNamed?_append {names : List Text} {month : ℕ} {name day : Text} {year : ℤ}
    (hblank : ' ' ∉ name) (hmonth : monthNamed? names name = some month)
    (hday : toNat? day = some n) :
    readNamed? names (name ++ ' ' :: (day ++ ',' :: ' ' :: yearText year)) =
      some ⟨year, month, n⟩ := by
  have hcomma : ',' ∉ day := not_mem_of_toNat? hday rfl
  have hyear : Text.afterPrefix? [' '] (' ' :: yearText year) = some (yearText year) :=
    Text.afterPrefix?_append [' '] _
  simp only [readNamed?, Text.splitOnce?_append _ _ hblank, Text.splitOnce?_append _ _ hcomma,
    hyear, toInt?_yearText, hmonth, hday, Option.bind_eq_bind, Option.bind_some]

end

/-- What is printed under a pattern is read as the date that it was printed for. -/
theorem DatePattern.read?_print (pattern : DatePattern) {d : Date} (h : d.Valid) :
    pattern.read? (pattern.print d) = some d := by
  obtain ⟨hpos, hle, -⟩ := h
  obtain ⟨hblank, hname, hshort⟩ := monthNames_spec d.month (List.mem_range'_1.mpr (by omega))
  have hmark (c : Char) (n : ℕ) (hc : c.isDigit = false) : c ∉ twoDigits n :=
    not_mem_of_toNat? (toNat?_twoDigits n) hc
  cases pattern with
  | slashes =>
    simp only [read?, print, Text.splitOnce?_append _ _ (hmark '/' _ rfl), toInt?_yearText,
      toNat?_twoDigits, Option.bind_eq_bind, Option.bind_some]
  | words => exact readNamed?_append hblank hname (toNat?_ofNat d.day)
  | hyphens =>
    simp only [read?, print, splitSigned?_append (signedDigits_yearText d.year),
      Text.splitOnce?_append _ _ (hmark '-' _ rfl), toInt?_yearText, toNat?_twoDigits,
      Option.bind_eq_bind, Option.bind_some]
  | abbreviated =>
    have hblank' : ' ' ∉ (monthName d.month).take 3 :=
      fun hmem => hblank (List.mem_of_mem_take hmem)
    exact readNamed?_append hblank' hshort (toNat?_twoDigits d.day)

/-- A text denotes a date however it was written. -/
example : DatePattern.hyphens.read? "-5-3-01".toList = some ⟨-5, 3, 1⟩ := by decide

end Stencil.Calendar
