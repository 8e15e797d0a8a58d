import RustCodeMcp.Calendar.Gregorian
import RustCodeMcp.Text.Fields
import RustCodeMcp.Text.Numerals
import Mathlib.Tactic.IntervalCases

/-!
# Log times

Timestamps of log lines are read into seconds since the Unix epoch by a closed formula, and the
report's clock goes back by another one. The first counts the days of the calendar
(`isCount_days`), the second gives back month, day and time of day to a tenth of a second
(`parseTimestamp_text`). Integers and seconds are exact here.

The formulas count days from March, so that the leap day is the last of its year, and by eras of 400
years, which have the same number of days. That they are right is a matter of three steps: the day
after the last one of a month is the first of the next, so it is within a year and from one year to
the next (`daysFromCivil_month`, `daysFromCivil_year`), and so the formula is the only way to count
days one by one (`isCount_days`). Backwards the year is not needed, and not given.

The clock shows seconds with one decimal, and those that have no more are shown as they were read.
-/

namespace RustCodeMcp.ToolLatency

open Gregorian Numerals

/-- Days from 1970-01-01 of a proleptic Gregorian date. -/
def daysFromCivil (year month day : ℤ) : ℤ :=
  let y := if month ≤ 2 then year - 1 else year
  let era := y / 400
  let yoe := y - era * 400
  let mp := (month + 9).tmod 12
  let doy := (153 * mp + 2).tdiv 5 + day - 1
  let doe := yoe * 365 + yoe.tdiv 4 - yoe.tdiv 100 + doy
  era * 146097 + doe - 719468

/-- Month and day. -/
def civilFromDays (days : ℤ) : ℤ × ℤ :=
  let z := days + 719468
  let doe := z - z / 146097 * 146097
  let yoe := (doe - doe.tdiv 1460 + doe.tdiv 36524 - doe.tdiv 146096).tdiv 365
  let doy := doe - (365 * yoe + yoe.tdiv 4 - yoe.tdiv 100)
  let mp := (5 * doy + 2).tdiv 153
  let day := doy - (153 * mp + 2).tdiv 5 + 1
  let month := if mp < 10 then mp + 3 else mp - 9
  (month, day)

/-- Of `2026-10-31T15:34:46.421517Z`, the fraction and the `Z` optional. -/
def parseTimestamp (text : List Char) : Option ℚ := do
  let text := if text.getLast? = some 'Z' then text.dropLast else text
  let (date, time) ← Fields.splitOnce 'T' text
  match Fields.split '-' date, Fields.split ':' time with
  | year :: month :: day :: _, hour :: minute :: second :: _ =>
    let year ← parseInt year
    let month ← parseInt month
    let day ← parseInt day
    let hour ← parseInt hour
    let minute ← parseInt minute
    let second ← parseDecimal second
    if month < 1 ∨ 12 < month ∨ day < 1 ∨ 31 < day ∨ 23 < hour ∨ 59 < minute then none
    else
      some ((daysFromCivil year month day * 86400 + hour * 3600 + minute * 60 : ℤ) + second)
  | _, _ => none

/-- The remainder of numbers that are not negative. -/
def remainder (a b : ℚ) : ℚ :=
  a - b * ⌊a / b⌋

/-- A number with two digits at least. -/
def twoDigits (n : ℤ) : List Char :=
  pad 2 (Nat.toDigits 10 n.toNat)

/-- `MM-DD HH:MM:SS.s` -/
def clock (time : ℚ) : List Char :=
  let days := ⌊time / 86400⌋
  let inDay := remainder time 86400
  let hours := ⌊inDay / 3600⌋
  let minutes := ⌊remainder inDay 3600 / 60⌋
  let seconds := remainder inDay 60
  let (month, day) := civilFromDays days
  twoDigits month ++ '-' :: (twoDigits day ++ ' ' :: (twoDigits hours ++
    ':' :: (twoDigits minutes ++ ':' :: pad 4 (oneDecimal seconds))))

/-! ### The days of the calendar -/

/-- The number of a date. -/
def days (d : Date) : ℤ :=
  daysFromCivil d.year d.month d.day

/-- The date that days are counted from. -/
def epoch : Date :=
  .newYear 1970

theorem days_epoch : days epoch = 0 := by
  decide

/-- The formula for years and months that are numbers of the calendar. -/
theorem daysFromCivil_eq {year month : ℕ} (hmonth : 1 ≤ month) (day : ℤ) :
    daysFromCivil year month day =
      (let y : ℤ := if month ≤ 2 then year - 1 else year
       365 * y + y / 4 - y / 100 + y / 400 + (153 * ((month + 9) % 12) + 2) / 5 + day -
        719469) := by
  unfold daysFromCivil
  dsimp only
  rw [Int.tmod_eq_emod_of_nonneg (by omega), Int.tdiv_eq_ediv_of_nonneg (by omega)]
  rw [Int.tdiv_eq_ediv_of_nonneg (by omega), Int.tdiv_eq_ediv_of_nonneg (by omega)]
  split_ifs <;> omega

/-- The day after the last one of a month is the first of the next. -/
theorem daysFromCivil_month {year month : ℕ} (hpos : 1 ≤ month) (hlt : month < 12) :
    daysFromCivil year ((month + 1 : ℕ) : ℤ) 1 =
      daysFromCivil year month (daysInMonth year month : ℕ) + 1 := by
  rw [daysFromCivil_eq hpos, daysFromCivil_eq (Nat.le_add_left 1 month)]
  obtain hfebruary | hother := eq_or_ne month 2
  · subst hfebruary
    have hdays : daysInMonth year 2 = if IsLeap year then 29 else 28 := rfl
    rw [hdays]
    by_cases hleap : IsLeap year
    · rw [if_pos hleap]
      rw [IsLeap] at hleap
      simp
      omega
    · rw [if_neg hleap]
      rw [IsLeap] at hleap
      simp
      omega
  · simp only [daysInMonth, if_neg hother]
    interval_cases month <;> simp at hother ⊢ <;> omega

/-- The day after the last one of a year is the first of the next. -/
theorem daysFromCivil_year (year : ℕ) :
    daysFromCivil ((year + 1 : ℕ) : ℤ) (1 : ℕ) 1 =
      daysFromCivil year (12 : ℕ) (daysInMonth year 12 : ℕ) + 1 := by
  rw [daysFromCivil_eq le_rfl, daysFromCivil_eq (by decide)]
  simp [daysInMonth]
  omega

/-- **The formula counts the days of the calendar.** -/
theorem isCount_days : IsCount days := by
  intro d
  have hle := d.day_le
  rw [Date.next]
  split_ifs with hday hmonth
  · rw [days, days, daysFromCivil_eq d.month_pos, daysFromCivil_eq d.month_pos]
    dsimp only
    omega
  · have hlast : d.day = daysInMonth d.year d.month := by omega
    rw [days, days, hlast]
    exact daysFromCivil_month d.month_pos hmonth
  · have hlast : d.day = daysInMonth d.year d.month := by omega
    have hmonth : d.month = 12 := le_antisymm d.month_le (not_lt.1 hmonth)
    rw [days, days, hlast, hmonth]
    exact daysFromCivil_year d.year

/-- A day of the era is in the year it was counted in. The 366th day of a year needs a leap day at
its end. -/
theorem yearOfEra {yoe doy : ℤ} (hyoe : 0 ≤ yoe) (hyoe' : yoe < 400) (hdoy : 0 ≤ doy)
    (hdoy' : doy ≤ 365)
    (hleap : doy = 365 → (yoe + 1) % 4 = 0 ∧ ((yoe + 1) % 100 = 0 → (yoe + 1) % 400 = 0))
    {doe : ℤ} (hdoe : doe = yoe * 365 + yoe / 4 - yoe / 100 + doy) :
    (doe - doe / 1460 + doe / 36524 - doe / 146096) / 365 = yoe := by
  obtain ⟨c, a, b, hyear, hc, ha, hb⟩ : ∃ c a b : ℤ, yoe = 100 * c + 4 * a + b ∧
      (0 ≤ c ∧ c < 4) ∧ (0 ≤ a ∧ a < 25) ∧ 0 ≤ b ∧ b < 4 :=
    ⟨yoe / 100, yoe % 100 / 4, yoe % 4, by omega, by omega, by omega, by omega⟩
  have hleap' : doy = 365 → b = 3 ∧ (a = 24 → c = 3) := fun h ↦ by
    have := hleap h
    omega
  have hfour : yoe / 4 = 25 * c + a := by omega
  have hcentury : yoe / 100 = c := by omega
  rw [hfour, hcentury, hyear] at hdoe
  clear hleap hfour hcentury
  rw [hyear]
  obtain hlast | hdoe' : doe = 146096 ∨ doe < 146096 := by omega
  · have : 100 * c + 4 * a + b = 399 := by omega
    rw [hlast, this]
    rfl
  · have hcenturies : doe / 36524 = c := by omega
    have hcycles : doe / 1460 = 25 * c + a + (24 * c + a + 365 * b + doy) / 1460 := by omega
    have hera : doe / 146096 = 0 := by omega
    have hextra : 0 ≤ doy - (24 * c + a + 365 * b + doy) / 1460 ∧
        doy - (24 * c + a + 365 * b + doy) / 1460 < 365 := by omega
    rw [hcenturies, hcycles, hera]
    omega

/-- The month is found in the year that begins in March. -/
theorem monthOfYear {month day : ℤ} (hmonth : 1 ≤ month) (hmonth' : month ≤ 12) (hday : 1 ≤ day)
    (hday' : day ≤ if month = 2 then 29 else if month = 4 ∨ month = 6 ∨ month = 9 ∨ month = 11
      then 30 else 31) {doy : ℤ} (hdoy : doy = (153 * ((month + 9) % 12) + 2) / 5 + day - 1) :
    (5 * doy + 2) / 153 = (month + 9) % 12 ∧
      (if (month + 9) % 12 < 10 then (month + 9) % 12 + 3 else (month + 9) % 12 - 9) = month ∧
      0 ≤ doy ∧ doy ≤ 365 ∧ (doy = 365 → month = 2 ∧ day = 29) := by
  interval_cases month <;> simp at hday' hdoy ⊢ <;> omega

theorem day_le_of_month (d : Date) : (d.day : ℤ) ≤ (if (d.month : ℤ) = 2 then 29
    else if (d.month : ℤ) = 4 ∨ (d.month : ℤ) = 6 ∨ (d.month : ℤ) = 9 ∨ (d.month : ℤ) = 11 then 30
    else 31 : ℤ) := by
  have hle := d.day_le
  rw [daysInMonth] at hle
  split_ifs at hle ⊢ <;> omega

theorem isLeap_of_day {d : Date} (hmonth : d.month = 2) (hday : d.day = 29) : IsLeap d.year := by
  have hle := d.day_le
  rw [daysInMonth, if_pos hmonth] at hle
  by_contra hnot
  rw [if_neg hnot] at hle
  omega

/-- **The formula back gives the month and the day.** -/
theorem civilFromDays_days (d : Date) : civilFromDays (days d) = ((d.month : ℤ), (d.day : ℤ)) := by
  have hday := d.day_pos
  have hmonth := d.month_pos
  have hmonth' := d.month_le
  rw [days, daysFromCivil]
  generalize hy : (if (d.month : ℤ) ≤ 2 then (d.year : ℤ) - 1 else d.year) = y
  rw [Int.tmod_eq_emod_of_nonneg (by omega), Int.tdiv_eq_ediv_of_nonneg (by omega),
    Int.tdiv_eq_ediv_of_nonneg (by omega), Int.tdiv_eq_ediv_of_nonneg (by omega)]
  generalize hera : y / 400 = era
  generalize hyoe : y - era * 400 = yoe
  generalize hdoy : (153 * (((d.month : ℤ) + 9) % 12) + 2) / 5 + d.day - 1 = doy
  obtain ⟨hmp, hback, hnonneg, hle, hlast⟩ := monthOfYear (by omega) (by omega) (by omega)
    (day_le_of_month d) hdoy.symm
  have hyoe' : 0 ≤ yoe ∧ yoe < 400 := by omega
  have hleap : doy = 365 →
      (yoe + 1) % 4 = 0 ∧ ((yoe + 1) % 100 = 0 → (yoe + 1) % 400 = 0) := by
    intro h
    obtain ⟨hfebruary, hday⟩ := hlast h
    have hyear := isLeap_of_day (Int.ofNat_inj.1 hfebruary) (Int.ofNat_inj.1 hday)
    rw [IsLeap] at hyear
    omega
  generalize hdoe : yoe * 365 + yoe / 4 - yoe / 100 + doy = doe
  have hdoe' : 0 ≤ doe ∧ doe < 146097 := by omega
  have hz : era * 146097 + doe - 719468 + 719468 -
      (era * 146097 + doe - 719468 + 719468) / 146097 * 146097 = doe := by omega
  have hyear := yearOfEra hyoe'.1 hyoe'.2 hnonneg hle hleap hdoe.symm
  have hdoy' : doe - (365 * yoe + yoe / 4 - yoe / 100) = doy := by omega
  have hyears : 0 ≤ doe - doe / 1460 + doe / 36524 - doe / 146096 := by omega
  rw [civilFromDays, hz, Int.tdiv_eq_ediv_of_nonneg hdoe'.1, Int.tdiv_eq_ediv_of_nonneg hdoe'.1,
    Int.tdiv_eq_ediv_of_nonneg hdoe'.1, Int.tdiv_eq_ediv_of_nonneg hyears, hyear,
    Int.tdiv_eq_ediv_of_nonneg hyoe'.1, Int.tdiv_eq_ediv_of_nonneg hyoe'.1, hdoy',
    Int.tdiv_eq_ediv_of_nonneg (by omega), hmp, hback, Int.tdiv_eq_ediv_of_nonneg (by omega)]
  exact Prod.ext rfl (by dsimp only; omega)

/-! ### Timestamps -/

/-- A timestamp of a date and a time of day, its numerals of any width. -/
structure Stamp where
  year : Numeral
  month : Numeral
  day : Numeral
  hour : Numeral
  minute : Numeral
  second : Numeral
  /-- The decimals of the second. -/
  fraction : List Char
  zulu : Bool
  month_pos : 1 ≤ month.value
  month_le : month.value ≤ 12
  day_pos : 1 ≤ day.value
  day_le : day.value ≤ daysInMonth year.value month.value
  hour_lt : hour.value < 24
  minute_lt : minute.value < 60
  second_lt : second.value < 60
  fraction_isDigit : ∀ c ∈ fraction, c.isDigit = true

namespace Stamp

variable {s t : Stamp}

/-- The date of a timestamp. -/
def date (s : Stamp) : Date :=
  ⟨s.year.value, s.month.value, s.day.value, s.month_pos, s.month_le, s.day_pos, s.day_le⟩

/-- Its date as text. -/
def dateText (s : Stamp) : List Char :=
  s.year.digits ++ '-' :: (s.month.digits ++ '-' :: s.day.digits)

/-- Its time of day as text. -/
def timeText (s : Stamp) : List Char :=
  s.hour.digits ++ ':' :: (s.minute.digits ++ ':' :: withDecimals s.second.digits s.fraction)

/-- The timestamp as text. -/
def text (s : Stamp) : List Char :=
  s.dateText ++ 'T' :: s.timeText ++ if s.zulu then ['Z'] else []

/-- The seconds with their fraction. -/
def seconds (s : Stamp) : ℚ :=
  valueWithDecimals s.second s.fraction

/-- The seconds since midnight. -/
def ofDay (s : Stamp) : ℚ :=
  s.hour.value * 3600 + s.minute.value * 60 + s.seconds

/-- What the clock shows of a second with one decimal or none. -/
def clockText (s : Stamp) : List Char :=
  twoDigits s.month.value ++ '-' :: (twoDigits s.day.value ++ ' ' :: (twoDigits s.hour.value ++
    ':' :: (twoDigits s.minute.value ++ ':' :: (twoDigits s.second.value ++
      '.' :: if s.fraction = [] then ['0'] else s.fraction))))

/-- The earlier of two timestamps, by date and then by the time of day. -/
def Before (s t : Stamp) : Prop :=
  s.date < t.date ∨ s.date = t.date ∧ (s.hour.value < t.hour.value ∨
    s.hour.value = t.hour.value ∧ (s.minute.value < t.minute.value ∨
      s.minute.value = t.minute.value ∧ s.seconds < t.seconds))

theorem notMem_dateText {c : Char} (hc : c.isDigit = false) (hdash : c ≠ '-') :
    c ∉ s.dateText := by
  have hyear := s.year.notMem hc
  have hmonth := s.month.notMem hc
  have hday := s.day.notMem hc
  simp [dateText, hyear, hmonth, hday, hdash]

/-- Seconds are written with digits and a point. -/
theorem notMem_second {c : Char} (hc : c.isDigit = false) (hdot : c ≠ '.') :
    c ∉ withDecimals s.second.digits s.fraction := by
  have hsecond := s.second.notMem hc
  have hfraction : c ∉ s.fraction := fun h ↦
    Bool.false_ne_true (hc.symm.trans (s.fraction_isDigit c h))
  rw [withDecimals]
  split_ifs <;> simp [hsecond, hfraction, hdot]

/-- What a timestamp is written with, without its end. -/
theorem notMem_body {c : Char} (hc : c.isDigit = false) (h : c ∉ ['-', 'T', ':', '.']) :
    c ∉ s.dateText ++ 'T' :: s.timeText := by
  simp only [List.mem_cons, not_or] at h
  obtain ⟨hdash, ht, hcolon, hdot, -⟩ := h
  have hdate : c ∉ s.dateText := notMem_dateText hc hdash
  have hhour := s.hour.notMem hc
  have hminute := s.minute.notMem hc
  have hsecond : c ∉ withDecimals s.second.digits s.fraction := notMem_second hc hdot
  simp [timeText, hdate, hhour, hminute, hsecond, ht, hcolon]

theorem notMem_text {c : Char} (hc : c.isDigit = false) (h : c ∉ ['-', 'T', ':', '.', 'Z']) :
    c ∉ s.text := by
  have hbody := s.notMem_body hc fun hmem ↦ h (List.mem_append_left ['Z'] hmem)
  have hzulu : c ≠ 'Z' := fun heq ↦ h (by rw [heq]; decide)
  rw [text]
  split_ifs <;> simpa [hzulu] using hbody

/-- The `Z` at the end is taken off, if there is one. -/
theorem strip_text (s : Stamp) :
    (if s.text.getLast? = some 'Z' then s.text.dropLast else s.text) =
      s.dateText ++ 'T' :: s.timeText := by
  rw [text]
  cases s.zulu with
  | true =>
    show (if (s.dateText ++ 'T' :: s.timeText ++ ['Z']).getLast? = some 'Z' then _ else _) = _
    rw [if_pos List.getLast?_concat]
    exact List.dropLast_concat
  | false =>
    show (if (s.dateText ++ 'T' :: s.timeText ++ []).getLast? = some 'Z' then _ else _) = _
    rw [List.append_nil, if_neg fun h ↦
      notMem_body (by decide) (by decide) (List.mem_of_getLast? h)]
    exact List.append_nil _

/-- The date is split into its numerals. -/
theorem split_dateText (s : Stamp) :
    Fields.split '-' s.dateText = [s.year.digits, s.month.digits, s.day.digits] := by
  rw [dateText, Fields.split_append (s.year.notMem (by decide)),
    Fields.split_append (s.month.notMem (by decide)),
    Fields.split_of_notMem (s.day.notMem (by decide))]

theorem split_timeText (s : Stamp) : Fields.split ':' s.timeText =
    [s.hour.digits, s.minute.digits, withDecimals s.second.digits s.fraction] := by
  rw [timeText, Fields.split_append (s.hour.notMem (by decide)),
    Fields.split_append (s.minute.notMem (by decide)),
    Fields.split_of_notMem (notMem_second (by decide) (by decide))]

/-- **A timestamp is read as its seconds since the epoch.** -/
theorem parseTimestamp_text (s : Stamp) :
    parseTimestamp s.text = some (86400 * days s.date + s.ofDay) := by
  have hday : s.day.value ≤ 31 := s.date.day_le_31
  have hfields : ¬ ((s.month.value : ℤ) < 1 ∨ 12 < (s.month.value : ℤ) ∨ (s.day.value : ℤ) < 1 ∨
      31 < (s.day.value : ℤ) ∨ 23 < (s.hour.value : ℤ) ∨ 59 < (s.minute.value : ℤ)) := by
    have hmonth := s.month_pos
    have hmonth' := s.month_le
    have hday' := s.day_pos
    have hhour := s.hour_lt
    have hminute := s.minute_lt
    omega
  have hsplit : Fields.splitOnce 'T' (s.dateText ++ 'T' :: s.timeText) =
      some (s.dateText, s.timeText) :=
    Fields.splitOnce_append (notMem_dateText (by decide) (by decide)) _
  rw [parseTimestamp, strip_text, hsplit]
  dsimp only [Option.bind_eq_bind, Option.bind_some]
  rw [split_dateText, split_timeText]
  dsimp only
  simp only [parseInt_digits, parseDecimal_withDecimals _ s.fraction_isDigit,
    Option.bind_some]
  rw [if_neg hfields]
  refine congrArg some ?_
  show ((days s.date * 86400 + s.hour.value * 3600 + s.minute.value * 60 : ℤ) : ℚ) + s.seconds = _
  rw [ofDay]
  push_cast
  ring

theorem seconds_nonneg (s : Stamp) : 0 ≤ s.seconds :=
  add_nonneg (Nat.cast_nonneg _) (div_nonneg (Nat.cast_nonneg _) (by positivity))

theorem seconds_lt (s : Stamp) : s.seconds < 60 := by
  have hfraction : (value s.fraction : ℚ) / 10 ^ s.fraction.length < 1 := by
    rw [div_lt_one (by positivity)]
    exact_mod_cast value_lt s.fraction_isDigit
  have hsecond : ((s.second.value + 1 : ℕ) : ℚ) ≤ (60 : ℕ) := Nat.cast_le.2 s.second_lt
  rw [seconds, valueWithDecimals]
  push_cast at hsecond
  linarith

theorem ofDay_nonneg (s : Stamp) : 0 ≤ s.ofDay := by
  have hseconds := s.seconds_nonneg
  rw [ofDay]
  positivity

theorem ofDay_lt (s : Stamp) : s.ofDay < 86400 := by
  have hseconds := s.seconds_lt
  have hhour : (s.hour.value : ℚ) ≤ 23 := by exact_mod_cast Nat.le_of_lt_succ s.hour_lt
  have hminute : (s.minute.value : ℚ) ≤ 59 := by exact_mod_cast Nat.le_of_lt_succ s.minute_lt
  rw [ofDay]
  linarith

/-- A later timestamp is a larger number of seconds. -/
theorem lt_of_before (h : s.Before t) :
    (86400 * days s.date + s.ofDay : ℚ) < 86400 * days t.date + t.ofDay := by
  obtain hdate | ⟨hdate, htime⟩ := h
  · have hdays : ((days s.date + 1 : ℤ) : ℚ) ≤ days t.date :=
      Int.cast_le.2 (isCount_days.lt hdate)
    have hs := s.ofDay_lt
    have ht := t.ofDay_nonneg
    push_cast at hdays
    linarith
  · rw [hdate]
    refine add_lt_add_right ?_ _
    have hs := s.seconds_lt
    have hs' := s.seconds_nonneg
    have ht := t.seconds_lt
    have ht' := t.seconds_nonneg
    have hminute : (s.minute.value : ℚ) ≤ 59 := by exact_mod_cast Nat.le_of_lt_succ s.minute_lt
    have hminute' : (0 : ℚ) ≤ t.minute.value := Nat.cast_nonneg _
    rw [ofDay, ofDay]
    obtain hhour | ⟨hhour, hlt | ⟨heq, hlt⟩⟩ := htime
    · have : ((s.hour.value + 1 : ℕ) : ℚ) ≤ t.hour.value := Nat.cast_le.2 hhour
      push_cast at this
      linarith
    · have : ((s.minute.value + 1 : ℕ) : ℚ) ≤ t.minute.value := Nat.cast_le.2 hlt
      push_cast at this
      rw [hhour]
      linarith
    · rw [hhour, heq]
      linarith

/-! ### The clock -/

theorem floor_div_add {a b : ℚ} (n : ℤ) (ha : 0 ≤ a) (hb : a < b) : ⌊(b * n + a) / b⌋ = n := by
  have hpos : 0 < b := ha.trans_lt hb
  rw [add_div, mul_div_cancel_left₀ _ hpos.ne', Int.floor_intCast_add,
    Int.floor_eq_zero_iff.2 ⟨div_nonneg ha hpos.le, (div_lt_one hpos).2 hb⟩, add_zero]

theorem remainder_add {a b : ℚ} (n : ℤ) (ha : 0 ≤ a) (hb : a < b) :
    remainder (b * n + a) b = a := by
  rw [remainder, floor_div_add n ha hb, add_sub_cancel_left]

/-- What the clock shows, number by number. -/
theorem clock_eq (s : Stamp) : clock (86400 * days s.date + s.ofDay) =
    twoDigits s.month.value ++ '-' :: (twoDigits s.day.value ++ ' ' :: (twoDigits s.hour.value ++
      ':' :: (twoDigits s.minute.value ++ ':' :: pad 4 (oneDecimal s.seconds)))) := by
  have hseconds := s.seconds_nonneg
  have hseconds' := s.seconds_lt
  have hminute : (s.minute.value : ℚ) ≤ 59 := by exact_mod_cast Nat.le_of_lt_succ s.minute_lt
  -- the day's seconds as hours and the rest, and as minutes and the rest
  have hhours : s.ofDay = 3600 * ((s.hour.value : ℤ) : ℚ) + (s.minute.value * 60 + s.seconds) := by
    rw [ofDay]
    push_cast
    ring
  have hminutes : (s.minute.value : ℚ) * 60 + s.seconds =
      60 * ((s.minute.value : ℤ) : ℚ) + s.seconds := by
    push_cast
    ring
  have hrest : s.ofDay =
      60 * ((s.hour.value * 60 + s.minute.value : ℤ) : ℚ) + s.seconds := by
    rw [ofDay]
    push_cast
    ring
  have hhour : ⌊s.ofDay / 3600⌋ = s.hour.value := by
    rw [hhours]
    exact floor_div_add _ (by positivity) (by linarith)
  have hminute' : ⌊remainder s.ofDay 3600 / 60⌋ = s.minute.value := by
    rw [hhours, remainder_add _ (by positivity) (by linarith), hminutes]
    exact floor_div_add _ hseconds hseconds'
  have hsecond : remainder s.ofDay 60 = s.seconds := by
    rw [hrest]
    exact remainder_add _ hseconds hseconds'
  rw [clock, floor_div_add _ s.ofDay_nonneg s.ofDay_lt, remainder_add _ s.ofDay_nonneg s.ofDay_lt,
    hhour, hminute', hsecond, civilFromDays_days]
  rfl

/-- With a tenth at most the seconds are written as they are. -/
theorem pad_oneDecimal_seconds (h : s.fraction.length ≤ 1) :
    pad 4 (oneDecimal s.seconds) =
      twoDigits s.second.value ++ '.' :: if s.fraction = [] then ['0'] else s.fraction := by
  have hlength : ('.' :: if s.fraction = [] then ['0'] else s.fraction).length = 2 := by
    split_ifs with hfraction
    · rfl
    · have hpos := List.length_pos_iff.2 hfraction
      rw [List.length_cons]
      omega
  rw [seconds, oneDecimal_withDecimals s.second s.fraction_isDigit h]
  have hpad := pad_append 2 (Nat.toDigits 10 s.second.value)
    ('.' :: if s.fraction = [] then ['0'] else s.fraction)
  rw [hlength] at hpad
  exact hpad

end Stamp

/-- **Log times are the seconds from the epoch, counted day by day; they go up with the date and the
time of day, and the clock gives them back to a tenth of a second.** -/
theorem parseTimestamp_spec :
    (∀ s : Stamp, ∃ n, DaysBetween epoch s.date n ∧
      parseTimestamp s.text = some (86400 * n + s.ofDay)) ∧
      (∀ s t : Stamp, s.Before t → ∃ time ∈ parseTimestamp s.text,
        ∃ time' ∈ parseTimestamp t.text, time < time') ∧
      ∀ s : Stamp, s.fraction.length ≤ 1 →
        (parseTimestamp s.text).map clock = some s.clockText := by
  refine ⟨fun s ↦ ⟨days s.date, ?_, s.parseTimestamp_text⟩, fun s t hbefore ↦ ?_, fun s h ↦ ?_⟩
  · have hcount := isCount_days.daysBetween epoch s.date
    rwa [days_epoch, Int.sub_zero] at hcount
  · exact ⟨_, s.parseTimestamp_text, _, t.parseTimestamp_text, Stamp.lt_of_before hbefore⟩
  · rw [s.parseTimestamp_text, Option.map_some, s.clock_eq, Stamp.pad_oneDecimal_seconds h]
    rfl

example : parseTimestamp "2000-03-01T00:00:00Z".toList = some 951868800 := by
  decide +kernel

end RustCodeMcp.ToolLatency
