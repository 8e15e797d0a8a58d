import Mathlib.Algebra.Ring.Int.Defs
import Mathlib.Logic.Function.Iterate
import Mathlib.Order.Basic

/-!
# The Gregorian calendar

The dates of the proleptic Gregorian calendar from year zero on, their order, and the day that
follows. A function on dates that goes up by one from each day to the next (`IsCount`) counts the
days between any two dates, and is strictly increasing.

Nothing here counts days by a formula. The day that follows is defined from the lengths of the
months alone, and every later date is reached by taking it often enough (`exists_iterate_next`); so
a formula for the number of a day is right as soon as it goes up by one from each day to the next,
which is one case for each kind of day. **Whoever has such a formula gets order, differences and
injectivity from `IsCount`** and need not know how it is computed.
-/

namespace Gregorian

/-- A year of 366 days: each fourth, but of the hundreds only each fourth. -/
def IsLeap (year : ℕ) : Prop :=
  4 ∣ year ∧ (100 ∣ year → 400 ∣ year)

instance (year : ℕ) : Decidable (IsLeap year) :=
  inferInstanceAs (Decidable (_ ∧ _))

/-- The length of a month. -/
def daysInMonth (year month : ℕ) : ℕ :=
  if month = 2 then if IsLeap year then 29 else 28
  else if month = 4 ∨ month = 6 ∨ month = 9 ∨ month = 11 then 30
  else 31

theorem daysInMonth_pos (year month : ℕ) : 1 ≤ daysInMonth year month := by
  unfold daysInMonth
  split_ifs <;> decide

theorem daysInMonth_le (year month : ℕ) : daysInMonth year month ≤ 31 := by
  unfold daysInMonth
  split_ifs <;> decide

/-- A date that exists: month and day are in their bounds. -/
@[ext]
structure Date where
  year : ℕ
  month : ℕ
  day : ℕ
  month_pos : 1 ≤ month
  month_le : month ≤ 12
  day_pos : 1 ≤ day
  day_le : day ≤ daysInMonth year month
deriving DecidableEq

namespace Date

variable {d e : Date} {n : ℕ}

/-- The day after: in the same month, on the first of the next one, or on New Year's Day. -/
def next (d : Date) : Date :=
  if hday : d.day < daysInMonth d.year d.month then
    { d with day := d.day + 1, day_pos := Nat.le_add_left 1 d.day, day_le := hday }
  else if hmonth : d.month < 12 then
    { d with
      month := d.month + 1
      day := 1
      month_pos := Nat.le_add_left 1 d.month
      month_le := hmonth
      day_pos := le_rfl
      day_le := daysInMonth_pos _ _ }
  else
    { year := d.year + 1
      month := 1
      day := 1
      month_pos := le_rfl
      month_le := by decide
      day_pos := le_rfl
      day_le := daysInMonth_pos _ _ }

/-- New Year's Day. -/
def newYear (year : ℕ) : Date where
  year := year
  month := 1
  day := 1
  month_pos := le_rfl
  month_le := by decide
  day_pos := le_rfl
  day_le := daysInMonth_pos _ _

instance : LT Date where
  lt d e := d.year < e.year ∨
    d.year = e.year ∧ (d.month < e.month ∨ d.month = e.month ∧ d.day < e.day)

/-- Dates are compared by year, then by month, then by day. -/
theorem lt_def : d < e ↔ d.year < e.year ∨
    d.year = e.year ∧ (d.month < e.month ∨ d.month = e.month ∧ d.day < e.day) :=
  Iff.rfl

/-- The place of a date if all months had 31 days. -/
def rank (d : Date) : ℕ :=
  (d.year * 12 + d.month) * 31 + d.day

theorem day_le_31 (d : Date) : d.day ≤ 31 :=
  d.day_le.trans (daysInMonth_le _ _)

/-- The month is one of twelve and the day one of 31 at most. -/
theorem bounds (d : Date) : (1 ≤ d.month ∧ d.month ≤ 12) ∧ 1 ≤ d.day ∧ d.day ≤ 31 :=
  ⟨⟨d.month_pos, d.month_le⟩, d.day_pos, d.day_le_31⟩

/-- The order of dates is the order of their ranks. -/
theorem lt_iff_rank : d < e ↔ d.rank < e.rank := by
  have hd := d.bounds
  have he := e.bounds
  rw [lt_def, rank, rank]
  omega

theorem eq_of_rank (h : d.rank = e.rank) : d = e := by
  have hd := d.bounds
  have he := e.bounds
  rw [rank, rank] at h
  ext <;> omega

theorem lt_trichotomy (d e : Date) : d < e ∨ d = e ∨ e < d := by
  rw [lt_iff_rank, lt_iff_rank]
  exact (Nat.lt_trichotomy d.rank e.rank).imp_right (Or.imp_left eq_of_rank)

/-- No later date of the month is left after its last day. -/
theorem not_lt_of_last (hlast : ¬ d.day < daysInMonth d.year d.month) :
    ¬ (d.year = e.year ∧ d.month = e.month ∧ d.day < e.day) := by
  rintro ⟨hyear, hmonth, hlt⟩
  have hle := e.day_le
  rw [← hyear, ← hmonth] at hle
  exact hlast (hlt.trans_le hle)

/-- No date is between a day and the next. -/
theorem rank_next_le (h : d < e) : d.rank < d.next.rank ∧ d.next.rank ≤ e.rank := by
  have hd := d.bounds
  have he := e.bounds
  rw [lt_def] at h
  rw [next, rank, rank, rank]
  split_ifs with hday hmonth
  · dsimp only
    omega
  · have hover := not_lt_of_last (e := e) hday
    dsimp only
    omega
  · have hover := not_lt_of_last (e := e) hday
    dsimp only
    omega

/-- Every later date is reached day by day. -/
theorem exists_iterate_next (h : d < e) : ∃ n, 0 < n ∧ next^[n] d = e := by
  induction hgap : e.rank - d.rank using Nat.strong_induction_on generalizing d with
  | _ gap ih =>
    obtain ⟨hlt, hle⟩ := rank_next_le h
    obtain heq | hless := hle.eq_or_lt
    · exact ⟨1, Nat.one_pos, eq_of_rank heq⟩
    · obtain ⟨n, -, hn⟩ := ih (e.rank - d.next.rank) (by omega) (lt_iff_rank.2 hless) rfl
      exact ⟨n + 1, Nat.succ_pos n, hn⟩

end Date

/-- From each day to the next the number goes up by one. -/
def IsCount (f : Date → ℤ) : Prop :=
  ∀ d, f d.next = f d + 1

/-- The second date is so many days after the first, counted day by day; before it for a negative
number. -/
def DaysBetween (d e : Date) (n : ℤ) : Prop :=
  (∃ k : ℕ, n = k ∧ Date.next^[k] d = e) ∨ ∃ k : ℕ, n = -k ∧ Date.next^[k] e = d

namespace IsCount

variable {f : Date → ℤ} {d e : Date} {n : ℤ}

theorem iterate (h : IsCount f) (d : Date) (k : ℕ) : f (Date.next^[k] d) = f d + k := by
  induction k with
  | zero => simp
  | succ k ih => rw [Function.iterate_succ_apply', h, ih, Int.natCast_succ, Int.add_assoc]

/-- A count is strictly increasing. -/
theorem lt (h : IsCount f) (hlt : d < e) : f d < f e := by
  obtain ⟨k, hk, rfl⟩ := Date.exists_iterate_next hlt
  rw [h.iterate]
  omega

/-- The difference of two counts is the number of days between. -/
theorem daysBetween (h : IsCount f) (d e : Date) : DaysBetween d e (f e - f d) := by
  obtain hlt | rfl | hgt := Date.lt_trichotomy d e
  · obtain ⟨k, -, rfl⟩ := Date.exists_iterate_next hlt
    exact .inl ⟨k, by rw [h.iterate]; omega, rfl⟩
  · exact .inl ⟨0, Int.sub_self _, rfl⟩
  · obtain ⟨k, -, rfl⟩ := Date.exists_iterate_next hgt
    exact .inr ⟨k, by rw [h.iterate]; omega, rfl⟩

end IsCount

end Gregorian
