/-
Caips.Logic.Calendar — the Gregorian calendar, without an end.

A date is a year, a month and a day of it that exist. `next` is the day after,
and `ordinal` counts the days: the day after has the next number
(`ordinal_next`), no two days have the same one (`ordinal_injective`), and those
of a month are between the first and the first of the next (`month_of_ordinal`).
-/
import Mathlib.Logic.Function.Iterate
import Mathlib.Tactic.SplitIfs
import Mathlib.Tactic.IntervalCases

namespace Caips.Logic

def isLeap (y : ℕ) : Bool := y % 4 == 0 && (y % 100 != 0 || y % 400 == 0)

def daysInMonth (y m : ℕ) : ℕ :=
  if m = 2 then if isLeap y then 29 else 28 else if m = 4 ∨ m = 6 ∨ m = 9 ∨ m = 11 then 30 else 31

theorem daysInMonth_ge (y m : ℕ) : 28 ≤ daysInMonth y m := by
  unfold daysInMonth
  split_ifs <;> omega

theorem daysInMonth_le (y m : ℕ) : daysInMonth y m ≤ 31 := by
  unfold daysInMonth
  split_ifs <;> omega

theorem daysInMonth_le_of_leap {l : ℕ} (hl : isLeap l = true) (y m : ℕ) : daysInMonth y m ≤ daysInMonth l m := by
  simp only [daysInMonth, hl, if_true]
  split_ifs <;> omega

theorem exists_leap (y : ℕ) : ∃ l, isLeap l = true ∧ y < l ∧ l ≤ y + 8 := by
  by_cases h : (4 * (y / 4 + 1)) % 100 = 0
  · refine ⟨4 * (y / 4 + 1) + 4, ?_, by omega, by omega⟩
    simp only [isLeap, Bool.and_eq_true, Bool.or_eq_true, beq_iff_eq, bne_iff_ne]
    omega
  · refine ⟨4 * (y / 4 + 1), ?_, by omega, by omega⟩
    simp only [isLeap, Bool.and_eq_true, Bool.or_eq_true, beq_iff_eq, bne_iff_ne]
    omega

/-- A date. -/
@[ext]
structure Date where
  year : ℕ
  month : ℕ
  day : ℕ
  year_pos : 1 ≤ year
  month_pos : 1 ≤ month
  month_le : month ≤ 12
  day_pos : 1 ≤ day
  day_le : day ≤ daysInMonth year month

namespace Date

instance : DecidableEq Date := fun _ _ => decidable_of_iff' _ Date.ext_iff

/-- The first day of the month. -/
def first (d : Date) : Date :=
  { d with day := 1, day_pos := le_refl 1, day_le := le_trans (by decide) (daysInMonth_ge _ _) }

/-- The first day of the next month. -/
def nextMonth (d : Date) : Date :=
  if h : d.month < 12 then
    ⟨d.year, d.month + 1, 1, d.year_pos, Nat.le_add_left _ _, h, le_refl 1, le_trans (by decide) (daysInMonth_ge _ _)⟩
  else ⟨d.year + 1, 1, 1, Nat.le_add_left _ _, le_refl 1, by decide, le_refl 1, le_trans (by decide) (daysInMonth_ge _ _)⟩

/-- The day after. -/
def next (d : Date) : Date :=
  if h : d.day < daysInMonth d.year d.month then
    { d with day := d.day + 1, day_pos := Nat.le_add_left _ _, day_le := h }
  else d.nextMonth

/-- The days before a year. -/
def daysBeforeYear (y : ℕ) : ℕ := (y - 1) * 365 + (y - 1) / 4 - (y - 1) / 100 + (y - 1) / 400

/-- The days before a month in its year. -/
def daysBeforeMonth (y m : ℕ) : ℕ := ((List.range' 1 (m - 1)).map (daysInMonth y)).sum

/-- The number of a day: 1 January of the year 1 is day 1. -/
def ordinal (d : Date) : ℕ := daysBeforeYear d.year + daysBeforeMonth d.year d.month + d.day

/-- Monday is 1, Sunday is 7. -/
def isoweekday (d : Date) : ℕ := (d.ordinal + 6) % 7 + 1

theorem isoweekday_mod (d : Date) : d.isoweekday % 7 = d.ordinal % 7 := by
  unfold isoweekday
  omega

/-! ## The order of dates -/

theorem daysBeforeMonth_succ {m : ℕ} (hm : 1 ≤ m) (y : ℕ) :
    daysBeforeMonth y (m + 1) = daysBeforeMonth y m + daysInMonth y m := by
  obtain ⟨k, rfl⟩ : ∃ k, m = k + 1 := ⟨m - 1, by omega⟩
  simp only [daysBeforeMonth, Nat.add_sub_cancel]
  rw [List.range'_concat, List.map_append, List.sum_append, Nat.add_comm k 1]
  simp

theorem daysBeforeMonth_mono {m n : ℕ} (hm : 1 ≤ m) (hmn : m ≤ n) (y : ℕ) : daysBeforeMonth y m ≤ daysBeforeMonth y n := by
  induction hmn with
  | refl => exact le_refl _
  | @step n hmn ih =>
    have hstep := daysBeforeMonth_succ (le_trans hm hmn) y
    have hle : daysBeforeMonth y n ≤ daysBeforeMonth y (n + 1) := by omega
    exact le_trans ih hle

theorem daysOfYear (y : ℕ) : daysBeforeMonth y 13 = if isLeap y then 366 else 365 := by
  cases hleap : isLeap y with
  | true => simp [daysBeforeMonth, daysInMonth, hleap, List.range']
  | false => simp [daysBeforeMonth, daysInMonth, hleap, List.range']

/-- The days before a year, and those of the year. -/
theorem daysBeforeYear_succ {y : ℕ} (hy : 1 ≤ y) : daysBeforeYear (y + 1) = daysBeforeYear y + daysBeforeMonth y 13 := by
  obtain ⟨k, rfl⟩ : ∃ k, y = k + 1 := ⟨y - 1, by omega⟩
  have hless : k / 100 ≤ k / 4 := by omega
  rw [daysOfYear]
  simp only [daysBeforeYear, Nat.add_sub_cancel, Nat.succ_div, isLeap, Bool.and_eq_true, Bool.or_eq_true, beq_iff_eq, bne_iff_ne,
    Nat.dvd_iff_mod_eq_zero]
  by_cases h4 : (k + 1) % 4 = 0
  · by_cases h100 : (k + 1) % 100 = 0
    · by_cases h400 : (k + 1) % 400 = 0
      · simp [h4, h100, h400]
        omega
      · simp [h4, h100, h400]
        omega
    · have h400 : (k + 1) % 400 ≠ 0 := by omega
      simp [h4, h100, h400]
      omega
  · have h100 : (k + 1) % 100 ≠ 0 := by omega
    have h400 : (k + 1) % 400 ≠ 0 := by omega
    simp [h4, h100, h400]
    omega

theorem daysBeforeYear_mono {y z : ℕ} (hy : 1 ≤ y) (hyz : y ≤ z) : daysBeforeYear y ≤ daysBeforeYear z := by
  induction hyz with
  | refl => exact le_refl _
  | @step z hyz ih =>
    have hstep := daysBeforeYear_succ (le_trans hy hyz)
    have hle : daysBeforeYear z ≤ daysBeforeYear (z + 1) := by omega
    exact le_trans ih hle

theorem daysBeforeMonth_le (d : Date) :
    daysBeforeYear d.year + daysBeforeMonth d.year (d.month + 1) ≤ daysBeforeYear (d.year + 1) := by
  have hrest : daysBeforeMonth d.year (d.month + 1) ≤ daysBeforeMonth d.year 13 :=
    daysBeforeMonth_mono (Nat.le_add_left 1 d.month) (Nat.succ_le_succ d.month_le) d.year
  have hnext := daysBeforeYear_succ d.year_pos
  omega

theorem daysBeforeYear_lt_ordinal (d : Date) : daysBeforeYear d.year < d.ordinal := by
  have hpos := d.day_pos
  rw [ordinal]
  omega

theorem ordinal_le_daysBeforeYear (d : Date) : d.ordinal ≤ daysBeforeYear (d.year + 1) := by
  have hmonth := d.daysBeforeMonth_le
  have hstep := daysBeforeMonth_succ d.month_pos d.year
  have hle := d.day_le
  rw [ordinal]
  omega

theorem ordinal_first (d : Date) : d.first.ordinal + d.day = d.ordinal + 1 := by
  simp only [ordinal, first]
  omega

theorem ordinal_nextMonth (d : Date) : d.nextMonth.ordinal = d.first.ordinal + daysInMonth d.year d.month := by
  have hmonth := daysBeforeMonth_succ d.month_pos d.year
  unfold nextMonth
  split
  · simp only [ordinal, first]
    omega
  · have hlast : d.month = 12 := by
      have hle := d.month_le
      omega
    have hyear := daysBeforeYear_succ d.year_pos
    rw [hlast, show 12 + 1 = 13 from rfl] at hmonth
    have hnone : daysBeforeMonth (d.year + 1) 1 = 0 := rfl
    simp only [ordinal, first, hlast]
    omega

@[simp]
theorem ordinal_next (d : Date) : d.next.ordinal = d.ordinal + 1 := by
  unfold next
  split
  · simp only [ordinal]
    omega
  · have hlast : d.day = daysInMonth d.year d.month := by
      have hle := d.day_le
      omega
    have hfirst := d.ordinal_first
    rw [ordinal_nextMonth]
    omega

@[simp]
theorem ordinal_iterate_next (n : ℕ) (d : Date) : (next^[n] d).ordinal = d.ordinal + n := by
  induction n with
  | zero => rfl
  | succ n ih =>
    rw [Function.iterate_succ_apply', ordinal_next, ih]
    omega

/-- A later month starts after this one ends. -/
theorem nextMonth_le_of_month {d e : Date} (h : d.year < e.year ∨ d.year = e.year ∧ d.month < e.month) :
    d.nextMonth.ordinal ≤ e.first.ordinal := by
  have hlength : d.nextMonth.ordinal = daysBeforeYear d.year + daysBeforeMonth d.year (d.month + 1) + 1 := by
    rw [ordinal_nextMonth, daysBeforeMonth_succ d.month_pos]
    simp only [ordinal, first]
    omega
  have he : e.first.ordinal = daysBeforeYear e.year + daysBeforeMonth e.year e.month + 1 := rfl
  rw [hlength, he]
  obtain hyear | ⟨hyear, hmonth⟩ := h
  · have hrest := d.daysBeforeMonth_le
    have hle := daysBeforeYear_mono (Nat.le_add_left 1 d.year) hyear
    omega
  · have hle := daysBeforeMonth_mono (Nat.le_add_left 1 d.month) hmonth d.year
    rw [hyear] at hle ⊢
    omega

theorem ordinal_lt_nextMonth (d : Date) : d.ordinal < d.nextMonth.ordinal := by
  have hfirst := d.ordinal_first
  have hle := d.day_le
  rw [ordinal_nextMonth]
  omega

/-- A day from the first of a month on, and before the next one, is a day of the month. -/
theorem month_of_ordinal {d e : Date} (hfirst : d.first.ordinal ≤ e.ordinal) (hlast : e.ordinal < d.nextMonth.ordinal) :
    e.year = d.year ∧ e.month = d.month := by
  have hbefore : ¬(e.year < d.year ∨ e.year = d.year ∧ e.month < d.month) := by
    intro h
    have hle := nextMonth_le_of_month h
    have hlt := e.ordinal_lt_nextMonth
    omega
  have hafter : ¬(d.year < e.year ∨ d.year = e.year ∧ d.month < e.month) := by
    intro h
    have hle := nextMonth_le_of_month h
    have he := e.ordinal_first
    have hpos := e.day_pos
    omega
  omega

theorem ordinal_injective {d e : Date} (h : d.ordinal = e.ordinal) : d = e := by
  have hd := d.ordinal_first
  have he := e.ordinal_first
  have hpos := d.day_pos
  have hlast := d.ordinal_lt_nextMonth
  rw [h] at hd hlast
  obtain ⟨hyear, hmonth⟩ := month_of_ordinal (by omega) hlast
  have hday : d.day = e.day := by
    simp only [ordinal, hyear, hmonth] at h
    omega
  exact Date.ext hyear.symm hmonth.symm hday

/-- The first of the next month is the first of the month 32 days after the first. -/
theorem first_iterate_next (d : Date) : (next^[32] d.first).first = d.nextMonth := by
  have hlength := ordinal_nextMonth d
  have hge := daysInMonth_ge d.year d.month
  have hle := daysInMonth_le d.year d.month
  have hfirst : d.nextMonth.first = d.nextMonth := by
    unfold nextMonth
    split <;> rfl
  have hordinal := ordinal_iterate_next 32 d.first
  generalize next^[32] d.first = e at hordinal
  have hmonth : e.year = d.nextMonth.year ∧ e.month = d.nextMonth.month := by
    refine month_of_ordinal ?_ ?_
    · rw [hfirst, hordinal]
      omega
    · have hlong := daysInMonth_ge d.nextMonth.year d.nextMonth.month
      rw [ordinal_nextMonth, hfirst, hordinal]
      omega
  rw [← hfirst]
  exact Date.ext hmonth.1 hmonth.2 rfl

end Date

/-- A whole minute of a day. -/
@[ext]
structure DateTime where
  date : Date
  hour : ℕ
  minute : ℕ
  hour_lt : hour < 24
  minute_lt : minute < 60
  deriving DecidableEq

namespace DateTime

/-- The minutes of the day that are over. -/
def ofDay (d : DateTime) : ℕ := d.hour * 60 + d.minute

/-- The number of a minute. -/
def number (d : DateTime) : ℕ := d.date.ordinal * 1440 + d.ofDay

/-- The start of the day. -/
def midnight (d : DateTime) : DateTime :=
  { d with hour := 0, minute := 0, hour_lt := by decide, minute_lt := by decide }

/-- The start of the hour. -/
def onTheHour (d : DateTime) : DateTime := { d with minute := 0, minute_lt := by decide }

/-- The start of the day that is the first of the month. -/
def startOfMonth (d : DateTime) : DateTime := { d.midnight with date := d.date.first }

/-- Some minutes later. -/
def plus (d : DateTime) (minutes : ℕ) : DateTime where
  date := Date.next^[(d.ofDay + minutes) / 1440] d.date
  hour := (d.ofDay + minutes) % 1440 / 60
  minute := (d.ofDay + minutes) % 60
  hour_lt := by omega
  minute_lt := by omega

theorem ofDay_lt (d : DateTime) : d.ofDay < 1440 := by
  have hhour := d.hour_lt
  have hminute := d.minute_lt
  simp only [ofDay]
  omega

@[simp]
theorem number_plus (d : DateTime) (minutes : ℕ) : (d.plus minutes).number = d.number + minutes := by
  simp only [number, ofDay, plus, Date.ordinal_iterate_next]
  omega

theorem plus_days (d : DateTime) (n : ℕ) : d.midnight.plus (n * 1440) = { d.midnight with date := Date.next^[n] d.date } := by
  ext
  all_goals simp [plus, midnight, ofDay]
  omega

theorem date_of_number {d e : DateTime} (hd : d.date.ordinal * 1440 ≤ e.number) (he : e.number < (d.date.ordinal + 1) * 1440) :
    e.date = d.date := by
  have hday := e.ofDay_lt
  simp only [number] at hd he
  exact Date.ordinal_injective (by omega)

theorem number_injective {d e : DateTime} (h : d.number = e.number) : d = e := by
  have hd := d.ofDay_lt
  have he := e.ofDay_lt
  have hdm := d.minute_lt
  have hem := e.minute_lt
  simp only [number, ofDay] at h hd he
  have hdate : d.date = e.date := Date.ordinal_injective (by omega)
  rw [hdate] at h
  exact DateTime.ext hdate (by omega) (by omega)

end DateTime

end Caips.Logic
