import Joolia.Stdlib.Dates.Text
import Joolia.Stdlib.Dates.Theorems
import Mathlib.Order.Monotone.Basic

namespace Joolia.Dates

open Fallible

inductive DateUnit
  | Year
  | Quarter
  | Month
  | Week
  | Day
deriving DecidableEq, Repr

inductive TimeUnit
  | Hour
  | Minute
  | Second
  | Millisecond
  | Microsecond
  | Nanosecond
deriving DecidableEq, Repr

structure DatePeriod where
  unit : DateUnit
  value : ℤ
deriving DecidableEq, Repr

structure TimePeriod where
  unit : TimeUnit
  value : ℤ
deriving DecidableEq, Repr

inductive PeriodError
  | dates (e : DatesError)
  | InexactError
  | DomainError
deriving DecidableEq, Repr

section Model

def liftDates {α : Type} (x : Except DatesError α) : Except PeriodError α := x.mapError .dates

def mod1 (x y : ℤ) : ℤ := if x.fmod y = 0 then y else x.fmod y

def monthwrap (m1 m2 : ℤ) : ℤ :=
  let v := mod1 (int64 (m1 + m2)) 12
  if v < 0 then int64 (12 + v) else v

def yearwrap (y m1 m2 : ℤ) : ℤ := int64 (y + fld (int64 (int64 (m1 + m2) - 1)) 12)

-- `dt + Year(v)` of a `Date`
def addYear (dt : Date) (v : ℤ) : Except DatesError Date := do
  let (oy, m, d) ← yearmonthday wrapping dt.instant
  let ny := int64 (oy + v)
  let ld ← daysinmonth wrapping ny m
  Date.new wrapping ny m (if d ≤ ld then d else ld)

-- `dt + Month(v)` of a `Date`
def addMonth (dt : Date) (v : ℤ) : Except DatesError Date := do
  let (y, m, d) ← yearmonthday wrapping dt.instant
  let ny := yearwrap y m v
  let mm := monthwrap m v
  let ld ← daysinmonth wrapping ny mm
  Date.new wrapping ny mm (if d ≤ ld then d else ld)

def DateTime.addYear (dt : DateTime) (v : ℤ) : Except DatesError DateTime := do
  let (oy, m, d) ← yearmonthday wrapping dt.days
  let ny := int64 (oy + v)
  let ld ← daysinmonth wrapping ny m
  DateTime.new ny m (if d ≤ ld then d else ld) dt.hour dt.minute dt.second dt.millisecond

def DateTime.addMonth (dt : DateTime) (v : ℤ) : Except DatesError DateTime := do
  let (y, m, d) ← yearmonthday wrapping dt.days
  let ny := yearwrap y m v
  let mm := monthwrap m v
  let ld ← daysinmonth wrapping ny mm
  DateTime.new ny mm (if d ≤ ld then d else ld) dt.hour dt.minute dt.second dt.millisecond

-- A conversion to a finer unit checks that the product fits.
def convertFiner (v n : ℤ) : Except PeriodError ℤ :=
  if div (-2 ^ 63) n ≤ v ∧ v ≤ div (2 ^ 63 - 1) n then .ok (int64 (v * n)) else .error .InexactError

-- `Month(p)` of a `Quarter`
def quarterMonths (v : ℤ) : Except PeriodError ℤ := convertFiner v 3

-- `dt + p` of a `Date`
def Date.add (dt : Date) (p : DatePeriod) : Except PeriodError Date :=
  match p.unit with
  | .Year => liftDates (addYear dt p.value)
  | .Quarter => do liftDates (addMonth dt (← quarterMonths p.value))
  | .Month => liftDates (addMonth dt p.value)
  | .Week => .ok ⟨int64 (dt.instant + int64 (7 * p.value))⟩
  | .Day => .ok ⟨int64 (dt.instant + p.value)⟩

end Model

section Months

-- The first day of a month, the months counted from January of year 0
def monthFirst (M : ℤ) : ℤ := dayNumber (M / 12) (M % 12 + 1) 1

def monthIndex (y m : ℤ) : ℤ := 12 * y + m - 1

-- The same day in the month with the index `M`, or its last day
def inMonth (M d : ℤ) : ℤ := dayNumber (M / 12) (M % 12 + 1) (min d (monthLength (M / 12) (M % 12 + 1)))

variable {y m d : ℤ}

theorem monthIndex_div (hpos : 1 ≤ m) (hle : m ≤ 12) : monthIndex y m / 12 = y ∧ monthIndex y m % 12 + 1 = m := by
  unfold monthIndex
  omega

theorem monthLength_bounds (y m : ℤ) : 28 ≤ monthLength y m ∧ monthLength y m ≤ 31 := by
  unfold monthLength
  split <;> split <;> omega

theorem dayNumber_add (y m d e : ℤ) : dayNumber y m (d + e) = dayNumber y m d + e := by
  unfold dayNumber
  omega

theorem calendarDate_first (M : ℤ) : CalendarDate (M / 12) (M % 12 + 1) 1 :=
  ⟨by omega, by omega, by omega, by have := monthLength_bounds (M / 12) (M % 12 + 1); omega⟩

-- The next month follows the last day of a month.
theorem monthFirst_succ (M : ℤ) : monthFirst (M + 1) = monthFirst M + monthLength (M / 12) (M % 12 + 1) := by
  have hbounds := monthLength_bounds (M / 12) (M % 12 + 1)
  have hlast : CalendarDate (M / 12) (M % 12 + 1) (monthLength (M / 12) (M % 12 + 1)) :=
    ⟨by omega, by omega, by omega, le_refl _⟩
  have hnext := hlast.dayNumber_nextDay
  rw [nextDay, if_neg (lt_irrefl _)] at hnext
  have hmonth : dayNumber (M / 12) (M % 12 + 1) (monthLength (M / 12) (M % 12 + 1)) =
      monthFirst M + (monthLength (M / 12) (M % 12 + 1) - 1) := by
    rw [monthFirst, ← dayNumber_add, add_sub_cancel]
  have hstep : monthFirst (M + 1) = dayNumber (M / 12) (M % 12 + 1) (monthLength (M / 12) (M % 12 + 1)) + 1 := by
    rw [← hnext, monthFirst]
    by_cases hdecember : M % 12 + 1 < 12
    · rw [if_pos hdecember, show (M + 1) / 12 = M / 12 by omega, show (M + 1) % 12 = M % 12 + 1 by omega]
    · rw [if_neg hdecember, show (M + 1) / 12 = M / 12 + 1 by omega, show (M + 1) % 12 + 1 = 1 by omega]
  omega

theorem monthFirst_strictMono : StrictMono monthFirst := by
  apply strictMono_int_of_lt_succ
  intro M
  have hbounds := monthLength_bounds (M / 12) (M % 12 + 1)
  rw [monthFirst_succ]
  omega

-- A day lies in its month.
theorem CalendarDate.dayNumber_month (h : CalendarDate y m d) : dayNumber y m d = monthFirst (monthIndex y m) + (d - 1) := by
  obtain ⟨hyear, hmonth⟩ := monthIndex_div (y := y) h.month_pos h.month_le
  rw [monthFirst, hyear, hmonth, ← dayNumber_add, add_sub_cancel]

theorem CalendarDate.lt_monthFirst (h : CalendarDate y m d) : dayNumber y m d < monthFirst (monthIndex y m + 1) := by
  obtain ⟨hyear, hmonth⟩ := monthIndex_div (y := y) h.month_pos h.month_le
  have hle := h.day_le
  rw [h.dayNumber_month, monthFirst_succ, hyear, hmonth]
  omega

theorem CalendarDate.monthFirst_le (h : CalendarDate y m d) : monthFirst (monthIndex y m) ≤ dayNumber y m d := by
  have hpos := h.day_pos
  rw [h.dayNumber_month]
  omega

theorem calendarDate_inMonth (M : ℤ) (hpos : 1 ≤ d) :
    CalendarDate (M / 12) (M % 12 + 1) (min d (monthLength (M / 12) (M % 12 + 1))) := by
  have hbounds := monthLength_bounds (M / 12) (M % 12 + 1)
  exact ⟨by omega, by omega, by omega, by omega⟩

theorem inMonth_one (M : ℤ) : inMonth M 1 = monthFirst M := by
  have hbounds := monthLength_bounds (M / 12) (M % 12 + 1)
  rw [inMonth, min_eq_left (by omega), monthFirst]

end Months

section Exact

variable {y m d v : ℤ}

theorem int64_eq {x : ℤ} (hlo : -9223372036854775808 ≤ x) (hhi : x < 9223372036854775808) : int64 x = x :=
  Int.bmod_eq_of_le (by omega) (by omega)

theorem monthwrap_eq (hpos : 1 ≤ m) (hle : m ≤ 12) (hlo : -2 ^ 62 ≤ v) (hhi : v ≤ 2 ^ 62) :
    monthwrap m v = (monthIndex y m + v) % 12 + 1 := by
  rw [monthwrap, int64_eq (by omega) (by omega), mod1, Int.fmod_eq_emod_of_nonneg _ (by omega), monthIndex]
  by_cases hzero : (m + v) % 12 = 0
  · rw [if_pos hzero, if_neg (by omega)]
    omega
  · rw [if_neg hzero, if_neg (by omega)]
    omega

theorem yearwrap_eq (hlo : -2 ^ 62 ≤ v) (hhi : v ≤ 2 ^ 62) (hpos : 1 ≤ m) (hle : m ≤ 12)
    (hy : -2 ^ 62 ≤ y) (hy' : y ≤ 2 ^ 62) : yearwrap y m v = (monthIndex y m + v) / 12 := by
  rw [yearwrap, int64_eq (x := m + v) (by omega) (by omega), int64_eq (x := m + v - 1) (by omega) (by omega),
    fld_eq _ (by omega), int64_eq (by omega) (by omega), monthIndex]
  omega

theorem wraps_eq (hpos : 1 ≤ m) (hle : m ≤ 12) (hlo : minYear ≤ y) (hhi : y ≤ maxYear)
    (hlo' : minYear ≤ (monthIndex y m + v) / 12) (hhi' : (monthIndex y m + v) / 12 ≤ maxYear) :
    yearwrap y m v = (monthIndex y m + v) / 12 ∧ monthwrap m v = (monthIndex y m + v) % 12 + 1 := by
  unfold minYear at hlo hlo'
  unfold maxYear at hhi hhi'
  have hv : -2 ^ 62 ≤ v ∧ v ≤ 2 ^ 62 := by
    unfold monthIndex at hlo' hhi'
    omega
  exact ⟨yearwrap_eq hv.1 hv.2 hpos hle (by omega) (by omega), monthwrap_eq hpos hle hv.1 hv.2⟩

-- Months are added as in the calendar, as long as the year of the result is allowed.
theorem addMonth_exact (h : CalendarDate y m d) (hlo : minYear ≤ y) (hhi : y ≤ maxYear)
    (hlo' : minYear ≤ (monthIndex y m + v) / 12) (hhi' : (monthIndex y m + v) / 12 ≤ maxYear) :
    addMonth ⟨dayNumber y m d⟩ v = .ok ⟨inMonth (monthIndex y m + v) d⟩ := by
  obtain ⟨hmin, hmax⟩ := (dayNumber_bounds h).mp ⟨hlo, hhi⟩
  have hread := (reads_exact exact_wrapping h hmin hmax).yearmonthday_eq
  have hdate := calendarDate_inMonth (monthIndex y m + v) h.day_pos
  obtain ⟨hyear, hmonth⟩ := wraps_eq h.month_pos h.month_le hlo hhi hlo' hhi'
  rw [addMonth, hread, ok_bind]
  dsimp only
  rw [hyear, hmonth, daysinmonth_exact exact_wrapping _ (by omega) (by omega), ok_bind, inMonth,
    ← Date.new_exact exact_wrapping hdate hlo' hhi', min_def]

theorem addYear_exact (h : CalendarDate y m d) (hlo : minYear ≤ y) (hhi : y ≤ maxYear) (hlo' : minYear ≤ y + v)
    (hhi' : y + v ≤ maxYear) : addYear ⟨dayNumber y m d⟩ v = .ok ⟨inMonth (monthIndex y m + 12 * v) d⟩ := by
  obtain ⟨hmin, hmax⟩ := (dayNumber_bounds h).mp ⟨hlo, hhi⟩
  have hread := (reads_exact exact_wrapping h hmin hmax).yearmonthday_eq
  have hdate := calendarDate_inMonth (monthIndex y m + 12 * v) h.day_pos
  obtain ⟨hmlo, hmhi, -, -⟩ := h
  have hyear : (monthIndex y m + 12 * v) / 12 = y + v ∧ (monthIndex y m + 12 * v) % 12 + 1 = m := by
    unfold monthIndex
    omega
  rw [hyear.1, hyear.2] at hdate
  unfold minYear at hlo'
  unfold maxYear at hhi'
  rw [addYear, hread, ok_bind]
  dsimp only
  rw [int64_eq (by omega) (by omega), daysinmonth_exact exact_wrapping _ hmlo hmhi, ok_bind, inMonth, hyear.1, hyear.2,
    ← Date.new_exact exact_wrapping hdate hlo' hhi', min_def]

end Exact

end Joolia.Dates
