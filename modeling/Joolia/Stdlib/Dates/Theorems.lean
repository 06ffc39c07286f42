import Joolia.Stdlib.Dates.Calendar

namespace Joolia.Dates

open Fallible

-- A reading of the arithmetic that leaves every result that fits as it is.
def Exact (int : Arith) : Prop := ∀ x, -2 ^ 63 ≤ x → x < 2 ^ 63 → int x = .ok x

theorem exact_checked : Exact checked := fun _ hlo hhi => if_pos ⟨hlo, hhi⟩

theorem exact_wrapping : Exact wrapping := by
  intro x hlo hhi
  rw [wrapping, Int.bmod_eq_of_le (by omega) (by omega)]

def minYear : ℤ := -252522163911150

def maxYear : ℤ := 252522163911149

def minDay : ℤ := -92231826452318568

def maxDay : ℤ := 92231826452317838

section Exact

variable {int : Arith} {y m d : ℤ}

theorem fld_eq (x : ℤ) {n : ℤ} (hn : 0 ≤ n) : fld x n = x / n := Int.fdiv_eq_ediv_of_nonneg x hn

theorem div_eq {x : ℤ} (hx : 0 ≤ x) (n : ℤ) : div x n = x / n := Int.tdiv_eq_ediv_of_nonneg hx

theorem isleapyear_eq (y : ℤ) : isleapyear y = decide (Leap y) := by
  unfold isleapyear rem Leap
  grind

theorem getindex_shiftedMonthDays (h : CalendarDate y m d) :
    getindex SHIFTEDMONTHDAYS (m - 1) = .ok (monthStart (marchMonth m)) := by
  obtain ⟨hpos, hle, -, -⟩ := h
  interval_cases m <;> rfl

theorem Exact.eq (hint : Exact int) {x : ℤ} (hlo : -9223372036854775808 ≤ x) (hhi : x < 9223372036854775808) :
    int x = .ok x :=
  hint x hlo hhi

theorem yearLength_le (y : ℤ) : yearLength y ≤ 366 := by
  unfold yearLength
  split <;> omega

theorem totaldays_exact (hint : Exact int) (h : CalendarDate y m d) (hlo : minYear ≤ y) (hhi : y ≤ maxYear) :
    totaldays int y m d = .ok (dayNumber y m d) := by
  have hmonth := getindex_shiftedMonthDays h
  obtain ⟨hn1, hn2⟩ := h.day_bounds
  have hlength := yearLength_le (marchYear y m)
  obtain ⟨hpos, hle, hday, -⟩ := h
  unfold minYear at hlo
  unfold maxYear at hhi
  have hyear : (if m < 3 then int (y - 1) else pure y) = .ok (marchYear y m) := by
    unfold marchYear
    split
    · exact hint.eq (by omega) (by omega)
    · rfl
  have hz : y - 1 ≤ marchYear y m ∧ marchYear y m ≤ y := by
    unfold marchYear
    split <;> omega
  rw [totaldays, hyear, ok_bind, dayNumber, yearStart]
  generalize marchYear y m = z at *
  generalize monthStart (marchMonth m) = mdays at *
  simp (disch := omega) only [hint.eq, hmonth, ok_bind, fld_eq, Except.ok.injEq]
  omega

-- The shifted year, the day in it and the month, with all results in range.
theorem marchDate_exact (hint : Exact int) {days n : ℤ} (hlo : minDay ≤ days) (hhi : days ≤ maxDay)
    (hdays : days + 306 = n + yearStart y) (hpos : 1 ≤ n) (hle : n ≤ yearLength y) :
    marchDate int days = .ok (y, n, (5 * n + 456) / 153) := by
  obtain ⟨q, r, s, t, hparts⟩ := exists_yearParts y
  have hcentury := hparts.century_eq hpos hle
  have hyear := hparts.year_found hpos hle
  obtain ⟨h4, h100, h400⟩ := hparts.div
  have hlength := yearLength_le y
  rw [← hdays] at hcentury hyear
  unfold minDay at hlo
  unfold maxDay at hhi
  obtain ⟨z, hz⟩ : ∃ z, days + 306 = z := ⟨_, rfl⟩
  rw [yearStart, hz] at hdays
  rw [hz] at hcentury hyear
  have hb : 4 * q + r - (4 * q + r) / 4 = 3 * q + r := by
    have := hparts.century
    omega
  have hr := hparts.century
  have hrest := hparts.year_eq
  rw [marchDate, hz]
  simp (disch := omega) only [hint.eq, ok_bind, fld_eq, hcentury, hb]
  have hc : 3 * q + r + z - 365 * y - y / 4 = n := by omega
  rw [hyear, hc, div_eq (by omega), pure_eq_ok]

-- The days of a year follow those of the year before.
theorem dayNumber_year (h : CalendarDate y m d) :
    yearStart (y - 1) < dayNumber y m d ∧ dayNumber y m d ≤ yearStart y := by
  have hpred := yearStart_pred y
  obtain ⟨hpos, hle, hday, hlength⟩ := h
  unfold monthLength at hlength
  interval_cases m <;> simp only [dayNumber, marchMonth, marchYear, monthStart] at * <;> norm_num at * <;> grind

-- The dates between the type limits are those whose years are.
theorem dayNumber_bounds (h : CalendarDate y m d) :
    minYear ≤ y ∧ y ≤ maxYear ↔ minDay ≤ dayNumber y m d ∧ dayNumber y m d ≤ maxDay := by
  obtain ⟨hfirst, hlast⟩ := dayNumber_year h
  have hmin : yearStart (minYear - 1) = minDay - 1 := by decide
  have hmax : yearStart maxYear = maxDay := by decide
  constructor
  · rintro ⟨hlo, hhi⟩
    have := yearStart_mono (show minYear - 1 ≤ y - 1 by omega)
    have := yearStart_mono hhi
    omega
  · rintro ⟨hlo, hhi⟩
    constructor
    · by_contra hlt
      have := yearStart_mono (show y ≤ minYear - 1 by omega)
      omega
    · by_contra hgt
      have := yearStart_mono (show maxYear ≤ y - 1 by omega)
      omega

theorem marchDate_of_date (hint : Exact int) (h : CalendarDate y m d) (hlo : minDay ≤ dayNumber y m d)
    (hhi : dayNumber y m d ≤ maxDay) : marchDate int (dayNumber y m d) =
      .ok (marchYear y m, d + monthStart (marchMonth m), marchMonth m) := by
  obtain ⟨hn1, hn2⟩ := h.day_bounds
  rw [marchDate_exact hint hlo hhi (by rw [dayNumber]; omega) hn1 hn2, h.month_of_day]

theorem marchMonth_back (h : CalendarDate y m d) :
    (if marchMonth m > 12 then marchYear y m + 1 else marchYear y m) = y ∧
      (if marchMonth m > 12 then marchMonth m - 12 else marchMonth m) = m := by
  obtain ⟨hpos, hle, -, -⟩ := h
  unfold marchMonth marchYear
  grind

theorem dayOfMonth (h : CalendarDate y m d) :
    d + monthStart (marchMonth m) - div (153 * marchMonth m - 457) 5 = d := by
  have hmonth := h.marchMonth_bounds
  rw [div_eq (by omega), monthStart]
  omega

-- All six accessors read the same date.
structure Reads (int : Arith) (days y m d : ℤ) : Prop where
  yearmonthday_eq : yearmonthday int days = .ok (y, m, d)
  year_eq : year int days = .ok y
  yearmonth_eq : yearmonth int days = .ok (y, m)
  month_eq : month int days = .ok m
  monthday_eq : monthday int days = .ok (m, d)
  day_eq : day int days = .ok d

theorem reads_exact (hint : Exact int) (h : CalendarDate y m d) (hlo : minDay ≤ dayNumber y m d)
    (hhi : dayNumber y m d ≤ maxDay) : Reads int (dayNumber y m d) y m d := by
  have hmarch := marchDate_of_date hint h hlo hhi
  have hday := dayOfMonth h
  obtain ⟨hyear, hmonth⟩ := marchMonth_back h
  obtain ⟨hm1, hm2⟩ := h.marchMonth_bounds
  have hd : 1 ≤ d ∧ d ≤ 366 := by
    obtain ⟨hn1, hn2⟩ := h.day_bounds
    have hlength := yearLength_le (marchYear y m)
    refine ⟨h.day_pos, ?_⟩
    unfold monthStart at hn2
    omega
  have hy := (dayNumber_bounds h).mpr ⟨hlo, hhi⟩
  unfold minYear maxYear at hy
  generalize d + monthStart (marchMonth m) = c at *
  generalize marchMonth m = M at *
  generalize marchYear y m = Y at *
  by_cases hM : M > 12
  · simp only [if_pos hM] at hyear hmonth
    constructor <;> simp (disch := omega) only [yearmonthday, year, yearmonth, month, monthday, day, hmarch, ok_bind,
      hint.eq, hday, if_pos hM, hyear, hmonth, pure_eq_ok]
  · rw [if_neg hM] at hyear hmonth
    subst hyear hmonth
    constructor <;> simp (disch := omega) only [yearmonthday, year, yearmonth, month, monthday, day, hmarch, ok_bind,
      hint.eq, hday, if_neg hM, pure_eq_ok]

theorem getindex_daysinmonth (y : ℤ) (hpos : 1 ≤ m) (hle : m ≤ 12) :
    getindex DAYSINMONTH (m - 1) = .ok (monthLength y m - if m = 2 ∧ Leap y then 1 else 0) := by
  by_cases hleap : Leap y <;> interval_cases m <;> simp only [monthLength, hleap] <;> rfl

theorem daysinmonth_exact (hint : Exact int) (y : ℤ) (hpos : 1 ≤ m) (hle : m ≤ 12) :
    daysinmonth int y m = .ok (monthLength y m) := by
  have hmonth : 28 ≤ monthLength y m ∧ monthLength y m ≤ 31 := by
    unfold monthLength
    grind
  rw [daysinmonth, hint.eq (by omega) (by omega), ok_bind, getindex_daysinmonth y hpos hle, ok_bind]
  simp only [isleapyear_eq, Bool.and_eq_true, decide_eq_true_eq]
  rw [sub_add_cancel, hint.eq (by omega) (by omega)]

theorem getindex_monthDays (h : CalendarDate y m d) : getindex MONTHDAYS (m - 1) =
    .ok (dayNumber y m d - yearStart (y - 1) - d - if m > 2 ∧ Leap y then 1 else 0) := by
  have hpred := yearStart_pred y
  obtain ⟨hpos, hle, -, -⟩ := h
  by_cases hleap : Leap y
  · rw [if_pos hleap] at hpred
    interval_cases m <;> simp [dayNumber, marchMonth, marchYear, monthStart, hleap, hpred, getindex, MONTHDAYS] <;> omega
  · rw [if_neg hleap] at hpred
    interval_cases m <;> simp [dayNumber, marchMonth, marchYear, monthStart, hleap, hpred, getindex, MONTHDAYS] <;> omega

theorem dayNumber_first (y : ℤ) : dayNumber y 1 1 = yearStart (y - 1) + 1 := by
  simp only [dayNumber, marchMonth, marchYear, monthStart]
  norm_num
  omega

theorem dayofyear_exact (hint : Exact int) (h : CalendarDate y m d) :
    dayofyear int y m d = .ok (dayNumber y m d - dayNumber y 1 1 + 1) := by
  have htable := getindex_monthDays h
  have hfirst := dayNumber_first y
  obtain ⟨hlo, hhi⟩ := dayNumber_year h
  have hpred := yearStart_pred y
  have hd : d ≤ 31 := by
    refine h.day_le.trans ?_
    unfold monthLength
    split <;> split <;> omega
  obtain ⟨hpos, hle, hday, -⟩ := h
  have hspan : yearStart y ≤ yearStart (y - 1) + 366 := by
    split at hpred <;> omega
  simp only [dayofyear, isleapyear_eq, Bool.and_eq_true, decide_eq_true_eq]
  rw [hint.eq (by omega) (by omega), ok_bind, htable, ok_bind]
  by_cases hcount : m > 2 ∧ Leap y
  · simp (disch := omega) only [if_pos hcount, hint.eq, ok_bind, Except.ok.injEq]
    omega
  · simp (disch := omega) only [if_neg hcount, hint.eq, ok_bind, Except.ok.injEq]
    omega

theorem validargsDate_exact (hint : Exact int) (h : CalendarDate y m d) : validargsDate int y m d = .ok none := by
  have hmonth : 28 ≤ monthLength y m ∧ monthLength y m ≤ 31 := by
    unfold monthLength
    grind
  obtain ⟨hpos, hle, hday, hlength⟩ := h
  simp only [validargsDate, daysinmonth_exact hint y hpos hle, ok_bind]
  rw [if_neg (by omega), hint.eq (by omega) (by omega), ok_bind, if_neg (by omega)]
  rfl

theorem Date.new_exact (hint : Exact int) (h : CalendarDate y m d) (hlo : minYear ≤ y) (hhi : y ≤ maxYear) :
    Date.new int y m d = .ok ⟨dayNumber y m d⟩ := by
  rw [Date.new, validargsDate_exact hint h, ok_bind]
  dsimp only
  rw [totaldays_exact hint h hlo hhi, ok_bind, pure_eq_ok]

-- The dates by the source's own bound on the day.
def ValidDate (int : Arith) (y m d : ℤ) : Prop :=
  1 ≤ m ∧ m ≤ 12 ∧ ∃ n, daysinmonth int y m = .ok n ∧ 1 ≤ d ∧ d ≤ n

theorem validDate_iff (hint : Exact int) : ValidDate int y m d ↔ CalendarDate y m d := by
  constructor
  · rintro ⟨hpos, hle, n, hn, hday, hlength⟩
    rw [daysinmonth_exact hint y hpos hle] at hn
    cases hn
    exact ⟨hpos, hle, hday, hlength⟩
  · intro h
    exact ⟨h.month_pos, h.month_le, _, daysinmonth_exact hint y h.month_pos h.month_le, h.day_pos, h.day_le⟩

end Exact

-- Between the type limits `first` and `last`, dates and day numbers correspond.
structure CalendarBijection (int : Arith) (first last : ℤ) : Prop where
  typemin_eq : typeminDate int = .ok ⟨first⟩
  typemax_eq : typemaxDate int = .ok ⟨last⟩
  of_date : ∀ y m d, ValidDate int y m d → minYear ≤ y → y ≤ maxYear → ∃ days, totaldays int y m d = .ok days ∧
    first ≤ days ∧ days ≤ last ∧ yearmonthday int days = .ok (y, m, d)
  of_day : ∀ days, first ≤ days → days ≤ last → ∃ y m d, ValidDate int y m d ∧ minYear ≤ y ∧ y ≤ maxYear ∧
    Reads int days y m d ∧ totaldays int y m d = .ok days
  consecutive : ∀ days y m d, first ≤ days → days < last → yearmonthday int days = .ok (y, m, d) →
    yearmonthday int (days + 1) = .ok (nextDay y m d)
  dayofyear_eq : ∀ y m d, ValidDate int y m d → minYear ≤ y → y ≤ maxYear → ∃ days start,
    totaldays int y m d = .ok days ∧ totaldays int y 1 1 = .ok start ∧ dayofyear int y m d = .ok (days - start + 1)

theorem Exact.calendar {int : Arith} (hint : Exact int) : CalendarBijection int minDay maxDay := by
  refine ⟨?_, ?_, ?_, ?_, ?_, ?_⟩
  · exact Date.new_exact hint ⟨by decide, by decide, by decide, by decide⟩ (by decide) (by decide)
  · exact Date.new_exact hint ⟨by decide, by decide, by decide, by decide⟩ (by decide) (by decide)
  · intro y m d hvalid hlo hhi
    have h := (validDate_iff hint).mp hvalid
    obtain ⟨hfirst, hlast⟩ := (dayNumber_bounds h).mp ⟨hlo, hhi⟩
    exact ⟨_, totaldays_exact hint h hlo hhi, hfirst, hlast, (reads_exact hint h hfirst hlast).yearmonthday_eq⟩
  · intro days hfirst hlast
    obtain ⟨y, m, d, h, rfl⟩ := exists_date days
    obtain ⟨hlo, hhi⟩ := (dayNumber_bounds h).mpr ⟨hfirst, hlast⟩
    exact ⟨y, m, d, (validDate_iff hint).mpr h, hlo, hhi, reads_exact hint h hfirst hlast, totaldays_exact hint h hlo hhi⟩
  · intro days y m d hfirst hlast hread
    obtain ⟨y', m', d', h, rfl⟩ := exists_date days
    rw [(reads_exact hint h hfirst hlast.le).yearmonthday_eq] at hread
    cases hread
    have hnext := h.dayNumber_nextDay
    rw [← hnext]
    exact (reads_exact hint h.nextDay_valid (by omega) (by omega)).yearmonthday_eq
  · intro y m d hvalid hlo hhi
    have h := (validDate_iff hint).mp hvalid
    have hone : CalendarDate y 1 1 := ⟨by decide, by decide, by decide, by simp [monthLength]⟩
    exact ⟨_, _, totaldays_exact hint h hlo hhi, totaldays_exact hint hone hlo hhi, dayofyear_exact hint h⟩

-- No intermediate result overflows, and so the wrapping operators compute the same.
theorem calendar_is_bijection : CalendarBijection checked minDay maxDay ∧ CalendarBijection wrapping minDay maxDay :=
  ⟨exact_checked.calendar, exact_wrapping.calendar⟩

end Joolia.Dates
