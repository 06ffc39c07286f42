import Joolia.Stdlib.Dates
import Mathlib.Tactic.IntervalCases
import Mathlib.Tactic.Linarith

namespace Joolia.Dates

open Fallible

section Gregorian

def Leap (y : ℤ) : Prop := y % 4 = 0 ∧ (y % 100 ≠ 0 ∨ y % 400 = 0)

instance (y : ℤ) : Decidable (Leap y) := inferInstanceAs (Decidable (_ ∧ _))

def monthLength (y m : ℤ) : ℤ :=
  if m = 2 then if Leap y then 29 else 28
  else if m = 4 ∨ m = 6 ∨ m = 9 ∨ m = 11 then 30 else 31

-- A day of the proleptic Gregorian calendar.
structure CalendarDate (y m d : ℤ) : Prop where
  month_pos : 1 ≤ m
  month_le : m ≤ 12
  day_pos : 1 ≤ d
  day_le : d ≤ monthLength y m

def nextDay (y m d : ℤ) : ℤ × ℤ × ℤ :=
  if d < monthLength y m then (y, m, d + 1) else if m < 12 then (y, m + 1, 1) else (y + 1, 1, 1)

-- January and February count as the months 13 and 14 of the year before.
def marchYear (y m : ℤ) : ℤ := if m < 3 then y - 1 else y

def marchMonth (m : ℤ) : ℤ := if m < 3 then m + 12 else m

-- The days of the shifted year before a month.
def monthStart (m : ℤ) : ℤ := (153 * m - 457) / 5

-- The days before a shifted year.
def yearStart (y : ℤ) : ℤ := 365 * y + y / 4 - y / 100 + y / 400

def dayNumber (y m d : ℤ) : ℤ := d + monthStart (marchMonth m) + yearStart (marchYear y m) - 306

-- A shifted year ends with the leap day, if there is one.
def yearLength (y : ℤ) : ℤ := if Leap (y + 1) then 366 else 365

variable {y m d : ℤ}

theorem yearStart_succ (y : ℤ) : yearStart (y + 1) = yearStart y + yearLength y := by
  unfold yearStart yearLength
  by_cases hleap : Leap (y + 1)
  · rw [if_pos hleap]
    unfold Leap at hleap
    omega
  · rw [if_neg hleap]
    unfold Leap at hleap
    omega

theorem yearStart_mono {y y' : ℤ} (hle : y ≤ y') : yearStart y ≤ yearStart y' := by
  induction y', hle using Int.leInduction with
  | base => exact le_refl _
  | succ y' _ ih =>
      have hsucc := yearStart_succ y'
      unfold yearLength at hsucc
      split at hsucc <;> omega

theorem CalendarDate.marchMonth_bounds (h : CalendarDate y m d) : 3 ≤ marchMonth m ∧ marchMonth m ≤ 14 := by
  have := h.month_pos
  have := h.month_le
  unfold marchMonth
  split <;> omega

-- The day of the shifted year lies in it.
theorem CalendarDate.day_bounds (h : CalendarDate y m d) :
    1 ≤ d + monthStart (marchMonth m) ∧ d + monthStart (marchMonth m) ≤ yearLength (marchYear y m) := by
  obtain ⟨hpos, hle, hday, hlength⟩ := h
  unfold monthLength at hlength
  interval_cases m <;> simp only [marchMonth, marchYear, monthStart, yearLength] at * <;>
    norm_num at * <;> grind

-- Month and day are read off the day of the shifted year.
theorem CalendarDate.month_of_day (h : CalendarDate y m d) :
    (5 * (d + monthStart (marchMonth m)) + 456) / 153 = marchMonth m := by
  obtain ⟨hpos, hle, hday, hlength⟩ := h
  unfold monthLength at hlength
  interval_cases m <;> simp only [marchMonth, monthStart] at * <;> norm_num at * <;> grind

-- A year by its place in the cycles of 400, 100 and 4 years.
structure YearParts (y q r s t : ℤ) : Prop where
  year_eq : y = 400 * q + 100 * r + 4 * s + t
  century : 0 ≤ r ∧ r ≤ 3
  cycle : 0 ≤ s ∧ s ≤ 24
  rest : 0 ≤ t ∧ t ≤ 3

variable {q r s t : ℤ}

theorem exists_yearParts (y : ℤ) : ∃ q r s t, YearParts y q r s t :=
  ⟨y / 400, y % 400 / 100, y % 100 / 4, y % 4, by omega, by omega, by omega, by omega⟩

theorem YearParts.div (h : YearParts y q r s t) : y / 4 = 100 * q + 25 * r + s ∧ y / 100 = 4 * q + r ∧ y / 400 = q := by
  obtain ⟨rfl, hr, hs, ht⟩ := h
  omega

theorem YearParts.yearStart_eq (h : YearParts y q r s t) : yearStart y = 146097 * q + 36524 * r + 1461 * s + 365 * t := by
  obtain ⟨h4, h100, h400⟩ := h.div
  rw [yearStart, h4, h100, h400, h.year_eq]
  omega

theorem YearParts.leap_succ (h : YearParts y q r s t) : Leap (y + 1) ↔ t = 3 ∧ (s ≠ 24 ∨ r = 3) := by
  obtain ⟨rfl, hr, hs, ht⟩ := h
  unfold Leap
  omega

theorem YearParts.yearLength_eq (h : YearParts y q r s t) :
    yearLength y = if t = 3 ∧ (s ≠ 24 ∨ r = 3) then 366 else 365 := by
  unfold yearLength
  exact if_congr h.leap_succ rfl rfl

-- Every day lies in a shifted year.
theorem exists_march (z : ℤ) : ∃ y n, z = n + yearStart y ∧ 1 ≤ n ∧ n ≤ yearLength y := by
  obtain ⟨q, e, he, hlo, hhi⟩ : ∃ q e, z - 1 = 146097 * q + e ∧ 0 ≤ e ∧ e < 146097 :=
    ⟨(z - 1) / 146097, (z - 1) % 146097, by omega, by omega, by omega⟩
  obtain ⟨r, f, hf, hr0, hr3, hf0, hf1⟩ : ∃ r f, e = 36524 * r + f ∧ 0 ≤ r ∧ r ≤ 3 ∧ 0 ≤ f ∧
      (f < 36524 ∨ r = 3 ∧ f = 36524) := ⟨min (e / 36524) 3, e - 36524 * min (e / 36524) 3, by omega, by omega,
    by omega, by omega, by omega⟩
  obtain ⟨s, g, hg, hs0, hs1, hg0, hg1⟩ : ∃ s g, f = 1461 * s + g ∧ 0 ≤ s ∧ s ≤ 24 ∧ 0 ≤ g ∧
      g < 1461 := ⟨f / 1461, f % 1461, by omega, by omega, by omega, by omega, by omega⟩
  obtain ⟨t, n, hn, ht0, ht3, hn0, hn1⟩ : ∃ t n, g = 365 * t + n ∧ 0 ≤ t ∧ t ≤ 3 ∧ 0 ≤ n ∧
      (n < 365 ∨ t = 3 ∧ n = 365) := ⟨min (g / 365) 3, g - 365 * min (g / 365) 3, by omega, by omega,
    by omega, by omega, by omega⟩
  have hparts : YearParts (400 * q + 100 * r + 4 * s + t) q r s t := ⟨rfl, ⟨hr0, hr3⟩, ⟨hs0, hs1⟩, ht0, ht3⟩
  refine ⟨400 * q + 100 * r + 4 * s + t, n + 1, ?_, by omega, ?_⟩
  · rw [hparts.yearStart_eq]
    omega
  · rw [hparts.yearLength_eq]
    split <;> omega

-- The divisions of the source find the year: first the century, then the year in the calendar without its gaps.
theorem YearParts.century_eq (h : YearParts y q r s t) {n : ℤ} (hpos : 1 ≤ n) (hle : n ≤ yearLength y) :
    (100 * (n + yearStart y) - 25) / 3652425 = 4 * q + r := by
  rw [h.yearLength_eq] at hle
  rw [h.yearStart_eq]
  obtain ⟨-, hr, hs, ht⟩ := h
  split at hle <;> omega

theorem YearParts.year_found (h : YearParts y q r s t) {n : ℤ} (hpos : 1 ≤ n) (hle : n ≤ yearLength y) :
    (100 * (3 * q + r) + (100 * (n + yearStart y) - 25)) / 36525 = y := by
  rw [h.yearLength_eq] at hle
  rw [h.yearStart_eq]
  obtain ⟨rfl, hr, hs, ht⟩ := h
  split at hle <;> omega

theorem yearStart_pred (y : ℤ) : yearStart y = yearStart (y - 1) + if Leap y then 366 else 365 := by
  have hsucc := yearStart_succ (y - 1)
  rw [yearLength, sub_add_cancel] at hsucc
  exact hsucc

-- A day of the shifted year belongs to a date.
theorem exists_date (days : ℤ) : ∃ y m d, CalendarDate y m d ∧ dayNumber y m d = days := by
  obtain ⟨y, n, hz, hpos, hle⟩ := exists_march (days + 306)
  have hn : n ≤ 365 ∨ n = 366 ∧ Leap (y + 1) := by
    unfold yearLength at hle
    split at hle
    · rename_i hleap
      by_cases hn : n ≤ 365
      · exact .inl hn
      · exact .inr ⟨by omega, hleap⟩
    · exact .inl hle
  obtain ⟨M, hM⟩ : ∃ M, M = (5 * n + 456) / 153 := ⟨_, rfl⟩
  have hM3 : 3 ≤ M := by omega
  have hM14 : M ≤ 14 := by omega
  refine ⟨if M > 12 then y + 1 else y, if M > 12 then M - 12 else M, n - monthStart M, ?_, ?_⟩
  · have hlength : n - monthStart M ≤ monthLength (if M > 12 then y + 1 else y) (if M > 12 then M - 12 else M) := by
      unfold monthLength monthStart
      interval_cases M <;> norm_num <;> grind
    refine ⟨by split <;> omega, by split <;> omega, ?_, hlength⟩
    unfold monthStart
    interval_cases M <;> omega
  · have hmonth : marchMonth (if M > 12 then M - 12 else M) = M := by
      unfold marchMonth
      split <;> split <;> omega
    have hyear : marchYear (if M > 12 then y + 1 else y) (if M > 12 then M - 12 else M) = y := by
      unfold marchYear
      split <;> split <;> omega
    rw [dayNumber, hmonth, hyear]
    omega

theorem CalendarDate.nextDay_valid (h : CalendarDate y m d) :
    CalendarDate (nextDay y m d).1 (nextDay y m d).2.1 (nextDay y m d).2.2 := by
  have hone : ∀ y m, 1 ≤ monthLength y m := by
    intro y m
    unfold monthLength
    split <;> split <;> omega
  obtain ⟨hpos, hle, hday, hlength⟩ := h
  unfold nextDay
  split
  · dsimp only
    exact ⟨hpos, hle, by omega, by omega⟩
  · split <;> dsimp only
    · exact ⟨by omega, by omega, le_refl 1, hone _ _⟩
    · exact ⟨le_refl 1, by omega, le_refl 1, hone _ _⟩

theorem CalendarDate.dayNumber_nextDay (h : CalendarDate y m d) :
    dayNumber (nextDay y m d).1 (nextDay y m d).2.1 (nextDay y m d).2.2 = dayNumber y m d + 1 := by
  have hyear := yearStart_pred y
  obtain ⟨hpos, hle, hday, hlength⟩ := h
  unfold nextDay
  split
  · dsimp only [dayNumber]
    omega
  · have hlast : d = monthLength y m := by omega
    subst hlast
    split
    · unfold monthLength dayNumber
      interval_cases m <;> simp only [marchMonth, marchYear, monthStart] <;> norm_num <;> grind
    · have hm : m = 12 := by omega
      subst hm
      simp only [monthLength, dayNumber, marchMonth, marchYear, monthStart]
      norm_num
      omega

end Gregorian

end Joolia.Dates
