import Joolia.Library.Calendar
import Joolia.Stdlib.Dates.Rounding
import Mathlib.Data.Rat.Floor

namespace Joolia.Dates

open Fallible

inductive RangeError
  | period (e : PeriodError)
  | ArgumentError (msg : String)
  | OverflowError (msg : String)
  | BoundsError
  | endless
deriving DecidableEq, Repr

structure StepRange where
  start : Date
  step : DatePeriod
  stop : Date
deriving DecidableEq, Repr

section Model

def liftPeriod {α : Type} (x : Except PeriodError α) : Except RangeError α := x.mapError .period

-- `p * i`
def DatePeriod.times (p : DatePeriod) (i : ℤ) : DatePeriod := ⟨p.unit, int64 (p.value * i)⟩

def DatePeriod.abs (p : DatePeriod) : DatePeriod := ⟨p.unit, if p.value < 0 then int64 (-p.value) else p.value⟩

-- The floating-point numbers of the source, taken exactly
def days (c : DatePeriod) : ℚ :=
  match c.unit with
  | .Year => 365.2425 * c.value
  | .Quarter => 91.310625 * c.value
  | .Month => 30.436875 * c.value
  | .Week => (int64 (7 * c.value) : ℤ)
  | .Day => c.value

-- Division towards zero
def trunc (q : ℚ) : ℤ := q.num.tdiv q.den

def guess (a b : Date) (c : DatePeriod) : ℤ := trunc ((int64 (b.instant - a.instant) : ℤ) / days c)

def lenLoop (st : DatePeriod) (hi : Date) : ℕ → Date → Date → ℤ → Except RangeError ℤ
  | 0, _, _, _ => .error .endless
  | fuel + 1, prev, v, i =>
      if v.instant ≤ hi.instant ∧ prev.instant ≤ v.instant then do
        let next ← liftPeriod (v.add st)
        lenLoop st hi fuel v next (int64 (i + 1))
      else .ok (int64 (i - 1))

-- The loop has passed `hi` after one step more than the days up to it.
def len (a b : Date) (c : DatePeriod) : Except RangeError ℤ := do
  let (lo, hi) := if b.instant < a.instant then (b, a) else (a, b)
  let st := c.abs
  let i := guess a b c
  let v ← liftPeriod (lo.add (st.times i))
  lenLoop st hi ((hi.instant - v.instant).toNat + 2) v v i

def isempty (r : StepRange) : Bool :=
  decide (r.start ≠ r.stop) && (decide (r.step.value > 0) != decide (r.stop.instant > r.start.instant))

def length (r : StepRange) : Except RangeError ℤ := do
  if isempty r then return 0
  return int64 ((← len r.start r.stop r.step) + 1)

def steprange_last (start : Date) (step : DatePeriod) (stop : Date) : Except RangeError Date :=
  if step.value = 0 then .error (.ArgumentError "step cannot be zero")
  else if stop = start then .ok stop
  else if decide (step.value > 0) != decide (stop.instant > start.instant) then .ok stop
  else do
    let diff := int64 (stop.instant - start.instant)
    if decide (diff > 0) != decide (stop.instant > start.instant) then
      throw (.OverflowError "Difference between stop and start overflowed")
    let reached ← liftPeriod (start.add (step.times (← len start stop step)))
    let remain := int64 (stop.instant - reached.instant)
    return ⟨int64 (stop.instant - remain)⟩

-- `start:step:stop`
def colon (start : Date) (step : DatePeriod) (stop : Date) : Except RangeError StepRange := do
  return ⟨start, step, ← steprange_last start step stop⟩

-- `r[i]`
def getindexRange (r : StepRange) (i : ℤ) : Except RangeError Date := do
  let n ← length r
  if 0 ≤ i ∧ i < n then liftPeriod (r.start.add (r.step.times i)) else throw .BoundsError

-- `x in r`
def contains (x : Date) (r : StepRange) : Except RangeError Bool := do
  let n ← len r.start x r.step
  if n ≥ 0 then do
    if n < (← length r) then return decide ((← getindexRange r n) = x) else return false
  else return false

def iterate (r : StepRange) : Except RangeError (Option (Date × ℤ × ℤ)) := do
  let l ← length r
  return if l ≤ 0 then none else some (r.start, l, 1)

def iterateFrom (r : StepRange) (l i : ℤ) : Except RangeError (Option (Date × ℤ × ℤ)) :=
  if l ≤ i then .ok none
  else do return some (← liftPeriod (r.start.add (r.step.times i)), l, int64 (i + 1))

def collectLoop (r : StepRange) : ℕ → Option (Date × ℤ × ℤ) → Except RangeError (List Date)
  | _, none => .ok []
  | 0, some _ => .error .endless
  | fuel + 1, some (x, l, i) => do
      let next ← iterateFrom r l i
      return x :: (← collectLoop r fuel next)

def collect (r : StepRange) : Except RangeError (List Date) := do
  collectLoop r (← length r).toNat (← iterate r)

end Model

section Calendars

-- The month of a day, counted as by `monthIndex`; a year that starts in March is found first.
def monthOf (x : ℤ) : ℤ :=
  let h := 100 * (x + 306) - 25
  let y := (100 * (h / 3652425 - h / 3652425 / 4) + h) / 36525
  12 * y + (5 * (x + 306 - yearStart y) + 456) / 153 - 1

variable {y m d : ℤ}

theorem monthOf_eq (h : CalendarDate y m d) : monthOf (dayNumber y m d) = monthIndex y m := by
  obtain ⟨hpos, hle⟩ := h.day_bounds
  obtain ⟨q, r, s, t, hparts⟩ := exists_yearParts (marchYear y m)
  have hdays : dayNumber y m d + 306 = d + monthStart (marchMonth m) + yearStart (marchYear y m) := by
    unfold dayNumber
    omega
  have hcentury := hparts.century_eq hpos hle
  have hyear := hparts.year_found hpos hle
  have hmonth := h.month_of_day
  have hb : 4 * q + r - (4 * q + r) / 4 = 3 * q + r := by
    have := hparts.century
    omega
  rw [← hdays] at hcentury hyear
  rw [monthOf, hcentury, hb, hyear, hdays, add_sub_cancel_right, hmonth, monthIndex, marchYear, marchMonth]
  split <;> omega

def monthCalendar : Calendar where
  first := monthFirst
  cell := monthOf
  first_strictMono := monthFirst_strictMono
  first_cell_le x := by
    obtain ⟨y, m, d, h, rfl⟩ := exists_date x
    rw [monthOf_eq h]
    exact h.monthFirst_le
  lt_first_succ x := by
    obtain ⟨y, m, d, h, rfl⟩ := exists_date x
    rw [monthOf_eq h]
    exact h.lt_monthFirst

-- Every day by itself
def dayCalendar : Calendar where
  first x := x
  cell x := x
  first_strictMono := strictMono_id
  first_cell_le := Int.le_refl
  lt_first_succ := Int.lt_succ

theorem monthCalendar_length (M : ℤ) : monthCalendar.length M = monthLength (M / 12) (M % 12 + 1) := by
  have hsucc := monthFirst_succ M
  change monthFirst (M + 1) - monthFirst M = _
  omega

theorem monthCalendar_place (M d : ℤ) : monthCalendar.place M d = inMonth M d := by
  have hadd := dayNumber_add (M / 12) (M % 12 + 1) 1 (min d (monthLength (M / 12) (M % 12 + 1)) - 1)
  rw [add_sub_cancel] at hadd
  rw [Calendar.place, monthCalendar_length, inMonth, hadd, ← monthFirst]
  change monthFirst M + _ - 1 = _
  omega

theorem monthCalendar_advance (h : CalendarDate y m d) (n : ℤ) :
    monthCalendar.advance n (dayNumber y m d) = inMonth (monthIndex y m + n) d := by
  have hcell : monthCalendar.cell (dayNumber y m d) = monthIndex y m := monthOf_eq h
  have hday : monthCalendar.day (dayNumber y m d) = d := by
    rw [Calendar.day, hcell, h.dayNumber_month]
    change monthFirst (monthIndex y m) + (d - 1) - monthFirst (monthIndex y m) + 1 = d
    omega
  rw [Calendar.advance, hcell, hday, monthCalendar_place]

theorem dayCalendar_length (x : ℤ) : dayCalendar.length x = 1 := by
  change x + 1 - x = 1
  omega

theorem dayCalendar_day (x : ℤ) : dayCalendar.day x = 1 := by
  change x - x + 1 = 1
  omega

theorem dayCalendar_advance (n x : ℤ) : dayCalendar.advance n x = x + n := by
  rw [Calendar.advance, Calendar.place, dayCalendar_day, dayCalendar_length]
  change x + n + min 1 1 - 1 = x + n
  omega

-- The months follow the average of the 400 years of a cycle.
theorem monthFirst_near (M : ℤ) : -30000 ≤ 4800 * monthFirst M - 146097 * M + 1750000 ∧ 4800 * monthFirst M - 146097 * M + 1750000 ≤ 30000 := by
  unfold monthFirst dayNumber monthStart yearStart marchMonth marchYear
  split <;> omega

def monthAverage : monthCalendar.Average where
  days := 146097
  per := 4800
  shortest := 28
  spread := 3
  per_pos := by decide
  days_pos := by decide
  length_ge M := by
    rw [monthCalendar_length]
    exact (monthLength_bounds _ _).1
  length_le M := by
    rw [monthCalendar_length]
    exact (monthLength_bounds _ _).2
  longest_le := by decide
  first_lt M n hn := by
    have hM := monthFirst_near M
    have hn := monthFirst_near (M + n)
    change 4800 * (monthFirst (M + n) - monthFirst M) < _
    omega
  le_first M n hn := by
    have hM := monthFirst_near M
    have hn := monthFirst_near (M + n)
    change _ ≤ 4800 * (monthFirst (M + n) - monthFirst M - 3)
    omega

def dayAverage : dayCalendar.Average where
  days := 1
  per := 1
  shortest := 1
  spread := 0
  per_pos := by decide
  days_pos := by decide
  length_ge M := (dayCalendar_length M).ge
  length_le M := (dayCalendar_length M).le
  longest_le := by decide
  first_lt M n hn := by
    change 1 * (M + n - M) < _
    omega
  le_first M n hn := by
    change _ ≤ 1 * (M + n - M - 0)
    omega

def DateUnit.calendar : DateUnit → Calendar
  | .Year | .Quarter | .Month => monthCalendar
  | .Week | .Day => dayCalendar

def DateUnit.average : (unit : DateUnit) → unit.calendar.Average
  | .Year | .Quarter | .Month => monthAverage
  | .Week | .Day => dayAverage

-- The months or days of a unit
def DateUnit.cells : DateUnit → ℤ
  | .Year => 12
  | .Quarter => 3
  | .Month => 1
  | .Week => 7
  | .Day => 1

def DatePeriod.cells (p : DatePeriod) : ℤ := p.unit.cells * p.value

end Calendars

section Sums

-- The days that the sums may reach, about nine tenths of those of the type
def Inside (x : ℤ) : Prop := -80000000000000000 ≤ x ∧ x ≤ 80000000000000000

-- No product wraps.
def DatePeriod.Fits (p : DatePeriod) : Prop := -2 ^ 60 ≤ p.cells ∧ p.cells ≤ 2 ^ 60

variable {y m d n x v : ℤ}

theorem Inside.year_bounds (h : CalendarDate y m d) (hx : Inside (dayNumber y m d)) : minYear ≤ y ∧ y ≤ maxYear := by
  apply (dayNumber_bounds h).mpr
  unfold Inside at hx
  unfold minDay maxDay
  omega

theorem Inside.sum_year_bounds (h : CalendarDate y m d) (hsum : Inside (monthCalendar.advance n (dayNumber y m d))) :
    minYear ≤ (monthIndex y m + n) / 12 ∧ (monthIndex y m + n) / 12 ≤ maxYear := by
  rw [monthCalendar_advance h, inMonth] at hsum
  exact hsum.year_bounds (calendarDate_inMonth (monthIndex y m + n) h.day_pos)

theorem addMonth_inside (hx : Inside x) (hsum : Inside (monthCalendar.advance n x)) :
    addMonth ⟨x⟩ n = .ok ⟨monthCalendar.advance n x⟩ := by
  obtain ⟨y, m, d, h, rfl⟩ := exists_date x
  obtain ⟨hlo, hhi⟩ := hx.year_bounds h
  obtain ⟨hlo', hhi'⟩ := hsum.sum_year_bounds h
  rw [addMonth_exact h hlo hhi hlo' hhi', monthCalendar_advance h]

theorem addYear_inside (hx : Inside x) (hsum : Inside (monthCalendar.advance (12 * v) x)) :
    addYear ⟨x⟩ v = .ok ⟨monthCalendar.advance (12 * v) x⟩ := by
  obtain ⟨y, m, d, h, rfl⟩ := exists_date x
  obtain ⟨hlo, hhi⟩ := hx.year_bounds h
  obtain ⟨hlo', hhi'⟩ := hsum.sum_year_bounds h
  have hpos := h.month_pos
  have hle := h.month_le
  have hyear : (monthIndex y m + 12 * v) / 12 = y + v := by
    unfold monthIndex
    omega
  rw [hyear] at hlo' hhi'
  rw [addYear_exact h hlo hhi hlo' hhi', monthCalendar_advance h]

theorem quarterMonths_fits (hlo : -2 ^ 60 ≤ 3 * v) (hhi : 3 * v ≤ 2 ^ 60) : quarterMonths v = .ok (3 * v) := by
  have hmin : div (-2 ^ 63) 3 = -3074457345618258602 := by decide
  have hmax : div (2 ^ 63 - 1) 3 = 3074457345618258602 := by decide
  rw [quarterMonths, convertFiner, hmin, hmax, if_pos (by omega), int64_eq (by omega) (by omega), mul_comm]

theorem Date.add_inside (p : DatePeriod) (hx : Inside x) (hfits : p.Fits) (hsum : Inside (p.unit.calendar.advance p.cells x)) :
    Date.add ⟨x⟩ p = .ok ⟨p.unit.calendar.advance p.cells x⟩ := by
  obtain ⟨unit, v⟩ := p
  obtain ⟨hlo, hhi⟩ := hfits
  unfold DatePeriod.cells at *
  unfold Inside at hx
  cases unit with
  | Year => exact congrArg liftDates (addYear_inside hx hsum)
  | Quarter =>
      have hmonths := quarterMonths_fits hlo hhi
      have hadd := addMonth_inside hx hsum
      rw [Date.add, hmonths, ok_bind]
      exact congrArg liftDates hadd
  | Month =>
      change Inside (monthCalendar.advance (1 * v) x) at hsum
      change liftDates (addMonth ⟨x⟩ v) = .ok ⟨monthCalendar.advance (1 * v) x⟩
      rw [one_mul] at hsum ⊢
      exact congrArg liftDates (addMonth_inside hx hsum)
  | Week =>
      change -2 ^ 60 ≤ 7 * v at hlo
      change 7 * v ≤ 2 ^ 60 at hhi
      change Except.ok (Date.mk (int64 (x + int64 (7 * v)))) = .ok ⟨dayCalendar.advance (7 * v) x⟩
      rw [dayCalendar_advance, int64_eq (x := 7 * v) (by omega) (by omega), int64_eq (by omega) (by omega)]
  | Day =>
      change -2 ^ 60 ≤ 1 * v at hlo
      change 1 * v ≤ 2 ^ 60 at hhi
      change Except.ok (Date.mk (int64 (x + v))) = .ok ⟨dayCalendar.advance (1 * v) x⟩
      rw [dayCalendar_advance, one_mul, int64_eq (by omega) (by omega)]

end Sums

section Guess

variable {a b m n : ℤ}

theorem tdiv_congr {k l : ℤ} (hn : n ≠ 0) (hl : 0 < l) (h : m * l = k * n) : m.tdiv n = k.tdiv l := by
  rcases hn.lt_or_gt with hneg | hpos
  · rw [← Int.mul_tdiv_mul_of_pos m n hl, mul_comm l m, h, mul_comm l n, mul_comm k n, ← Int.neg_tdiv_neg, ← neg_mul, ← neg_mul,
      Int.mul_tdiv_mul_of_pos k l (by omega)]
  · rw [← Int.mul_tdiv_mul_of_pos m n hl, mul_comm l m, h, mul_comm l n, mul_comm k n, Int.mul_tdiv_mul_of_pos k l hpos]

theorem trunc_div (m : ℤ) (hn : n ≠ 0) : trunc (m / n) = m.tdiv n := by
  have hcast : (n : ℚ) ≠ 0 := Int.cast_ne_zero.mpr hn
  have hden : (0 : ℤ) < ((m : ℚ) / n).den := Int.natCast_pos.mpr (Rat.den_pos _)
  have hden' : (((m : ℚ) / n).den : ℚ) ≠ 0 := by exact_mod_cast hden.ne'
  have hratio : ((m : ℚ) / n).num / ((m : ℚ) / n).den = (m : ℚ) / n := Rat.num_div_den _
  rw [div_eq_div_iff hden' hcast] at hratio
  apply (tdiv_congr hn hden _).symm
  exact_mod_cast hratio.symm

theorem days_eq {c : DatePeriod} (hfits : c.Fits) : days c = (c.unit.average.days * c.cells : ℤ) / (c.unit.average.per : ℤ) := by
  obtain ⟨unit, v⟩ := c
  obtain ⟨hlo, hhi⟩ := hfits
  unfold DatePeriod.cells at *
  cases unit with
  | Year =>
      change (365.2425 : ℚ) * v = (146097 * (12 * v) : ℤ) / (4800 : ℤ)
      push_cast
      ring
  | Quarter =>
      change (91.310625 : ℚ) * v = (146097 * (3 * v) : ℤ) / (4800 : ℤ)
      push_cast
      ring
  | Month =>
      change (30.436875 : ℚ) * v = (146097 * (1 * v) : ℤ) / (4800 : ℤ)
      push_cast
      ring
  | Week =>
      change -2 ^ 60 ≤ 7 * v at hlo
      change 7 * v ≤ 2 ^ 60 at hhi
      change ((int64 (7 * v) : ℤ) : ℚ) = (1 * (7 * v) : ℤ) / (1 : ℤ)
      rw [int64_eq (by omega) (by omega), one_mul, Int.cast_one, div_one]
  | Day =>
      change (v : ℚ) = (1 * (1 * v) : ℤ) / (1 : ℤ)
      rw [one_mul, one_mul, Int.cast_one, div_one]

theorem guess_eq {c : DatePeriod} (hne : c.cells ≠ 0) (hfits : c.Fits) (hlo : -2 ^ 62 ≤ b - a) (hhi : b - a ≤ 2 ^ 62) :
    guess ⟨a⟩ ⟨b⟩ c = (c.unit.average.per * (b - a)).tdiv (c.unit.average.days * c.cells) := by
  have hper := c.unit.average.per_pos
  have hdays := c.unit.average.days_pos
  have hcast : ((c.unit.average.per : ℤ) : ℚ) ≠ 0 := Int.cast_ne_zero.mpr hper.ne'
  rw [guess, int64_eq (by dsimp only; omega) (by dsimp only; omega), days_eq hfits, ← trunc_div _ (mul_ne_zero hdays.ne' hne)]
  congr 1
  rw [Int.cast_mul c.unit.average.per, div_div_eq_mul_div, mul_comm]

end Guess

section Steps

-- Dates and steps whose sums stay inside
def Far (x : ℤ) : Prop := -10000000000000000 ≤ x ∧ x ≤ 10000000000000000

def DatePeriod.Bounded (p : DatePeriod) : Prop := DatePeriod.reach ⟨p.unit, |p.value|⟩ ≤ 50000000000000000

instance (x : ℤ) : Decidable (Far x) := inferInstanceAs (Decidable (_ ∧ _))

instance (p : DatePeriod) : Decidable p.Bounded := inferInstanceAs (Decidable (_ ≤ _))

variable {a b x y i k K n : ℤ} {c : DatePeriod}

theorem DateUnit.cells_pos (unit : DateUnit) : 0 < unit.cells := by
  cases unit <;> decide

theorem DateUnit.longest_bounds (unit : DateUnit) : 1 ≤ unit.average.longest ∧ unit.average.longest ≤ 31 := by
  cases unit <;> decide

theorem DatePeriod.Bounded.reach_le (h : c.Bounded) : c.unit.average.longest * |c.cells| ≤ 50000000000000000 := by
  obtain ⟨unit, v⟩ := c
  rw [cells, abs_mul, abs_of_pos unit.cells_pos]
  cases unit with
  | Year => exact h
  | Quarter => exact h
  | Month =>
      rw [show DateUnit.Month.cells = 1 from rfl, one_mul]
      exact h
  | Week =>
      rw [show DateUnit.Week.average.longest = 1 from rfl, one_mul]
      exact h
  | Day =>
      rw [show DateUnit.Day.average.longest = 1 from rfl, show DateUnit.Day.cells = 1 from rfl, one_mul, one_mul]
      exact h

theorem DatePeriod.Bounded.cells_le (h : c.Bounded) : |c.cells| ≤ 50000000000000000 := by
  have hlongest := c.unit.longest_bounds.1
  have hscaled := mul_le_mul_of_nonneg_right hlongest (abs_nonneg c.cells)
  have hreach := h.reach_le
  omega

theorem DatePeriod.Bounded.fits (h : c.Bounded) : c.Fits := by
  have hle := abs_le.mp h.cells_le
  unfold Fits
  omega

theorem DatePeriod.value_bounds (p : DatePeriod) (h : -2 ^ 61 ≤ p.cells) (h' : p.cells ≤ 2 ^ 61) : -2 ^ 61 ≤ p.value ∧ p.value ≤ 2 ^ 61 := by
  obtain ⟨unit, v⟩ := p
  unfold cells at *
  cases unit <;> simp only [DateUnit.cells] at * <;> omega

theorem DatePeriod.Bounded.abs_cells (h : c.Bounded) : c.abs.cells = |c.cells| := by
  have hle := abs_le.mp h.cells_le
  have hvalue := c.value_bounds (by omega) (by omega)
  change c.unit.cells * (if c.value < 0 then int64 (-c.value) else c.value) = _
  rw [cells, abs_mul, abs_of_pos c.unit.cells_pos]
  by_cases hneg : c.value < 0
  · rw [if_pos hneg, int64_eq (by omega) (by omega), abs_of_neg hneg]
  · rw [if_neg hneg, abs_of_nonneg (not_lt.mp hneg)]

theorem DatePeriod.times_cells (p : DatePeriod) (hlo : -2 ^ 60 ≤ p.cells * k) (hhi : p.cells * k ≤ 2 ^ 60) :
    (p.times k).cells = p.cells * k := by
  have hassoc : p.cells * k = DatePeriod.cells ⟨p.unit, p.value * k⟩ := mul_assoc _ _ _
  rw [hassoc] at hlo hhi
  have hvalue := DatePeriod.value_bounds ⟨p.unit, p.value * k⟩ (by omega) (by omega)
  dsimp only at hvalue
  rw [times, int64_eq (x := p.value * k) (by omega) (by omega), hassoc]

theorem near_of_cell (hn : 0 ≤ n) (hup : c.unit.calendar.cell y ≤ c.unit.calendar.cell x + n)
    (hdown : c.unit.calendar.cell x ≤ c.unit.calendar.cell y + n) (hreach : c.unit.average.longest * n ≤ 50000000000000000) :
    x - 50000000000000031 ≤ y ∧ y ≤ x + 50000000000000031 := by
  have hlongest := c.unit.longest_bounds.2
  have hlt := c.unit.average.lt_of_cell_le hn hup
  have hgt := c.unit.average.lt_of_cell_le hn hdown
  rw [mul_add, mul_one] at hlt hgt
  omega

theorem near_advance (hreach : c.unit.average.longest * |n| ≤ 50000000000000000) :
    x - 50000000000000031 ≤ c.unit.calendar.advance n x ∧ c.unit.calendar.advance n x ≤ x + 50000000000000031 := by
  have hle := le_abs_self n
  have hge := neg_le_abs n
  apply near_of_cell (abs_nonneg n) _ _ hreach
  · rw [Calendar.cell_advance]
    omega
  · rw [Calendar.cell_advance]
    omega

end Steps

section Len

variable {a b lo hi x prev i K : ℤ} {st c : DatePeriod} {fuel : ℕ}

variable (st) in
theorem lenLoop_counts (hpos : 0 < st.cells) (hfits : st.Fits) (hreach : st.unit.average.longest * st.cells ≤ 50000000000000000)
    (hhi : hi ≤ 10000000000000000) (hK : K ≤ 2 ^ 61)
    (hcount : Calendar.Counts (st.unit.calendar.advance st.cells) hi x i K) (hx : -80000000000000000 ≤ x) (hi' : -2 ^ 61 ≤ i)
    (hprev : prev ≤ x) (hfuel : hi - x + 2 ≤ fuel) (hfuel' : 0 < fuel) : lenLoop st ⟨hi⟩ fuel ⟨prev⟩ ⟨x⟩ i = .ok K := by
  induction hcount generalizing prev fuel with
  | @done x i hlt =>
      obtain ⟨fuel, rfl⟩ := Nat.exists_eq_add_one_of_ne_zero hfuel'.ne'
      rw [lenLoop, if_neg fun h => absurd h.1 (not_le.mpr hlt), int64_eq (by omega) (by omega)]
  | @step x i K hle hrest ih =>
      obtain ⟨fuel, rfl⟩ := Nat.exists_eq_add_one_of_ne_zero hfuel'.ne'
      have hnear := near_advance (c := st) (n := st.cells) (x := x) (by rwa [abs_of_pos hpos])
      have hgrow := st.unit.calendar.advance_strictMono x hpos
      have hcounted := hrest.le
      dsimp only at hgrow
      rw [Calendar.advance_zero] at hgrow
      have hadd := Date.add_inside (x := x) st (by unfold Inside; omega) hfits (by unfold Inside; omega)
      rw [lenLoop, if_pos ⟨hle, hprev⟩, hadd]
      change lenLoop st ⟨hi⟩ fuel ⟨x⟩ _ (int64 (i + 1)) = .ok K
      rw [int64_eq (by omega) (by omega)]
      push_cast at hfuel
      exact ih hK (by omega) (by omega) hgrow.le (by omega) (by omega)

theorem min_max_eq (a b : ℤ) : (if b < a then (Date.mk b, Date.mk a) else (⟨a⟩, ⟨b⟩)) = (⟨min a b⟩, ⟨max a b⟩) := by
  split
  · rw [min_eq_right (by omega), max_eq_left (by omega)]
  · rw [min_eq_left (by omega), max_eq_right (by omega)]

-- From a guess that leads not too far, `len` counts as the walk does.
theorem len_counts (hne : c.cells ≠ 0) (hc : c.Bounded) (ha : Far a) (hb : Far b) (hguess : guess ⟨a⟩ ⟨b⟩ c = i)
    (hstart : c.unit.average.longest * |(|c.cells| * i)| ≤ 40000000000000000)
    (hcount : Calendar.Counts (c.unit.calendar.advance |c.cells|) (max a b) (c.unit.calendar.advance (|c.cells| * i) (min a b)) i K)
    (hK : K ≤ c.unit.calendar.steps |c.cells| (min a b) (max a b)) : len ⟨a⟩ ⟨b⟩ c = .ok K := by
  have hpos := abs_pos.mpr hne
  have hsteps := c.unit.calendar.steps_le_sub (g := |c.cells|) (min_le_max (a := a) (b := b))
  have habs := hc.abs_cells
  have hcells := hc.cells_le
  have hreach := hc.reach_le
  have hscaled := mul_le_mul_of_nonneg_right c.unit.longest_bounds.1 (abs_nonneg (|c.cells| * i))
  have hproduct := abs_le.mp (show |(|c.cells| * i)| ≤ 40000000000000000 by omega)
  have hi' : -40000000000000000 ≤ i ∧ i ≤ 40000000000000000 := by
    have hstep := mul_le_mul_of_nonneg_right (Int.add_one_le_of_lt hpos) (abs_nonneg i)
    rw [abs_mul, abs_abs] at hscaled hstart
    apply abs_le.mp
    omega
  have htimes := c.abs.times_cells (k := i) (by rw [habs]; omega) (by rw [habs]; omega)
  rw [habs] at htimes
  have hnear := near_advance (c := c) (x := min a b) (hstart.trans (by decide))
  unfold Far at ha hb
  have hsum : Inside (c.unit.calendar.advance (c.abs.times i).cells (min a b)) := by
    rw [htimes]
    unfold Inside
    omega
  have hadd : Date.add ⟨min a b⟩ (c.abs.times i) = .ok ⟨c.unit.calendar.advance (c.abs.times i).cells (min a b)⟩ :=
    Date.add_inside (c.abs.times i) (by unfold Inside; omega) (by unfold DatePeriod.Fits; omega) hsum
  rw [htimes] at hadd
  rw [len, min_max_eq, hguess]
  dsimp only
  rw [hadd]
  refine lenLoop_counts c.abs ?_ ?_ ?_ ?_ ?_ ?_ ?_ ?_ (le_refl _) ?_ (by omega)
  · rwa [habs]
  · rw [DatePeriod.Fits, habs]
    omega
  · rwa [habs]
  · omega
  · omega
  · rwa [habs]
  · omega
  · omega
  · push_cast
    omega

-- The step leads from `a` towards `b`.
def Forward (c : DatePeriod) (a b : ℤ) : Prop := 0 < c.cells ∧ a ≤ b ∨ c.cells < 0 ∧ b ≤ a

theorem guess_forward (hc : c.Bounded) (ha : Far a) (hb : Far b) (hdir : Forward c a b) :
    guess ⟨a⟩ ⟨b⟩ c = c.unit.average.guess |c.cells| (min a b) (max a b) := by
  unfold Far at ha hb
  have hne : c.cells ≠ 0 := by
    unfold Forward at hdir
    omega
  rw [guess_eq hne hc.fits (by omega) (by omega), Calendar.Average.guess]
  rcases hdir with ⟨hpos, hle⟩ | ⟨hneg, hle⟩
  · rw [abs_of_pos hpos, min_eq_left hle, max_eq_right hle]
    exact Int.tdiv_eq_ediv_of_nonneg (mul_nonneg c.unit.average.per_pos.le (sub_nonneg.mpr hle))
  · rw [abs_of_neg hneg, min_eq_right hle, max_eq_left hle, ← Int.neg_tdiv_neg, ← mul_neg, ← mul_neg, neg_sub]
    exact Int.tdiv_eq_ediv_of_nonneg (mul_nonneg c.unit.average.per_pos.le (sub_nonneg.mpr hle))

theorem guess_backward (hc : c.Bounded) (ha : Far a) (hb : Far b) (hdir : 0 < c.cells ∧ b ≤ a ∨ c.cells < 0 ∧ a ≤ b) :
    guess ⟨a⟩ ⟨b⟩ c = -c.unit.average.guess |c.cells| (min a b) (max a b) := by
  unfold Far at ha hb
  rw [guess_eq (by omega) hc.fits (by omega) (by omega), Calendar.Average.guess]
  rcases hdir with ⟨hpos, hle⟩ | ⟨hneg, hle⟩
  · rw [abs_of_pos hpos, min_eq_right hle, max_eq_left hle, ← neg_sub a b, mul_neg, Int.neg_tdiv]
    exact congrArg Neg.neg (Int.tdiv_eq_ediv_of_nonneg (mul_nonneg c.unit.average.per_pos.le (sub_nonneg.mpr hle)))
  · rw [abs_of_neg hneg, min_eq_left hle, max_eq_right hle, mul_neg, ← neg_neg (c.unit.average.days * c.cells), Int.tdiv_neg, neg_neg]
    exact congrArg Neg.neg (Int.tdiv_eq_ediv_of_nonneg (mul_nonneg c.unit.average.per_pos.le (sub_nonneg.mpr hle)))

theorem reach_guess (hne : c.cells ≠ 0) (ha : Far a) (hb : Far b)
    (hi' : |i| = c.unit.average.guess |c.cells| (min a b) (max a b)) :
    c.unit.average.longest * |(|c.cells| * i)| ≤ 40000000000000000 := by
  have hreach := c.unit.average.reach_guess (abs_pos.mpr hne) (min_le_max (a := a) (b := b))
  unfold Far at ha hb
  rw [abs_mul, abs_abs, hi']
  omega

theorem len_forward (hc : c.Bounded) (ha : Far a) (hb : Far b) (hdir : Forward c a b) :
    len ⟨a⟩ ⟨b⟩ c = .ok (c.unit.average.count |c.cells| (min a b) (max a b)) := by
  have hne : c.cells ≠ 0 := by
    unfold Forward at hdir
    omega
  have hpos := abs_pos.mpr hne
  have hnonneg := c.unit.average.guess_nonneg hpos (min_le_max (a := a) (b := b))
  apply len_counts hne hc ha hb (guess_forward hc ha hb hdir)
  · exact reach_guess hne ha hb (abs_of_nonneg hnonneg)
  · exact c.unit.average.counts_guess hpos min_le_max
  · exact c.unit.average.count_le _ _ _

-- In the other direction the loop counts something, too.
theorem len_total (hne : c.cells ≠ 0) (hc : c.Bounded) (ha : Far a) (hb : Far b) : ∃ n, len ⟨a⟩ ⟨b⟩ c = .ok n := by
  by_cases hdir : Forward c a b
  · exact ⟨_, len_forward hc ha hb hdir⟩
  · have hpos := abs_pos.mpr hne
    have hnonneg := c.unit.average.guess_nonneg hpos (min_le_max (a := a) (b := b))
    obtain ⟨K, hK, hcount⟩ := c.unit.calendar.exists_counts hpos (min_le_max (a := a) (b := b)) (neg_nonpos.mpr hnonneg)
    refine ⟨K, len_counts hne hc ha hb (guess_backward hc ha hb ?_) ?_ hcount hK⟩
    · unfold Forward at hdir
      omega
    · exact reach_guess hne ha hb (by rw [abs_neg, abs_of_nonneg hnonneg])

end Len

section Elements

variable {a b k : ℤ} {s : DatePeriod}

-- `a + k * s` in the calendar
def DatePeriod.nth (s : DatePeriod) (a k : ℤ) : ℤ := s.unit.calendar.advance (s.cells * k) a

def Passed (s : DatePeriod) (stop x : Date) : Prop := if 0 < s.value then stop.instant < x.instant else x.instant < stop.instant

instance (s : DatePeriod) (stop x : Date) : Decidable (Passed s stop x) := by
  unfold Passed
  infer_instance

-- The last of the sums that have not passed `b`
def lastIndex (s : DatePeriod) (a b : ℤ) : ℤ :=
  if 0 < s.cells then s.unit.calendar.lastUp |s.cells| a b else s.unit.calendar.lastDown |s.cells| a b

-- The walk of `len` takes a step more than the sums.
def Miscounted (s : DatePeriod) (a b : ℤ) : Prop :=
  if 0 < s.cells then s.unit.calendar.Clamped |s.cells| a b ∧ s.unit.average.Short |s.cells| a b
  else (|s.cells| ∣ s.unit.calendar.cell a - s.unit.calendar.cell b ∧ s.unit.calendar.day a < s.unit.calendar.day b) ∧
    (s.unit.calendar.day a = s.unit.calendar.length (s.unit.calendar.cell a) ∨ s.unit.average.Short |s.cells| b a)

theorem value_pos_iff (s : DatePeriod) : 0 < s.value ↔ 0 < s.cells := (mul_pos_iff_of_pos_left s.unit.cells_pos).symm

theorem cells_ne_zero (hs : s.value ≠ 0) : s.cells ≠ 0 := mul_ne_zero s.unit.cells_pos.ne' hs

theorem nth_zero (s : DatePeriod) (a : ℤ) : s.nth a 0 = a := by
  rw [DatePeriod.nth, mul_zero, Calendar.advance_zero]

theorem passed_of_pos (hpos : 0 < s.cells) (stop x : Date) : Passed s stop x ↔ stop.instant < x.instant := by
  rw [Passed, if_pos ((value_pos_iff s).mpr hpos)]

theorem passed_of_neg (hneg : s.cells < 0) (stop x : Date) : Passed s stop x ↔ x.instant < stop.instant := by
  rw [Passed, if_neg ((value_pos_iff s).not.mpr hneg.not_gt)]

theorem passed_iff (hs : s.value ≠ 0) : Passed s ⟨b⟩ ⟨s.nth a k⟩ ↔ lastIndex s a b < k := by
  have hne := cells_ne_zero hs
  have hg := abs_pos.mpr hne
  unfold lastIndex DatePeriod.nth
  rcases hne.lt_or_gt with hneg | hpos
  · have hdown := s.unit.calendar.le_advance_iff_le_lastDown (x := a) (y := b) (k := k) hg
    rw [abs_of_neg hneg, neg_mul, neg_neg] at hdown
    rw [passed_of_neg hneg, if_neg hneg.not_gt, ← not_le, ← not_le, abs_of_neg hneg]
    exact not_congr hdown
  · have hup := s.unit.calendar.advance_le_iff_le_lastUp (x := a) (y := b) (k := k) hg
    rw [abs_of_pos hpos] at hup
    rw [passed_of_pos hpos, if_pos hpos, ← not_le, ← not_le, abs_of_pos hpos]
    exact not_congr hup

theorem Forward.value_ne_zero (h : Forward s a b) : s.value ≠ 0 := by
  intro hzero
  unfold Forward DatePeriod.cells at h
  rw [hzero, mul_zero] at h
  omega

theorem Forward.not_passed (h : Forward s a b) : ¬Passed s ⟨b⟩ ⟨a⟩ := by
  rcases h with ⟨hpos, hle⟩ | ⟨hneg, hle⟩
  · rw [passed_of_pos hpos]
    exact hle.not_gt
  · rw [passed_of_neg hneg]
    exact hle.not_gt

theorem lastIndex_nonneg (h : Forward s a b) : 0 ≤ lastIndex s a b := by
  have hfirst := passed_iff (a := a) (b := b) (k := 0) h.value_ne_zero
  rw [nth_zero] at hfirst
  exact not_lt.mp (hfirst.not.mp h.not_passed)

-- The sums lie between the ends.
theorem Forward.nth (h : Forward s a b) (hk : 0 ≤ k) (hlast : k ≤ lastIndex s a b) :
    Forward s a (s.nth a k) ∧ min a b ≤ s.nth a k ∧ s.nth a k ≤ max a b := by
  have hpassed := (passed_iff h.value_ne_zero).not.mpr (not_lt.mpr hlast)
  have hmono := (s.unit.calendar.advance_strictMono a).monotone
  have hzero := Calendar.advance_zero s.unit.calendar a
  rcases h with ⟨hpos, hle⟩ | ⟨hneg, hle⟩
  · have hstart := hmono (mul_nonneg hpos.le hk)
    rw [passed_of_pos hpos] at hpassed
    dsimp only at hstart hpassed
    rw [hzero] at hstart
    change a ≤ s.nth a k at hstart
    exact ⟨.inl ⟨hpos, hstart⟩, by omega, by omega⟩
  · have hstart := hmono (mul_nonpos_of_nonpos_of_nonneg hneg.le hk)
    rw [passed_of_neg hneg] at hpassed
    dsimp only at hstart hpassed
    rw [hzero] at hstart
    change s.nth a k ≤ a at hstart
    exact ⟨.inr ⟨hneg, hstart⟩, by omega, by omega⟩

theorem count_bounds (h : Forward s a b) :
    lastIndex s a b ≤ s.unit.average.count |s.cells| (min a b) (max a b) ∧
      s.unit.average.count |s.cells| (min a b) (max a b) ≤ lastIndex s a b + 1 ∧
      (s.unit.average.count |s.cells| (min a b) (max a b) = lastIndex s a b ↔ ¬Miscounted s a b) := by
  unfold lastIndex Miscounted
  rcases h with ⟨hpos, hle⟩ | ⟨hneg, hle⟩
  · rw [min_eq_left hle, max_eq_right hle]
    simp only [if_pos hpos]
    exact s.unit.average.count_lastUp _ a b
  · rw [min_eq_right hle, max_eq_left hle]
    simp only [if_neg hneg.not_gt]
    exact s.unit.average.count_lastDown _ a b

theorem count_nth (h : Forward s a (s.nth a k)) :
    s.unit.average.count |s.cells| (min a (s.nth a k)) (max a (s.nth a k)) = k := by
  rcases h with ⟨hpos, hle⟩ | ⟨hneg, hle⟩
  · rw [min_eq_left hle, max_eq_right hle, DatePeriod.nth, abs_of_pos hpos]
    exact s.unit.average.count_advance hpos a k
  · have hdown := s.unit.average.count_advance_neg (g := -s.cells) (by omega) a k
    rw [neg_mul, neg_neg] at hdown
    rwa [min_eq_right hle, max_eq_left hle, DatePeriod.nth, abs_of_neg hneg]

theorem lastIndex_le (h : Forward s a b) : |s.cells| * lastIndex s a b ≤ |b - a| := by
  have hg := abs_pos.mpr (cells_ne_zero h.value_ne_zero)
  have hsub := s.unit.calendar.cell_sub_le (min_le_max (a := a) (b := b))
  have hsteps := s.unit.calendar.steps_le (min a b) (max a b) hg
  have hcount := mul_le_mul_of_nonneg_left ((count_bounds h).1.trans (s.unit.average.count_le _ _ _)) hg.le
  rw [max_sub_min_eq_abs] at hsub
  omega

end Elements

section Runs

variable {a b x k : ℤ} {s : DatePeriod} {n : ℕ}

theorem Forward.far (h : Forward s a b) (ha : Far a) (hb : Far b) (hk : 0 ≤ k) (hlast : k ≤ lastIndex s a b) : Far (s.nth a k) := by
  obtain ⟨-, hlo, hhi⟩ := h.nth hk hlast
  unfold Far at *
  omega

-- One step past the last sum still fits.
theorem inside_nth (hs : s.Bounded) (ha : Far a) (hb : Far b) (h : Forward s a b) (hk : 0 ≤ k) (hlast : k ≤ lastIndex s a b + 1) :
    Inside (s.nth a k) := by
  have hnonneg := lastIndex_nonneg h
  rcases hlast.lt_or_eq with hlt | heq
  · have hfar := h.far ha hb hk (by omega)
    unfold Far at hfar
    unfold Inside
    omega
  · have hprev := h.far ha hb hnonneg (le_refl _)
    have hcell : s.unit.calendar.cell (s.nth a k) = s.unit.calendar.cell (s.nth a (lastIndex s a b)) + s.cells := by
      rw [DatePeriod.nth, DatePeriod.nth, Calendar.cell_advance, Calendar.cell_advance, heq, mul_add, mul_one, add_assoc]
    have hle := le_abs_self s.cells
    have hge := neg_le_abs s.cells
    have hnear := near_of_cell (c := s) (x := s.nth a (lastIndex s a b)) (y := s.nth a k) (abs_nonneg s.cells)
      (by omega) (by omega) hs.reach_le
    unfold Far at hprev
    unfold Inside
    omega

theorem add_nth (hs : s.Bounded) (ha : Far a) (hb : Far b) (h : Forward s a b) (hk : 0 ≤ k) (hlast : k ≤ lastIndex s a b + 1) :
    Date.add ⟨a⟩ (s.times k) = .ok ⟨s.nth a k⟩ := by
  have hsum := inside_nth hs ha hb h hk hlast
  have hcells := hs.cells_le
  have hspan := lastIndex_le h
  have hmul := mul_le_mul_of_nonneg_left hlast (abs_nonneg s.cells)
  rw [mul_add, mul_one] at hmul
  unfold Far at ha hb
  have hlength : |b - a| ≤ 20000000000000000 := abs_le.mpr (by omega)
  have hproduct : |s.cells * k| ≤ 70000000000000000 := by
    rw [abs_mul, abs_of_nonneg hk]
    omega
  have hbounds := abs_le.mp hproduct
  have htimes := s.times_cells (k := k) (by omega) (by omega)
  rw [DatePeriod.nth, ← htimes] at hsum ⊢
  apply Date.add_inside (s.times k) _ _ hsum
  · unfold Inside
    omega
  · unfold DatePeriod.Fits
    omega

theorem steprange_last_forward (hs : s.Bounded) (ha : Far a) (hb : Far b) (h : Forward s a b) :
    steprange_last ⟨a⟩ s ⟨b⟩ = .ok ⟨s.nth a (s.unit.average.count |s.cells| (min a b) (max a b))⟩ := by
  rw [steprange_last, if_neg h.value_ne_zero]
  by_cases heq : b = a
  · subst heq
    have hself := count_nth (s := s) (a := b) (k := 0) (by rwa [nth_zero])
    rw [nth_zero] at hself
    rw [if_pos rfl, hself, nth_zero]
  · obtain ⟨hle, hge, -⟩ := count_bounds h
    have hadd := add_nth hs ha hb h ((lastIndex_nonneg h).trans hle) hge
    have hinside := inside_nth hs ha hb h ((lastIndex_nonneg h).trans hle) hge
    have hlen := len_forward hs ha hb h
    have hdir : 0 < s.value ↔ a < b := by
      rw [value_pos_iff]
      unfold Forward at h
      omega
    unfold Far at ha hb
    have hdiff : int64 (b - a) = b - a := int64_eq (by omega) (by omega)
    rw [if_neg fun hdate => heq (congrArg Date.instant hdate)]
    dsimp only
    rw [if_neg (by simp [hdir]), hdiff, if_neg (by simp), hlen]
    change (do
      let reached ← liftPeriod (Date.add ⟨a⟩ (s.times (s.unit.average.count |s.cells| (min a b) (max a b))))
      return (⟨int64 (b - int64 (b - reached.instant))⟩ : Date)) = _
    rw [hadd]
    change Except.ok (Date.mk (int64 (b - int64 (b - s.nth a _)))) = _
    unfold Inside at hinside
    rw [int64_eq (x := b - s.nth a _) (by omega) (by omega), sub_sub_cancel, int64_eq (by omega) (by omega)]

theorem colon_forward (hs : s.Bounded) (ha : Far a) (hb : Far b) (h : Forward s a b) :
    colon ⟨a⟩ s ⟨b⟩ = .ok ⟨⟨a⟩, s, ⟨s.nth a (s.unit.average.count |s.cells| (min a b) (max a b))⟩⟩ := by
  rw [colon, steprange_last_forward hs ha hb h]
  rfl

theorem isempty_of_forward (h : Forward s a b) : isempty ⟨⟨a⟩, s, ⟨b⟩⟩ = false := by
  by_cases heq : a = b
  · subst heq
    simp [isempty]
  · have hdir : 0 < s.value ↔ a < b := by
      rw [value_pos_iff]
      unfold Forward at h
      omega
    simp [isempty, hdir]

theorem isempty_of_backward (hne : s.value ≠ 0) (h : ¬Forward s a b) : isempty ⟨⟨a⟩, s, ⟨b⟩⟩ = true := by
  have hcells := cells_ne_zero hne
  have hdir : 0 < s.value ↔ b < a := by
    rw [value_pos_iff]
    unfold Forward at h
    omega
  have hab : a ≠ b := by
    unfold Forward at h
    omega
  simp only [isempty, ne_eq, Date.mk.injEq, hab, not_false_eq_true, decide_true, Bool.true_and, gt_iff_lt, hdir, bne_iff_ne, decide_eq_decide]
  omega

theorem colon_backward (hne : s.value ≠ 0) (h : ¬Forward s a b) : colon ⟨a⟩ s ⟨b⟩ = .ok ⟨⟨a⟩, s, ⟨b⟩⟩ := by
  have hempty := isempty_of_backward hne h
  rw [isempty, Bool.and_eq_true] at hempty
  have hab : ¬(Date.mk b) = ⟨a⟩ := fun heq => absurd hempty.1 (by simp [heq])
  rw [colon, steprange_last, if_neg hne, if_neg hab, if_pos hempty.2]
  rfl

end Runs

section Members

variable {a b x k : ℤ} {s : DatePeriod} {n : ℕ}

-- The range that ends at the sum `n`
def DatePeriod.upTo (s : DatePeriod) (a : ℤ) (n : ℕ) : StepRange := ⟨⟨a⟩, s, ⟨s.nth a n⟩⟩

theorem length_upTo (hs : s.Bounded) (ha : Far a) (hb : Far b) (h : Forward s a b) (hn : n ≤ lastIndex s a b) :
    length (s.upTo a n) = .ok (n + 1) := by
  have hnth := h.nth (Int.natCast_nonneg n) hn
  have hfar := h.far ha hb (Int.natCast_nonneg n) hn
  have hlen := len_forward hs ha hfar hnth.1
  rw [count_nth hnth.1] at hlen
  have hspan := lastIndex_le h
  have hg := Int.add_one_le_of_lt (abs_pos.mpr (cells_ne_zero h.value_ne_zero))
  have hmul := mul_le_mul_of_nonneg_right hg (lastIndex_nonneg h)
  unfold Far at ha hb
  have hlength : |b - a| ≤ 20000000000000000 := abs_le.mpr (by omega)
  rw [length, DatePeriod.upTo, isempty_of_forward hnth.1, if_neg Bool.false_ne_true]
  dsimp only
  rw [hlen, ok_bind, int64_eq (by omega) (by omega)]
  rfl

-- The sums up to `n`
def DatePeriod.sums (s : DatePeriod) (a : ℤ) (n : ℕ) : List Date := (List.range (n + 1)).map fun j : ℕ => ⟨s.nth a j⟩

theorem lastIndex_le_span (ha : Far a) (hb : Far b) (h : Forward s a b) : lastIndex s a b ≤ 20000000000000000 := by
  have hspan := lastIndex_le h
  have hg := Int.add_one_le_of_lt (abs_pos.mpr (cells_ne_zero h.value_ne_zero))
  have hmul := mul_le_mul_of_nonneg_right hg (lastIndex_nonneg h)
  unfold Far at ha hb
  have hlength : |b - a| ≤ 20000000000000000 := abs_le.mpr (by omega)
  omega

-- The induction is on the elements that are left.
theorem collectLoop_upTo (hs : s.Bounded) (ha : Far a) (hb : Far b) (h : Forward s a b) (hn : n ≤ lastIndex s a b) (m i : ℕ)
    (hm : i + m = n) : collectLoop (s.upTo a n) (m + 1) (some (⟨s.nth a i⟩, n + 1, i + 1)) =
      .ok ((List.range' i (m + 1)).map fun j : ℕ => ⟨s.nth a j⟩) := by
  have hspan := lastIndex_le_span ha hb h
  induction m generalizing i with
  | zero =>
      have hlast : iterateFrom (s.upTo a n) (n + 1) (i + 1) = .ok none := if_pos (by omega)
      rw [collectLoop, hlast]
      rfl
  | succ m ih =>
      have hadd := add_nth hs ha hb h (k := i + 1) (by omega) (by omega)
      have hnext : iterateFrom (s.upTo a n) (n + 1) (i + 1) = .ok (some (⟨s.nth a (i + 1)⟩, n + 1, i + 1 + 1)) := by
        rw [iterateFrom, if_neg (by omega)]
        dsimp only [DatePeriod.upTo]
        rw [hadd, int64_eq (by omega) (by omega)]
        rfl
      have hrest := ih (i + 1) (by omega)
      push_cast at hrest
      rw [collectLoop, hnext, ok_bind, hrest]
      rfl

theorem collect_upTo (hs : s.Bounded) (ha : Far a) (hb : Far b) (h : Forward s a b) (hn : n ≤ lastIndex s a b) :
    collect (s.upTo a n) = .ok (s.sums a n) := by
  have hlength := length_upTo hs ha hb h hn
  have hloop := collectLoop_upTo hs ha hb h hn n 0 (by omega)
  have hiterate : iterate (s.upTo a n) = .ok (some (⟨s.nth a 0⟩, n + 1, 0 + 1)) := by
    rw [iterate, hlength, ok_bind, if_neg (by omega), nth_zero]
    rfl
  rw [collect, hlength, ok_bind, hiterate, ok_bind, show ((n : ℤ) + 1).toNat = n + 1 by omega, DatePeriod.sums, List.range_eq_range']
  exact hloop

theorem mem_sums : (⟨x⟩ : Date) ∈ s.sums a n ↔ ∃ j : ℕ, j ≤ n ∧ s.nth a j = x := by
  simp only [DatePeriod.sums, List.mem_map, List.mem_range, Date.mk.injEq, Nat.lt_succ_iff]

theorem contains_upTo (hs : s.Bounded) (ha : Far a) (hb : Far b) (hx : Far x) (h : Forward s a b) (hn : n ≤ lastIndex s a b) :
    contains ⟨x⟩ (s.upTo a n) = .ok (decide ((⟨x⟩ : Date) ∈ s.sums a n)) := by
  have hlength := length_upTo hs ha hb h hn
  obtain ⟨m, hm⟩ := len_total (cells_ne_zero h.value_ne_zero) hs ha hx
  -- A sum is counted as its own place, and so no other place is looked up.
  have hplace : ∀ j : ℕ, j ≤ n → s.nth a j = x → m = j := by
    rintro j hj rfl
    have hnth := h.nth (k := j) (by omega) (by omega)
    have hlen := len_forward hs ha hx hnth.1
    rw [count_nth hnth.1, hm] at hlen
    exact Except.ok.inj hlen
  have hfirst : len (s.upTo a n).start ⟨x⟩ (s.upTo a n).step = .ok m := hm
  have hmem := mem_sums (x := x) (s := s) (a := a) (n := n)
  have hmissing : ¬(0 ≤ m ∧ m < n + 1) → decide ((⟨x⟩ : Date) ∈ s.sums a n) = false := by
    intro hrange
    rw [decide_eq_false_iff_not, hmem]
    rintro ⟨j, hj, heq⟩
    have := hplace j hj heq
    omega
  rw [contains, hfirst, ok_bind]
  by_cases hneg : m ≥ 0
  · rw [if_pos hneg, hlength, ok_bind]
    by_cases hlt : m < n + 1
    · have hadd := add_nth hs ha hb h (k := m) hneg (by omega)
      have hget : getindexRange (s.upTo a n) m = .ok ⟨s.nth a m⟩ := by
        rw [getindexRange, hlength, ok_bind, if_pos ⟨hneg, hlt⟩]
        dsimp only [DatePeriod.upTo]
        rw [hadd]
        rfl
      have hfound : (⟨s.nth a m⟩ : Date) = ⟨x⟩ ↔ (⟨x⟩ : Date) ∈ s.sums a n := by
        rw [hmem, Date.mk.injEq]
        constructor
        · intro heq
          exact ⟨m.toNat, by omega, by rwa [Int.toNat_of_nonneg hneg]⟩
        · rintro ⟨j, hj, heq⟩
          rwa [hplace j hj heq]
      rw [if_pos hlt, hget, ok_bind]
      exact congrArg Except.ok (decide_eq_decide.mpr hfound)
    · rw [if_neg hlt, hmissing (by omega)]
      rfl
  · rw [if_neg hneg, hmissing (by omega)]
    rfl

end Members

section Exact

variable {a b : ℤ} {s : DatePeriod}

-- `r` is `a:s:b`, with the elements `xs`: the sums `a + k * s` that have not passed `b`.
structure ExactRange (a : Date) (s : DatePeriod) (b : Date) (r : StepRange) (xs : List Date) : Prop where
  colon_eq : colon a s b = .ok r
  collect_eq : collect r = .ok xs
  elements (k : ℕ) (hk : k < xs.length) : a.add (s.times k) = .ok xs[k] ∧ ¬Passed s b xs[k]
  ends : ∃ y, a.add (s.times xs.length) = .ok y ∧ Passed s b y
  length_eq : length r = .ok xs.length
  last_le : ¬Passed s b r.stop
  mem_iff (x : Date) : Far x.instant → contains x r = .ok (decide (x ∈ xs))

instance (s : DatePeriod) (a b : ℤ) : Decidable (Forward s a b) := inferInstanceAs (Decidable (_ ∨ _))

instance (s : DatePeriod) (a b : ℤ) : Decidable (Miscounted s a b) := by
  unfold Miscounted
  infer_instance

theorem exact_of_forward (hs : s.Bounded) (ha : Far a) (hb : Far b) (h : Forward s a b) (hcount : ¬Miscounted s a b) :
    ExactRange ⟨a⟩ s ⟨b⟩ (s.upTo a (lastIndex s a b).toNat) (s.sums a (lastIndex s a b).toNat) := by
  have hnonneg := lastIndex_nonneg h
  obtain ⟨n, hn⟩ := Int.eq_ofNat_of_zero_le hnonneg
  have hlength : (s.sums a n).length = n + 1 := by rw [DatePeriod.sums, List.length_map, List.length_range]
  have hcolon := colon_forward hs ha hb h
  rw [(count_bounds h).2.2.mpr hcount, hn] at hcolon
  have hadd : ∀ k : ℕ, k ≤ n + 1 → Date.add ⟨a⟩ (s.times k) = .ok ⟨s.nth a k⟩ := by
    intro k hk
    exact add_nth hs ha hb h (by omega) (by omega)
  rw [hn, Int.toNat_natCast]
  constructor
  · exact hcolon
  · exact collect_upTo hs ha hb h hn.ge
  · intro k hk
    have hget : (s.sums a n)[k] = ⟨s.nth a k⟩ := by simp [DatePeriod.sums]
    rw [hget, passed_iff h.value_ne_zero]
    exact ⟨hadd k (by omega), by omega⟩
  · refine ⟨_, hadd _ hlength.le, ?_⟩
    rw [hlength, passed_iff h.value_ne_zero]
    omega
  · rw [hlength]
    exact_mod_cast length_upTo hs ha hb h hn.ge
  · rw [DatePeriod.upTo, passed_iff h.value_ne_zero]
    omega
  · intro x hx
    exact contains_upTo hs ha hb hx h hn.ge

theorem exact_of_backward (hs : s.Bounded) (ha : Far a) (hne : s.value ≠ 0) (h : ¬Forward s a b) :
    ExactRange ⟨a⟩ s ⟨b⟩ ⟨⟨a⟩, s, ⟨b⟩⟩ [] := by
  have hempty := isempty_of_backward hne h
  have hlength : length ⟨⟨a⟩, s, ⟨b⟩⟩ = .ok 0 := by
    rw [length, hempty]
    rfl
  have hpassed : Passed s ⟨b⟩ ⟨a⟩ := by
    have hcells := cells_ne_zero hne
    unfold Forward at h
    rcases hcells.lt_or_gt with hneg | hpos
    · rw [passed_of_neg hneg]
      dsimp only
      omega
    · rw [passed_of_pos hpos]
      dsimp only
      omega
  constructor
  · exact colon_backward hne h
  · rw [collect, iterate, hlength]
    rfl
  · intro k hk
    exact absurd hk (Nat.not_lt_zero k)
  · have hself : Forward s a a := by
      have hcells := cells_ne_zero hne
      unfold Forward
      omega
    have hadd := add_nth hs ha ha hself (le_refl 0) (by have := lastIndex_nonneg hself; omega)
    rw [nth_zero] at hadd
    exact ⟨_, hadd, hpassed⟩
  · exact hlength
  · have hcells := cells_ne_zero hne
    rcases hcells.lt_or_gt with hneg | hpos
    · rw [passed_of_neg hneg]
      exact lt_irrefl b
    · rw [passed_of_pos hpos]
      exact lt_irrefl b
  · intro x hx
    obtain ⟨n, hn⟩ := len_total (cells_ne_zero hne) hs ha hx
    rw [contains]
    dsimp only
    rw [hn, ok_bind, hlength, ok_bind]
    by_cases hneg : n ≥ 0
    · rw [if_pos hneg, if_neg (by omega)]
      rfl
    · rw [if_neg hneg]
      rfl

-- Everything about the range is right exactly when its last element is.
theorem exact_range_iff (a b : Date) (s : DatePeriod) (hne : s.value ≠ 0) (hs : s.Bounded) (ha : Far a.instant) (hb : Far b.instant) :
    (∃ r xs, ExactRange a s b r xs) ↔ ¬(Forward s a.instant b.instant ∧ Miscounted s a.instant b.instant) := by
  obtain ⟨a⟩ := a
  obtain ⟨b⟩ := b
  dsimp only at *
  constructor
  · rintro ⟨r, xs, hexact⟩ ⟨h, hcount⟩
    obtain ⟨hle, hge, hiff⟩ := count_bounds h
    have hcolon := hexact.colon_eq
    rw [colon_forward hs ha hb h] at hcolon
    obtain rfl := Except.ok.inj hcolon
    apply hexact.last_le
    rw [passed_iff hne]
    exact hle.lt_of_ne fun heq => hiff.mp heq.symm hcount
  · intro hcount
    by_cases h : Forward s a b
    · exact ⟨_, _, exact_of_forward hs ha hb h fun hmis => hcount ⟨h, hmis⟩⟩
    · exact ⟨_, _, exact_of_backward hs ha hne h⟩

-- From January 31 in months to March 31
theorem exact_range_to_month_end : ∃ r xs, ExactRange ⟨dayNumber 2021 1 31⟩ ⟨.Month, 1⟩ ⟨dayNumber 2021 3 31⟩ r xs :=
  (exact_range_iff ⟨dayNumber 2021 1 31⟩ ⟨dayNumber 2021 3 31⟩ ⟨.Month, 1⟩ (by decide) (by decide) (by decide) (by decide)).mpr
    (by decide)

-- The range to March 30 ends with March 31.
theorem range_passes_end : Far (dayNumber 2021 1 31) ∧ Far (dayNumber 2021 3 30) ∧
    ¬∃ r xs, ExactRange ⟨dayNumber 2021 1 31⟩ ⟨.Month, 1⟩ ⟨dayNumber 2021 3 30⟩ r xs := by
  have hcolon : colon ⟨dayNumber 2021 1 31⟩ ⟨.Month, 1⟩ ⟨dayNumber 2021 3 30⟩ =
      .ok ⟨⟨dayNumber 2021 1 31⟩, ⟨.Month, 1⟩, ⟨dayNumber 2021 3 31⟩⟩ := by decide +kernel
  refine ⟨by decide, by decide, ?_⟩
  rintro ⟨r, xs, hexact⟩
  obtain rfl := Except.ok.inj (hcolon.symm.trans hexact.colon_eq)
  exact hexact.last_le (by decide)

end Exact

end Joolia.Dates
