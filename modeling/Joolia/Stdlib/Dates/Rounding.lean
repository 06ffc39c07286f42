import Joolia.Library.Calendar
import Joolia.Stdlib.Dates.Arithmetic

namespace Joolia.Dates

open Fallible Grid

-- The nanoseconds of a day
def DAY : ℤ := 86400000000000

structure Time where
  instant : ℤ
  nonneg : 0 ≤ instant
  lt_day : instant < DAY
deriving DecidableEq

-- `Time(Nanosecond(ns))`
def Time.new (ns : ℤ) : Time :=
  ⟨ns.fmod DAY, Int.fmod_nonneg_of_pos ns (by decide), Int.fmod_lt_of_pos ns (by decide)⟩

section Conversions

def TimeUnit.nanoseconds : TimeUnit → ℤ
  | .Hour => 3600000000000
  | .Minute => 60000000000
  | .Second => 1000000000
  | .Millisecond => 1000000
  | .Microsecond => 1000
  | .Nanosecond => 1

def divexact (x y : ℤ) : Except PeriodError ℤ := if rem x y = 0 then .ok (div x y) else .error .InexactError

-- `div(x, y, RoundNearest)` by a positive constant
def divNearest (x y : ℤ) : ℤ :=
  let (q, r) := (div x y, rem x y)
  let even := if y % 2 = 1 ∨ q % 2 = 0 then 1 else 0
  if x ≥ 0 then if r ≥ y / 2 + even then q + 1 else q
  else if r ≤ -(y / 2) - even then q - 1 else q

-- `value(Nanosecond(p))`
def toNanosecond (p : TimePeriod) : Except PeriodError ℤ :=
  if p.unit = .Nanosecond then .ok p.value else convertFiner p.value p.unit.nanoseconds

-- `value(Millisecond(p))`
def toMillisecond (p : TimePeriod) : Except PeriodError ℤ :=
  match p.unit with
  | .Millisecond => .ok p.value
  | .Microsecond => divexact p.value 1000
  | .Nanosecond => divexact p.value 1000000
  | .Hour | .Minute | .Second => convertFiner p.value (p.unit.nanoseconds / 1000000)

def toms (p : TimePeriod) : ℤ :=
  match p.unit with
  | .Nanosecond => divNearest p.value 1000000
  | .Microsecond => divNearest p.value 1000
  | .Millisecond => p.value
  | .Second => int64 (1000 * p.value)
  | .Minute => int64 (60000 * p.value)
  | .Hour => int64 (3600000 * p.value)

def tons (p : TimePeriod) : ℤ :=
  match p.unit with
  | .Microsecond => int64 (p.value * 1000)
  | .Nanosecond => p.value
  | _ => int64 (toms p * 1000000)

end Conversions

section Epochs

def valueOf (x : Except DatesError Date) : ℤ :=
  match x with
  | .ok dt => dt.instant
  | .error _ => 0

def valueOfDateTime (x : Except DatesError DateTime) : ℤ :=
  match x with
  | .ok dt => dt.instant
  | .error _ => 0

def DATEEPOCH : ℤ := valueOf (Date.new wrapping 0 1 1)

def DATETIMEEPOCH : ℤ := valueOfDateTime (DateTime.new 0 1 1 0 0 0 0)

def WEEKEPOCH : ℤ := valueOf (Date.new wrapping 0 1 3)

theorem DATEEPOCH_eq : DATEEPOCH = -365 := by decide

theorem DATETIMEEPOCH_eq : DATETIMEEPOCH = -31536000000 := by decide

theorem WEEKEPOCH_eq : WEEKEPOCH = -363 := by decide

end Epochs

section Floor

-- `floor(dt, Month(v))`
def Date.floorMonth (dt : Date) (v : ℤ) : Except PeriodError Date :=
  if v < 1 then .error .DomainError
  else do
    let (y, m) ← liftDates (yearmonth wrapping dt.instant)
    let months_since_epoch := int64 (int64 (int64 (y * 12) + m) - 1)
    let month_offset := int64 (months_since_epoch - months_since_epoch.fmod v)
    let target_month := int64 (month_offset.fmod 12 + 1)
    let target_year := int64 (div month_offset 12 - if month_offset < 0 ∧ target_month ≠ 1 then 1 else 0)
    liftDates (Date.new wrapping target_year target_month 1)

def Date.floor (dt : Date) (p : DatePeriod) : Except PeriodError Date :=
  match p.unit with
  | .Year =>
      if p.value < 1 then .error .DomainError
      else do
        let years ← liftDates (year wrapping dt.instant)
        liftDates (Date.new wrapping (int64 (years - years.fmod p.value)) 1 1)
  | .Month => dt.floorMonth p.value
  | .Quarter => do dt.floorMonth (← quarterMonths p.value)
  | .Week =>
      if p.value < 1 then .error .DomainError
      else do
        let days := int64 (dt.instant - WEEKEPOCH)
        let days := int64 (days - days.fmod (← convertFiner p.value 7))
        return ⟨int64 (WEEKEPOCH + days)⟩
  | .Day =>
      if p.value < 1 then .error .DomainError
      else
        let days := int64 (dt.instant - DATEEPOCH)
        .ok ⟨int64 (DATEEPOCH + int64 (days - days.fmod p.value))⟩

-- `floor(dt, p)` of a `DateTime`
def DateTime.floor (dt : DateTime) (p : DatePeriod) : Except PeriodError DateTime := do
  let f ← Date.floor ⟨dt.days⟩ p
  return ⟨int64 (f.instant * 86400000)⟩

def DateTime.floorTime (dt : DateTime) (p : TimePeriod) : Except PeriodError DateTime :=
  if p.value < 1 then .error .DomainError
  else do
    let milliseconds := int64 (dt.instant - DATETIMEEPOCH)
    return ⟨int64 (DATETIMEEPOCH + int64 (milliseconds - milliseconds.fmod (← toMillisecond p)))⟩

def Time.floor (t : Time) (p : TimePeriod) : Except PeriodError Time :=
  if p.value < 1 then .error .DomainError
  else do return Time.new (int64 (t.instant - t.instant.fmod (← toNanosecond p)))

-- `dt + p` of a `DateTime`
def DateTime.add (dt : DateTime) (p : DatePeriod) : Except PeriodError DateTime :=
  match p.unit with
  | .Year => liftDates (dt.addYear p.value)
  | .Quarter => do liftDates (dt.addMonth (← quarterMonths p.value))
  | .Month => liftDates (dt.addMonth p.value)
  | .Week => .ok ⟨int64 (dt.instant + int64 (86400000 * int64 (7 * p.value)))⟩
  | .Day => .ok ⟨int64 (dt.instant + int64 (86400000 * p.value))⟩

def DateTime.addTime (dt : DateTime) (p : TimePeriod) : Except PeriodError DateTime := .ok ⟨int64 (dt.instant + toms p)⟩

def Time.add (t : Time) (p : TimePeriod) : Except PeriodError Time := .ok (Time.new (int64 (t.instant + tons p)))

end Floor

section Generic

variable {T P : Type} [DecidableEq T] (floor add : T → P → Except PeriodError T) (value : T → ℤ)

def ceil (dt : T) (p : P) : Except PeriodError T := do
  let f ← floor dt p
  if dt = f then return f else add f p

def floorceil (dt : T) (p : P) : Except PeriodError (T × T) := do
  let f ← floor dt p
  let c ← (if dt = f then pure f else add f p)
  return (f, c)

-- `round(dt, p, RoundNearestTiesUp)`
def round (dt : T) (p : P) : Except PeriodError T := do
  let (f, c) ← floorceil floor add dt p
  return if int64 (value dt - value f) < int64 (value c - value dt) then f else c

end Generic

section Grids

-- The multiples of a period, counted from the rounding epoch
def DatePeriod.multiple (p : DatePeriod) (k : ℤ) : ℤ :=
  match p.unit with
  | .Year => monthFirst (12 * p.value * k)
  | .Quarter => monthFirst (3 * p.value * k)
  | .Month => monthFirst (p.value * k)
  | .Week => WEEKEPOCH + 7 * p.value * k
  | .Day => DATEEPOCH + p.value * k

-- No period is longer, in days.
def DatePeriod.reach (p : DatePeriod) : ℤ :=
  match p.unit with
  | .Year => 31 * (12 * p.value)
  | .Quarter => 31 * (3 * p.value)
  | .Month => 31 * p.value
  | .Week => 7 * p.value
  | .Day => p.value

variable {v : ℤ}

theorem monthFirst_add_le (M : ℤ) (hv : 0 ≤ v) : monthFirst (M + v) ≤ monthFirst M + 31 * v := by
  induction v, hv using Int.leInduction with
  | base => simp
  | succ v _ ih =>
      have hbounds := monthLength_bounds ((M + v) / 12) ((M + v) % 12 + 1)
      rw [← add_assoc, monthFirst_succ]
      omega

theorem monthMultiple_strictMono (hv : 0 < v) : StrictMono fun k => monthFirst (v * k) := by
  intro j k hjk
  exact monthFirst_strictMono (mul_lt_mul_of_pos_left hjk hv)

theorem dayMultiple_strictMono (e : ℤ) (hv : 0 < v) : StrictMono fun k => e + v * k := by
  intro j k hjk
  exact add_lt_add_right (mul_lt_mul_of_pos_left hjk hv) e

theorem DatePeriod.multiple_strictMono (p : DatePeriod) (hp : 0 < p.value) : StrictMono p.multiple := by
  obtain ⟨unit, v⟩ := p
  have hp : 0 < v := hp
  cases unit with
  | Year => exact monthMultiple_strictMono (by omega)
  | Quarter => exact monthMultiple_strictMono (by omega)
  | Month => exact monthMultiple_strictMono hp
  | Week => exact dayMultiple_strictMono WEEKEPOCH (by omega)
  | Day => exact dayMultiple_strictMono DATEEPOCH hp

theorem DatePeriod.multiple_succ_le (p : DatePeriod) (hp : 0 < p.value) (k : ℤ) : p.multiple (k + 1) ≤ p.multiple k + p.reach := by
  obtain ⟨unit, v⟩ := p
  have hp : 0 < v := hp
  cases unit <;> simp only [multiple, reach, mul_add, mul_one]
  · exact monthFirst_add_le _ (by omega)
  · exact monthFirst_add_le _ (by omega)
  · exact monthFirst_add_le _ (by omega)
  · omega
  · omega

end Grids

section DateFloor

variable {y m d v : ℤ}

theorem monthFirst_bounds (M : ℤ) : minYear ≤ M / 12 ∧ M / 12 ≤ maxYear ↔ minDay ≤ monthFirst M ∧ monthFirst M ≤ maxDay :=
  dayNumber_bounds (calendarDate_first M)

theorem convertFiner_eq {n : ℤ} (hv : 0 < v) (hn : 0 < n) (hfits : v * n ≤ 2 ^ 62) :
    convertFiner v n = .ok (v * n) := by
  have hle : v ≤ div (2 ^ 63 - 1) n := by
    rw [div_eq (by omega), Int.le_ediv_iff_mul_le hn]
    omega
  have hge : div (-2 ^ 63) n ≤ v := by
    rw [div, Int.neg_tdiv, ← div, div_eq (by omega)]
    have hnonneg : 0 ≤ (2 : ℤ) ^ 63 / n := Int.ediv_nonneg (by omega) hn.le
    omega
  have hpos : 0 < v * n := mul_pos hv hn
  rw [convertFiner, if_pos ⟨hge, hle⟩, int64_eq (by omega) (by omega)]

-- The division of the source rounds to zero and is corrected below it.
theorem div_twelve (F : ℤ) : div F 12 - (if F < 0 ∧ F % 12 + 1 ≠ 1 then 1 else 0) = F / 12 := by
  have hsign : Int.sign 12 = 1 := rfl
  rw [div, Int.tdiv_eq_ediv, hsign]
  split <;> split <;> omega

theorem floorMonth_exact (h : CalendarDate y m d) (hlo : minDay ≤ monthFirst (v * (monthIndex y m / v)))
    (hhi : dayNumber y m d ≤ maxDay) (hv : 0 < v) :
    Date.floorMonth ⟨dayNumber y m d⟩ v = .ok ⟨monthFirst (v * (monthIndex y m / v))⟩ := by
  have hfloor : v * (monthIndex y m / v) ≤ monthIndex y m := Int.mul_ediv_self_le hv.ne'
  have hfirst : monthFirst (v * (monthIndex y m / v)) ≤ dayNumber y m d :=
    (monthFirst_strictMono.monotone hfloor).trans h.monthFirst_le
  have hread := (reads_exact exact_wrapping h (hlo.trans hfirst) hhi).yearmonth_eq
  obtain ⟨hmin, hmax⟩ := (dayNumber_bounds h).mpr ⟨hlo.trans hfirst, hhi⟩
  obtain ⟨hmin', hmax'⟩ := (monthFirst_bounds _).mpr ⟨hlo, hfirst.trans hhi⟩
  have hmod : monthIndex y m - (monthIndex y m).fmod v = v * (monthIndex y m / v) := by
    rw [Int.fmod_eq_emod_of_nonneg _ hv.le, Int.emod_def, sub_sub_cancel]
  have hindex : int64 (int64 (int64 (y * 12) + m) - 1) = monthIndex y m := by
    obtain ⟨hm, hm', -, -⟩ := h
    unfold minYear at hmin
    unfold maxYear at hmax
    rw [int64_eq (x := y * 12) (by omega) (by omega), int64_eq (x := y * 12 + m) (by omega) (by omega),
      int64_eq (by omega) (by omega), monthIndex]
    omega
  have hdate := calendarDate_first (v * (monthIndex y m / v))
  rw [Date.floorMonth, if_neg (by omega), hread]
  change (liftDates (Date.new wrapping _ _ 1)) = _
  rw [hindex, hmod]
  generalize v * (monthIndex y m / v) = F at *
  unfold minYear at hmin'
  unfold maxYear at hmax'
  rw [int64_eq (x := F) (by omega) (by omega), Int.fmod_eq_emod_of_nonneg _ (by omega), int64_eq (x := F % 12 + 1) (by omega) (by omega),
    div_twelve, int64_eq (by omega) (by omega), Date.new_exact exact_wrapping hdate hmin' hmax', liftDates, monthFirst]
  rfl

theorem quarterMonths_eq (hv : 0 < v) (hmax : v ≤ 2 ^ 60) : quarterMonths v = .ok (3 * v) := by
  rw [quarterMonths, convertFiner_eq hv (by decide) (by omega), mul_comm]

theorem floorYear_exact (h : CalendarDate y m d) (hlo : minDay ≤ monthFirst (12 * v * (y / v))) (hhi : dayNumber y m d ≤ maxDay)
    (hv : 0 < v) : Date.floor ⟨dayNumber y m d⟩ ⟨.Year, v⟩ = .ok ⟨monthFirst (12 * v * (y / v))⟩ := by
  have hfloor : v * (y / v) ≤ y := Int.mul_ediv_self_le hv.ne'
  have hassoc : 12 * v * (y / v) = 12 * (v * (y / v)) := mul_assoc 12 v _
  have hpos := h.month_pos
  have hfirst : monthFirst (12 * v * (y / v)) ≤ dayNumber y m d := by
    refine (monthFirst_strictMono.monotone ?_).trans h.monthFirst_le
    unfold monthIndex
    omega
  have hread := (reads_exact exact_wrapping h (hlo.trans hfirst) hhi).year_eq
  obtain ⟨hmin, hmax⟩ := (monthFirst_bounds _).mpr ⟨hlo, hfirst.trans hhi⟩
  have hmod : y - y.fmod v = v * (y / v) := by
    rw [Int.fmod_eq_emod_of_nonneg _ hv.le, Int.emod_def, sub_sub_cancel]
  have hdate := calendarDate_first (12 * v * (y / v))
  have hparts : 12 * v * (y / v) / 12 = v * (y / v) ∧ 12 * v * (y / v) % 12 + 1 = 1 := by omega
  rw [hparts.1, hparts.2] at hdate
  rw [hparts.1] at hmin hmax
  rw [Date.floor]
  dsimp only
  rw [if_neg (by omega), hread]
  change liftDates (Date.new wrapping _ 1 1) = _
  rw [hmod, monthFirst, hparts.1, hparts.2]
  generalize v * (y / v) = F at *
  rw [int64_eq (by unfold minYear at hmin; omega) (by unfold maxYear at hmax; omega),
    Date.new_exact exact_wrapping hdate hmin hmax]
  rfl

-- Multiples of a number of days from an epoch near the beginning
theorem floorDays_exact {x e : ℤ} (he : -365 ≤ e ∧ e ≤ -363) (hlo : minDay ≤ e + v * ((x - e) / v)) (hhi : x ≤ maxDay) (hv : 0 < v) :
    int64 (e + int64 (int64 (x - e) - (int64 (x - e)).fmod v)) = e + v * ((x - e) / v) := by
  have hfloor : v * ((x - e) / v) ≤ x - e := Int.mul_ediv_self_le hv.ne'
  unfold minDay at hlo
  unfold maxDay at hhi
  rw [int64_eq (x := x - e) (by omega) (by omega), Int.fmod_eq_emod_of_nonneg _ hv.le, Int.emod_def, sub_sub_cancel,
    int64_eq (x := v * ((x - e) / v)) (by omega) (by omega), int64_eq (by omega) (by omega)]

theorem between_ediv {x : ℤ} (hv : 0 < v) : v * (x / v) ≤ x ∧ x < v * (x / v + 1) := by
  have hfloor : v * (x / v) ≤ x := Int.mul_ediv_self_le hv.ne'
  have hceil := Int.lt_mul_ediv_self_add (x := x) hv
  rw [mul_add, mul_one]
  exact ⟨hfloor, hceil⟩

theorem between_days (e x : ℤ) (hv : 0 < v) : e + v * ((x - e) / v) ≤ x ∧ x < e + v * ((x - e) / v + 1) := by
  obtain ⟨hlo, hhi⟩ := between_ediv (x := x - e) hv
  omega

theorem between_months (h : CalendarDate y m d) (hv : 0 < v) : monthFirst (v * (monthIndex y m / v)) ≤ dayNumber y m d ∧
    dayNumber y m d < monthFirst (v * (monthIndex y m / v + 1)) := by
  obtain ⟨hlo, hhi⟩ := between_ediv (x := monthIndex y m) hv
  exact ⟨(monthFirst_strictMono.monotone hlo).trans h.monthFirst_le, h.lt_monthFirst.trans_le (monthFirst_strictMono.monotone hhi)⟩

-- The multiple below a date
def DatePeriod.quotient (p : DatePeriod) (y m x : ℤ) : ℤ :=
  match p.unit with
  | .Year => y / p.value
  | .Quarter => monthIndex y m / (3 * p.value)
  | .Month => monthIndex y m / p.value
  | .Week => (x - WEEKEPOCH) / (7 * p.value)
  | .Day => (x - DATEEPOCH) / p.value

theorem DatePeriod.between (p : DatePeriod) (hp : 0 < p.value) (h : CalendarDate y m d) :
    p.multiple (p.quotient y m (dayNumber y m d)) ≤ dayNumber y m d ∧
      dayNumber y m d < p.multiple (p.quotient y m (dayNumber y m d) + 1) := by
  obtain ⟨unit, v⟩ := p
  have hp : 0 < v := hp
  cases unit
  · have hyear : y / v = monthIndex y m / (12 * v) := by
      have hpos := h.month_pos
      have hle := h.month_le
      rw [← Int.ediv_ediv_of_nonneg (by omega), (monthIndex_div hpos hle).1]
    change monthFirst (12 * v * (y / v)) ≤ _ ∧ _ < monthFirst (12 * v * (y / v + 1))
    rw [hyear]
    exact between_months h (by omega)
  · exact between_months h (by omega)
  · exact between_months h hp
  · exact between_days WEEKEPOCH _ (by omega)
  · exact between_days DATEEPOCH _ hp

theorem Date.floor_exact (p : DatePeriod) (hp : 0 < p.value) (h : CalendarDate y m d) (hlo : minDay + p.reach ≤ dayNumber y m d)
    (hhi : dayNumber y m d ≤ maxDay) : Date.floor ⟨dayNumber y m d⟩ p = .ok ⟨p.multiple (p.quotient y m (dayNumber y m d))⟩ := by
  obtain ⟨hbelow, habove⟩ := p.between hp h
  have hreach := p.multiple_succ_le hp (p.quotient y m (dayNumber y m d))
  have hmin : minDay ≤ p.multiple (p.quotient y m (dayNumber y m d)) := by omega
  obtain ⟨unit, v⟩ := p
  have hp : 0 < v := hp
  cases unit
  · exact floorYear_exact h hmin hhi hp
  · have hlimit : v ≤ 2 ^ 60 := by
      unfold minDay at hlo
      unfold maxDay at hhi
      unfold DatePeriod.reach at hlo
      dsimp only at hlo
      omega
    change (do Date.floorMonth ⟨dayNumber y m d⟩ (← quarterMonths v)) = _
    rw [quarterMonths_eq hp hlimit]
    exact floorMonth_exact h hmin hhi (by omega)
  · exact floorMonth_exact h hmin hhi hp
  · have hlimit : v * 7 ≤ 2 ^ 62 := by
      unfold minDay at hlo
      unfold maxDay at hhi
      unfold DatePeriod.reach at hlo
      dsimp only at hlo
      omega
    rw [Date.floor]
    dsimp only
    rw [if_neg (by omega), convertFiner_eq hp (by decide) hlimit, mul_comm v 7]
    exact congrArg (fun x => Except.ok (Date.mk x)) (floorDays_exact (by decide) hmin hhi (by omega))
  · rw [Date.floor]
    dsimp only
    rw [if_neg (by omega)]
    exact congrArg (fun x => Except.ok (Date.mk x)) (floorDays_exact (by decide) hmin hhi hp)

theorem monthIndex_parts (M : ℤ) : monthIndex (M / 12) (M % 12 + 1) = M := by
  unfold monthIndex
  omega

theorem addMonth_first {M : ℤ} (hlo : minDay ≤ monthFirst M) (hmid : monthFirst M ≤ maxDay) (hmid' : minDay ≤ monthFirst (M + v))
    (hhi : monthFirst (M + v) ≤ maxDay) : addMonth ⟨monthFirst M⟩ v = .ok ⟨monthFirst (M + v)⟩ := by
  obtain ⟨hmin, hmax⟩ := (monthFirst_bounds M).mpr ⟨hlo, hmid⟩
  obtain ⟨hmin', hmax'⟩ := (monthFirst_bounds (M + v)).mpr ⟨hmid', hhi⟩
  have hadd := addMonth_exact (v := v) (calendarDate_first M) hmin hmax
  rw [monthIndex_parts, inMonth_one] at hadd
  exact hadd hmin' hmax'

theorem addYear_first {M : ℤ} (hlo : minDay ≤ monthFirst M) (hmid : monthFirst M ≤ maxDay)
    (hmid' : minDay ≤ monthFirst (M + 12 * v)) (hhi : monthFirst (M + 12 * v) ≤ maxDay) :
    addYear ⟨monthFirst M⟩ v = .ok ⟨monthFirst (M + 12 * v)⟩ := by
  obtain ⟨hmin, hmax⟩ := (monthFirst_bounds M).mpr ⟨hlo, hmid⟩
  obtain ⟨hmin', hmax'⟩ := (monthFirst_bounds (M + 12 * v)).mpr ⟨hmid', hhi⟩
  have hadd := addYear_exact (v := v) (calendarDate_first M) hmin hmax
  rw [monthIndex_parts, inMonth_one, show (M + 12 * v) / 12 = M / 12 + v by omega] at *
  exact hadd hmin' hmax'

-- Between dates there are not too many months.
theorem months_limit {M n : ℤ} (hlo : minDay ≤ monthFirst M) (hhi : monthFirst (M + n) ≤ maxDay) (hn : 0 ≤ n) : n ≤ 2 ^ 54 := by
  have hmono : monthFirst M ≤ monthFirst (M + n) := monthFirst_strictMono.monotone (by omega)
  obtain ⟨hmin, -⟩ := (monthFirst_bounds M).mpr ⟨hlo, hmono.trans hhi⟩
  obtain ⟨-, hmax⟩ := (monthFirst_bounds (M + n)).mpr ⟨hlo.trans hmono, hhi⟩
  unfold minYear at hmin
  unfold maxYear at hmax
  omega

theorem Date.add_multiple (p : DatePeriod) (hp : 0 < p.value) {k : ℤ} (hlo : minDay ≤ p.multiple k)
    (hhi : p.multiple (k + 1) ≤ maxDay) : Date.add ⟨p.multiple k⟩ p = .ok ⟨p.multiple (k + 1)⟩ := by
  have hlt : p.multiple k < p.multiple (k + 1) := p.multiple_strictMono hp (Int.lt_succ k)
  obtain ⟨unit, v⟩ := p
  have hp : 0 < v := hp
  cases unit <;> simp only [DatePeriod.multiple, mul_add, mul_one] at hlo hhi hlt ⊢ <;> rw [Date.add] <;> dsimp only
  · rw [mul_right_comm 12 v k] at *
    rw [addYear_first hlo (by omega) (by omega) hhi]
    rfl
  · have hlimit := months_limit hlo hhi (by omega)
    have hquarter := quarterMonths_eq hp (show v ≤ 2 ^ 60 by omega)
    rw [hquarter, ok_bind, addMonth_first hlo (by omega) (by omega) hhi]
    rfl
  · rw [addMonth_first hlo (by omega) (by omega) hhi]
    rfl
  · unfold minDay at hlo
    unfold maxDay at hhi
    rw [int64_eq (x := 7 * v) (by omega) (by omega), int64_eq (by omega) (by omega), add_assoc]
  · unfold minDay at hlo
    unfold maxDay at hhi
    rw [int64_eq (by omega) (by omega), add_assoc]

end DateFloor

section Rounds

variable {T P : Type} [DecidableEq T] {floor add : T → P → Except PeriodError T} {value : T → ℤ} {S : Set ℤ}

-- What the functions that go through `floor` return, when the steps do not overflow.
def Rounds (floor add : T → P → Except PeriodError T) (value : T → ℤ) (S : Set ℤ) (dt : T) (p : P) : Prop :=
  ∃ f c r, floor dt p = .ok f ∧ ceil floor add dt p = .ok c ∧ round floor add value dt p = .ok r ∧
    Rounded S (value dt) (value f) (value c) (value r)

theorem Rounds.of_multiple {g : ℤ → ℤ} (hg : StrictMono g) (hinj : Function.Injective value) {dt f n : T} {p : P} {k : ℤ}
    (hfloor : floor dt p = .ok f) (hadd : add f p = .ok n) (hf : value f = g k) (hn : value n = g (k + 1))
    (hlo : g k ≤ value dt) (hhi : value dt < g (k + 1)) (hfits : g (k + 1) - g k < 2 ^ 63) :
    Rounds floor add value (Set.range g) dt p := by
  have hrounded := rounded_between hg hlo hhi
  have hsame : dt = f ↔ value dt = g k := by
    rw [← hf]
    exact hinj.eq_iff.symm
  by_cases heq : dt = f
  · rw [if_pos (hsame.mp heq)] at hrounded
    refine ⟨f, f, f, hfloor, ?_, ?_, ?_⟩
    · rw [ceil, hfloor, ok_bind, if_pos heq]
      rfl
    · rw [round, floorceil, hfloor, ok_bind, if_pos heq]
      simp only [pure_eq_ok, ok_bind]
      split_ifs <;> rfl
    · rw [hf]
      refine ⟨hrounded.floor, hrounded.ceil, ?_⟩
      rw [nearest, ite_self]
  · rw [if_neg fun h => heq (hsame.mpr h)] at hrounded
    refine ⟨f, n, if value dt - value f < value n - value dt then f else n, hfloor, ?_, ?_, ?_⟩
    · rw [ceil, hfloor, ok_bind, if_neg heq]
      exact hadd
    · rw [round, floorceil, hfloor, ok_bind, if_neg heq, hadd]
      simp only [pure_eq_ok, ok_bind]
      rw [int64_eq (by omega) (by omega), int64_eq (by omega) (by omega)]
    · rw [apply_ite value, hf, hn]
      exact hrounded

end Rounds

theorem Date.instant_injective : Function.Injective Date.instant := by
  intro a b h
  cases a
  cases b
  exact congrArg Date.mk h

-- Far from the type limits every date is rounded to its neighbours.
theorem Date.rounds (dt : Date) (p : DatePeriod) (hp : 0 < p.value) (hlo : minDay + p.reach ≤ dt.instant)
    (hhi : dt.instant + p.reach ≤ maxDay) : Rounds Date.floor Date.add Date.instant (Set.range p.multiple) dt p := by
  obtain ⟨y, m, d, h, hdays⟩ := exists_date dt.instant
  obtain ⟨x⟩ := dt
  dsimp only at hdays hlo hhi
  subst hdays
  obtain ⟨hbelow, habove⟩ := p.between hp h
  have hstep := p.multiple_succ_le hp (p.quotient y m (dayNumber y m d))
  refine Rounds.of_multiple (p.multiple_strictMono hp) Date.instant_injective (Date.floor_exact p hp h hlo (by omega))
    (Date.add_multiple p hp (by omega) (by omega)) rfl rfl hbelow habove ?_
  unfold minDay at hlo
  unfold maxDay at hhi
  omega

section DateTimes

variable {y m d v D : ℤ}

def minInstant : ℤ := -4611686008435200000

def maxInstant : ℤ := 4611686008607999000

theorem typeminDateTime_eq : typeminDateTime = .ok ⟨minInstant⟩ := by decide

theorem typemaxDateTime_eq : typemaxDateTime = .ok ⟨maxInstant⟩ := by decide

theorem DateTime.midnight (D : ℤ) : DateTime.days ⟨D * 86400000⟩ = D ∧ DateTime.hour ⟨D * 86400000⟩ = 0 ∧
    DateTime.minute ⟨D * 86400000⟩ = 0 ∧ DateTime.second ⟨D * 86400000⟩ = 0 ∧ DateTime.millisecond ⟨D * 86400000⟩ = 0 := by
  simp only [days, hour, minute, second, millisecond, fld_eq _ (show (0 : ℤ) ≤ 86400000 by decide),
    fld_eq _ (show (0 : ℤ) ≤ 3600000 by decide), fld_eq _ (show (0 : ℤ) ≤ 60000 by decide), fld_eq _ (show (0 : ℤ) ≤ 1000 by decide),
    Int.fmod_eq_emod_of_nonneg _ (show (0 : ℤ) ≤ 24 by decide), Int.fmod_eq_emod_of_nonneg _ (show (0 : ℤ) ≤ 60 by decide),
    Int.fmod_eq_emod_of_nonneg _ (show (0 : ℤ) ≤ 1000 by decide)]
  omega

theorem DateTime.new_midnight (h : CalendarDate y m d) (hlo : minInstant ≤ dayNumber y m d * 86400000)
    (hhi : dayNumber y m d * 86400000 ≤ maxInstant) : DateTime.new y m d 0 0 0 0 = .ok ⟨dayNumber y m d * 86400000⟩ := by
  unfold minInstant at hlo
  unfold maxInstant at hhi
  have hlimits : minDay ≤ dayNumber y m d ∧ dayNumber y m d ≤ maxDay := by
    unfold minDay maxDay
    omega
  obtain ⟨hmin, hmax⟩ := (dayNumber_bounds h).mpr hlimits
  have hmonth := monthLength_bounds y m
  have hargs : validargsDateTime y m d 0 0 0 0 = .ok none := by
    obtain ⟨hpos, hle, hday, hlength⟩ := h
    rw [validargsDateTime, if_neg (by omega), daysinmonth_exact exact_wrapping y hpos hle]
    simp only [pure_eq_ok, ok_bind]
    rw [int64_eq (by omega) (by omega), if_neg (by omega)]
    rfl
  rw [DateTime.new, hargs, ok_bind]
  dsimp only
  rw [totaldays_exact exact_wrapping h hmin hmax, ok_bind, pure_eq_ok]
  rw [int64_eq (x := 60 * 0) (by decide) (by decide), int64_eq (x := 3600 * 0) (by decide) (by decide),
    int64_eq (x := 0 + 60 * 0) (by decide) (by decide), int64_eq (x := 0 + 60 * 0 + 3600 * 0) (by decide) (by decide),
    int64_eq (x := 86400 * dayNumber y m d) (by omega) (by omega),
    int64_eq (x := 0 + 60 * 0 + 3600 * 0 + 86400 * dayNumber y m d) (by omega) (by omega),
    int64_eq (x := 1000 * (0 + 60 * 0 + 3600 * 0 + 86400 * dayNumber y m d)) (by omega) (by omega), int64_eq (by omega) (by omega)]
  congr 2
  omega

-- The limits of a `DateTime` lie inside those of a `Date`.
theorem day_limits (hlo : minInstant ≤ D * 86400000) (hhi : D * 86400000 ≤ maxInstant) : minDay ≤ D ∧ D ≤ maxDay := by
  unfold minInstant at hlo
  unfold maxInstant at hhi
  unfold minDay maxDay
  omega

-- The same months in milliseconds
theorem DateTime.addMonth_first {M : ℤ} (hlo : minInstant ≤ monthFirst M * 86400000) (hmid : monthFirst M * 86400000 ≤ maxInstant)
    (hmid' : minInstant ≤ monthFirst (M + v) * 86400000) (hhi : monthFirst (M + v) * 86400000 ≤ maxInstant) :
    DateTime.addMonth ⟨monthFirst M * 86400000⟩ v = .ok ⟨monthFirst (M + v) * 86400000⟩ := by
  have hday := day_limits hlo hmid
  obtain ⟨hmin, hmax⟩ := (monthFirst_bounds M).mpr hday
  obtain ⟨hmin', hmax'⟩ := (monthFirst_bounds (M + v)).mpr (day_limits hmid' hhi)
  obtain ⟨hdays, hhour, hminute, hsecond, hms⟩ := DateTime.midnight (monthFirst M)
  have hread := (reads_exact exact_wrapping (calendarDate_first M) hday.1 hday.2).yearmonthday_eq
  have hbounds := monthLength_bounds ((M + v) / 12) ((M + v) % 12 + 1)
  have hwraps := wraps_eq (y := M / 12) (m := M % 12 + 1) (v := v) (by omega) (by omega) hmin hmax
  rw [monthIndex_parts] at hwraps
  obtain ⟨hyear, hmonth⟩ := hwraps hmin' hmax'
  rw [DateTime.addMonth, hdays, hhour, hminute, hsecond, hms, monthFirst, hread, ok_bind]
  dsimp only
  rw [hyear, hmonth, daysinmonth_exact exact_wrapping _ (by omega) (by omega), ok_bind, if_pos (by omega),
    DateTime.new_midnight (calendarDate_first (M + v)) hmid' hhi]
  rfl

theorem DateTime.addYear_first {M : ℤ} (hlo : minInstant ≤ monthFirst M * 86400000) (hmid : monthFirst M * 86400000 ≤ maxInstant)
    (hmid' : minInstant ≤ monthFirst (M + 12 * v) * 86400000) (hhi : monthFirst (M + 12 * v) * 86400000 ≤ maxInstant) :
    DateTime.addYear ⟨monthFirst M * 86400000⟩ v = .ok ⟨monthFirst (M + 12 * v) * 86400000⟩ := by
  have hday := day_limits hlo hmid
  obtain ⟨hmin, hmax⟩ := (monthFirst_bounds (M + 12 * v)).mpr (day_limits hmid' hhi)
  obtain ⟨hdays, hhour, hminute, hsecond, hms⟩ := DateTime.midnight (monthFirst M)
  have hread := (reads_exact exact_wrapping (calendarDate_first M) hday.1 hday.2).yearmonthday_eq
  have hparts : (M + 12 * v) / 12 = M / 12 + v ∧ (M + 12 * v) % 12 + 1 = M % 12 + 1 := by omega
  have hbounds := monthLength_bounds (M / 12 + v) (M % 12 + 1)
  have hdate := calendarDate_first (M + 12 * v)
  unfold monthFirst at hmid' hhi
  rw [hparts.1, hparts.2] at hdate hmid' hhi
  rw [hparts.1] at hmin hmax
  unfold minYear at hmin
  unfold maxYear at hmax
  rw [DateTime.addYear, hdays, hhour, hminute, hsecond, hms, monthFirst, hread, ok_bind]
  dsimp only
  rw [int64_eq (x := M / 12 + v) (by omega) (by omega), daysinmonth_exact exact_wrapping _ (by omega) (by omega), ok_bind,
    if_pos (by omega), DateTime.new_midnight hdate hmid' hhi, monthFirst, hparts.1, hparts.2]

theorem DateTime.add_multiple (p : DatePeriod) (hp : 0 < p.value) {k : ℤ} (hlo : minInstant ≤ p.multiple k * 86400000)
    (hhi : p.multiple (k + 1) * 86400000 ≤ maxInstant) :
    DateTime.add ⟨p.multiple k * 86400000⟩ p = .ok ⟨p.multiple (k + 1) * 86400000⟩ := by
  have hlt : p.multiple k < p.multiple (k + 1) := p.multiple_strictMono hp (Int.lt_succ k)
  have hlimits := day_limits hlo (by omega)
  have hlimits' := day_limits (D := p.multiple (k + 1)) (by omega) hhi
  obtain ⟨unit, v⟩ := p
  have hp : 0 < v := hp
  cases unit <;> simp only [DatePeriod.multiple, mul_add, mul_one] at hlo hhi hlt hlimits hlimits' ⊢ <;> rw [DateTime.add] <;>
    dsimp only
  · rw [mul_right_comm 12 v k] at *
    rw [DateTime.addYear_first hlo (by omega) (by omega) hhi]
    rfl
  · have hlimit := months_limit hlimits.1 hlimits'.2 (by omega)
    have hquarter := quarterMonths_eq hp (show v ≤ 2 ^ 60 by omega)
    rw [hquarter, ok_bind, DateTime.addMonth_first hlo (by omega) (by omega) hhi]
    rfl
  · rw [DateTime.addMonth_first hlo (by omega) (by omega) hhi]
    rfl
  · unfold minInstant at hlo
    unfold maxInstant at hhi
    rw [int64_eq (x := 7 * v) (by omega) (by omega), int64_eq (x := 86400000 * (7 * v)) (by omega) (by omega),
      int64_eq (by omega) (by omega)]
    congr 2
    omega
  · unfold minInstant at hlo
    unfold maxInstant at hhi
    rw [int64_eq (x := 86400000 * v) (by omega) (by omega), int64_eq (by omega) (by omega)]
    congr 2
    omega

theorem DateTime.instant_injective : Function.Injective DateTime.instant := by
  intro a b h
  cases a
  cases b
  exact congrArg DateTime.mk h

theorem DateTime.rounds (dt : DateTime) (p : DatePeriod) (hp : 0 < p.value) (hlo : minInstant + p.reach * 86400000 ≤ dt.instant)
    (hhi : dt.instant + p.reach * 86400000 ≤ maxInstant) :
    Rounds DateTime.floor DateTime.add DateTime.instant (Set.range fun k => p.multiple k * 86400000) dt p := by
  obtain ⟨x⟩ := dt
  obtain ⟨y, m, d, h, hdays⟩ := exists_date (x / 86400000)
  dsimp only at hlo hhi
  obtain ⟨hbelow, habove⟩ := p.between hp h
  have hstep := p.multiple_succ_le hp (p.quotient y m (dayNumber y m d))
  have hlt : p.multiple (p.quotient y m (dayNumber y m d)) < p.multiple (p.quotient y m (dayNumber y m d) + 1) :=
    p.multiple_strictMono hp (Int.lt_succ _)
  have hlow : minInstant ≤ (dayNumber y m d - p.reach) * 86400000 := by
    unfold minInstant at *
    omega
  have hfloor : DateTime.floor ⟨x⟩ p = .ok ⟨p.multiple (p.quotient y m (dayNumber y m d)) * 86400000⟩ := by
    have hmin := (day_limits hlow (by omega)).1
    have hmax := (day_limits (D := dayNumber y m d) (by omega) (by omega)).2
    have hdate := Date.floor_exact p hp h (by omega) hmax
    rw [DateTime.floor, DateTime.days, fld_eq _ (by decide), ← hdays, hdate, ok_bind, pure_eq_ok]
    dsimp only
    unfold minInstant at hlow
    unfold maxInstant at hhi
    rw [int64_eq (by omega) (by omega)]
  refine Rounds.of_multiple (fun j k hjk => mul_lt_mul_of_pos_right (p.multiple_strictMono hp hjk) (by decide))
    DateTime.instant_injective hfloor (DateTime.add_multiple p hp (by omega) (by omega)) rfl rfl ?_ ?_ ?_
  · change _ ≤ x
    omega
  · change x < _
    omega
  · unfold minInstant at hlow
    unfold maxInstant at hhi
    omega

-- The multiples of a time period in milliseconds, counted from the rounding epoch
def TimePeriod.multiple (p : TimePeriod) (k : ℤ) : ℤ := DATETIMEEPOCH + p.value * (p.unit.nanoseconds / 1000000) * k

def TimeUnit.atLeastMillisecond (u : TimeUnit) : Prop := u ≠ .Microsecond ∧ u ≠ .Nanosecond

theorem toMillisecond_eq (p : TimePeriod) (hu : p.unit.atLeastMillisecond) (hp : 0 < p.value)
    (hfits : p.value * (p.unit.nanoseconds / 1000000) ≤ 2 ^ 62) :
    toMillisecond p = .ok (p.value * (p.unit.nanoseconds / 1000000)) ∧ toms p = p.value * (p.unit.nanoseconds / 1000000) := by
  obtain ⟨unit, v⟩ := p
  have hp : 0 < v := hp
  obtain ⟨hmicro, hnano⟩ := hu
  cases unit with
  | Hour =>
      have hfits : v * 3600000 ≤ 2 ^ 62 := hfits
      refine ⟨convertFiner_eq (n := 3600000) hp (by decide) hfits, ?_⟩
      change int64 (3600000 * v) = v * 3600000
      rw [mul_comm, int64_eq (by omega) (by omega)]
  | Minute =>
      have hfits : v * 60000 ≤ 2 ^ 62 := hfits
      refine ⟨convertFiner_eq (n := 60000) hp (by decide) hfits, ?_⟩
      change int64 (60000 * v) = v * 60000
      rw [mul_comm, int64_eq (by omega) (by omega)]
  | Second =>
      have hfits : v * 1000 ≤ 2 ^ 62 := hfits
      refine ⟨convertFiner_eq (n := 1000) hp (by decide) hfits, ?_⟩
      change int64 (1000 * v) = v * 1000
      rw [mul_comm, int64_eq (by omega) (by omega)]
  | Millisecond => exact ⟨congrArg Except.ok (mul_one v).symm, (mul_one v).symm⟩
  | Microsecond => exact absurd rfl hmicro
  | Nanosecond => exact absurd rfl hnano

theorem DateTime.rounds_time (dt : DateTime) (p : TimePeriod) (hu : p.unit.atLeastMillisecond) (hp : 0 < p.value)
    (hlo : minInstant + p.value * (p.unit.nanoseconds / 1000000) ≤ dt.instant)
    (hhi : dt.instant + p.value * (p.unit.nanoseconds / 1000000) ≤ maxInstant) :
    Rounds DateTime.floorTime DateTime.addTime DateTime.instant (Set.range p.multiple) dt p := by
  have hunit : 0 < p.unit.nanoseconds / 1000000 := by
    obtain ⟨hmicro, hnano⟩ := hu
    cases hunit : p.unit <;> simp_all [TimeUnit.nanoseconds]
  have hpos : 0 < p.value * (p.unit.nanoseconds / 1000000) := mul_pos hp hunit
  unfold minInstant at hlo
  unfold maxInstant at hhi
  obtain ⟨hconvert, htoms⟩ := toMillisecond_eq p hu hp (by omega)
  obtain ⟨hbelow, habove⟩ := between_days DATETIMEEPOCH dt.instant hpos
  have hepoch := DATETIMEEPOCH_eq
  have hfloor : DateTime.floorTime dt p =
      .ok ⟨p.multiple ((dt.instant - DATETIMEEPOCH) / (p.value * (p.unit.nanoseconds / 1000000)))⟩ := by
    have hmod := Int.mul_ediv_self_le (x := dt.instant - DATETIMEEPOCH) hpos.ne'
    rw [DateTime.floorTime, if_neg (by omega), hconvert, ok_bind, pure_eq_ok, int64_eq (x := dt.instant - DATETIMEEPOCH) (by omega) (by omega),
      Int.fmod_eq_emod_of_nonneg _ hpos.le, Int.emod_def, sub_sub_cancel]
    rw [mul_add, mul_one] at habove
    rw [TimePeriod.multiple]
    generalize p.value * (p.unit.nanoseconds / 1000000) * _ = F at *
    rw [int64_eq (x := F) (by omega) (by omega), int64_eq (by omega) (by omega)]
  refine Rounds.of_multiple (dayMultiple_strictMono DATETIMEEPOCH hpos) DateTime.instant_injective hfloor rfl rfl ?_ hbelow habove ?_
  · rw [mul_add, mul_one] at habove ⊢
    dsimp only [TimePeriod.multiple]
    generalize p.value * (p.unit.nanoseconds / 1000000) * _ = F at *
    rw [htoms, int64_eq (by omega) (by omega), add_assoc]
  · rw [mul_add, mul_one]
    omega

end DateTimes

section Times

def TimePeriod.length (p : TimePeriod) : ℤ := p.value * p.unit.nanoseconds

-- The neighbours and the nearer one, where midnight of the next day reads 00:00
def TimeRounds (t : Time) (p : TimePeriod) : Prop :=
  ∃ f c r, Time.floor t p = .ok f ∧ ceil Time.floor Time.add t p = .ok c ∧ round Time.floor Time.add Time.instant t p = .ok r ∧
    ∃ c' r', Rounded (Set.range fun k => p.length * k) t.instant f.instant c' r' ∧ c.instant = c' % DAY ∧ r.instant = r' % DAY

-- The time is not past the last multiple of the day and nearer to it than to midnight.
def Time.Unaffected (t : Time) (p : TimePeriod) : Prop :=
  ¬(p.length < DAY ∧ DAY - p.length < t.instant ∧ t.instant - (DAY - p.length) < DAY - t.instant)

theorem toNanosecond_eq (p : TimePeriod) (hp : 0 < p.value) (hle : p.length ≤ DAY) :
    toNanosecond p = .ok p.length ∧ tons p = p.length := by
  obtain ⟨unit, v⟩ := p
  have hp : 0 < v := hp
  unfold TimePeriod.length DAY at hle
  cases unit with
  | Hour =>
      have hle : v * 3600000000000 ≤ 86400000000000 := hle
      refine ⟨convertFiner_eq (n := 3600000000000) hp (by decide) (show v * 3600000000000 ≤ 2 ^ 62 by omega), ?_⟩
      change int64 (int64 (3600000 * v) * 1000000) = v * 3600000000000
      rw [int64_eq (x := 3600000 * v) (by omega) (by omega), int64_eq (by omega) (by omega)]
      omega
  | Minute =>
      have hle : v * 60000000000 ≤ 86400000000000 := hle
      refine ⟨convertFiner_eq (n := 60000000000) hp (by decide) (show v * 60000000000 ≤ 2 ^ 62 by omega), ?_⟩
      change int64 (int64 (60000 * v) * 1000000) = v * 60000000000
      rw [int64_eq (x := 60000 * v) (by omega) (by omega), int64_eq (by omega) (by omega)]
      omega
  | Second =>
      have hle : v * 1000000000 ≤ 86400000000000 := hle
      refine ⟨convertFiner_eq (n := 1000000000) hp (by decide) (show v * 1000000000 ≤ 2 ^ 62 by omega), ?_⟩
      change int64 (int64 (1000 * v) * 1000000) = v * 1000000000
      rw [int64_eq (x := 1000 * v) (by omega) (by omega), int64_eq (by omega) (by omega)]
      omega
  | Millisecond =>
      have hle : v * 1000000 ≤ 86400000000000 := hle
      refine ⟨convertFiner_eq (n := 1000000) hp (by decide) (show v * 1000000 ≤ 2 ^ 62 by omega), ?_⟩
      change int64 (v * 1000000) = v * 1000000
      exact int64_eq (by omega) (by omega)
  | Microsecond =>
      have hle : v * 1000 ≤ 86400000000000 := hle
      refine ⟨convertFiner_eq (n := 1000) hp (by decide) (show v * 1000 ≤ 2 ^ 62 by omega), ?_⟩
      change int64 (v * 1000) = v * 1000
      exact int64_eq (by omega) (by omega)
  | Nanosecond => exact ⟨congrArg Except.ok (mul_one v).symm, (mul_one v).symm⟩

theorem Time.new_of_lt {ns : ℤ} (hlo : 0 ≤ ns) (hhi : ns < DAY) : (Time.new ns).instant = ns := by
  change ns.fmod DAY = ns
  rw [Int.fmod_eq_emod_of_nonneg _ (by decide)]
  exact Int.emod_eq_of_lt hlo hhi

theorem Time.instant_injective : Function.Injective Time.instant := by
  intro a b h
  cases a
  cases b
  cases h
  rfl

theorem timeRounds_iff (t : Time) (p : TimePeriod) (hp : 0 < p.value) (hdvd : p.length ∣ DAY) : TimeRounds t p ↔ t.Unaffected p := by
  have hpos : 0 < p.length := mul_pos hp (by cases p.unit <;> decide)
  have hle : p.length ≤ DAY := Int.le_of_dvd (by decide) hdvd
  obtain ⟨hconvert, htons⟩ := toNanosecond_eq p hp hle
  obtain ⟨hbelow, habove⟩ := between_ediv (x := t.instant) hpos
  have hlo := t.nonneg
  have hhi := t.lt_day
  have hstrict : StrictMono fun k => p.length * k := fun j k hjk => mul_lt_mul_of_pos_left hjk hpos
  have hq : 0 ≤ p.length * (t.instant / p.length) := mul_nonneg hpos.le (Int.ediv_nonneg hlo hpos.le)
  have hday : DAY < 2 ^ 62 := by decide
  have hf : (Time.new (p.length * (t.instant / p.length))).instant = p.length * (t.instant / p.length) :=
    Time.new_of_lt hq (by omega)
  have hfloor : Time.floor t p = .ok (Time.new (p.length * (t.instant / p.length))) := by
    rw [Time.floor, if_neg (by omega), hconvert, ok_bind, pure_eq_ok, Int.fmod_eq_emod_of_nonneg _ hpos.le, Int.emod_def,
      sub_sub_cancel, int64_eq (by omega) (by omega)]
  have hadd : Time.add (Time.new (p.length * (t.instant / p.length))) p = .ok (Time.new (p.length * (t.instant / p.length + 1))) := by
    rw [Time.add, hf, htons, mul_add, mul_one, int64_eq (by omega) (by omega)]
  -- The day ends with a multiple.
  have hend : p.length * (t.instant / p.length + 1) ≤ DAY - p.length ∨ p.length * (t.instant / p.length + 1) = DAY := by
    obtain ⟨n, hn⟩ := hdvd
    have hlt : t.instant / p.length < n := by
      apply lt_of_mul_lt_mul_left _ hpos.le
      omega
    rcases Int.lt_or_eq_of_le (Int.add_one_le_of_lt hlt) with hbefore | hlast
    · left
      have hmono := mul_le_mul_of_nonneg_left (Int.add_one_le_of_lt hbefore) hpos.le
      rw [← hn, mul_add, mul_one] at hmono
      omega
    · right
      rw [hlast, hn]
  rcases hend with hinside | hmidnight
  · have hn : (Time.new (p.length * (t.instant / p.length + 1))).instant = p.length * (t.instant / p.length + 1) :=
      Time.new_of_lt (by omega) (by omega)
    obtain ⟨f, c, r, hfloor', hceil, hround, hrounded⟩ :=
      Rounds.of_multiple hstrict Time.instant_injective hfloor hadd hf hn hbelow habove (by omega)
    refine iff_of_true ⟨f, c, r, hfloor', hceil, hround, c.instant, r.instant, hrounded, ?_, ?_⟩ ?_
    · exact (Int.emod_eq_of_lt c.nonneg c.lt_day).symm
    · exact (Int.emod_eq_of_lt r.nonneg r.lt_day).symm
    · rintro ⟨-, hpast, -⟩
      omega
  · have hlast : p.length * (t.instant / p.length) = DAY - p.length := by
      rw [mul_add, mul_one] at hmidnight
      omega
    rw [hmidnight] at habove hadd
    rw [hlast] at hbelow hf hfloor hadd
    by_cases heq : t = Time.new (DAY - p.length)
    · have hself : t.instant = DAY - p.length := by
        rw [← hf, ← heq]
      have hleast : IsLeast {z | z ∈ Set.range (fun k => p.length * k) ∧ t.instant ≤ z} t.instant := by
        rw [hself, ← hlast]
        exact isLeast_self _
      have hgreatest := isGreatest_of_between hstrict (hlast.trans_le hbelow) (habove.trans_eq hmidnight.symm)
      rw [hlast, ← hself] at hgreatest
      have hmod := (Int.emod_eq_of_lt hlo hhi).symm
      rw [← heq] at hfloor
      refine iff_of_true ⟨t, t, t, hfloor, ?_, ?_, t.instant, t.instant, ⟨hgreatest, hleast, ?_⟩, hmod, hmod⟩ ?_
      · rw [ceil, hfloor, ok_bind, if_pos rfl]
        rfl
      · rw [round, floorceil, hfloor, ok_bind, if_pos rfl]
        simp only [pure_eq_ok, ok_bind, ite_self]
      · rw [nearest, ite_self]
      · rintro ⟨-, hpast, -⟩
        omega
    · have hne : DAY - p.length ≠ t.instant := by
        intro h
        exact heq (Time.instant_injective (h.symm.trans hf.symm))
      have hgreatest := isGreatest_of_between hstrict (hlast.trans_le hbelow) (habove.trans_eq hmidnight.symm)
      have hleast := isLeast_of_between hstrict (hlast.trans_lt (lt_of_le_of_ne hbelow hne)) (habove.trans_eq hmidnight.symm).le
      rw [hmidnight] at hleast
      rw [hlast] at hgreatest
      have hceil : ceil Time.floor Time.add t p = .ok (Time.new DAY) := by
        rw [ceil, hfloor, ok_bind, if_neg heq]
        exact hadd
      have hzero : (Time.new DAY).instant = 0 := by decide
      have hround : round Time.floor Time.add Time.instant t p = .ok (Time.new DAY) := by
        rw [round, floorceil, hfloor, ok_bind, if_neg heq, hadd]
        simp only [pure_eq_ok, ok_bind]
        rw [hf, hzero, int64_eq (by omega) (by omega), int64_eq (by omega) (by omega), if_neg (by omega)]
      constructor
      · rintro ⟨f, c, r, hfloor', hceil', hround', c', r', hrounded, hc, hr⟩ ⟨hshort, hpast, hnearer⟩
        cases hfloor.symm.trans hfloor'
        cases hround.symm.trans hround'
        rw [hf] at hrounded
        have hmidnight' : c' = DAY := hrounded.ceil.unique hleast
        rw [hrounded.nearest, nearest, hmidnight', if_pos hnearer, hzero, Int.emod_eq_of_lt (by omega) (by omega)] at hr
        omega
      · intro hunaffected
        refine ⟨_, _, _, hfloor, hceil, hround, DAY, nearest t.instant (DAY - p.length) DAY, ⟨?_, hleast, ?_⟩, hzero, ?_⟩
        · rw [hf]
          exact hgreatest
        · rw [hf]
        · rw [hzero, nearest]
          split_ifs with hnearer
          · have hwhole : p.length = DAY := by
              by_contra hshort
              exact hunaffected ⟨lt_of_le_of_ne hle hshort, lt_of_le_of_ne hbelow hne, hnearer⟩
            rw [hwhole, sub_self, Int.zero_emod]
          · exact (Int.emod_self).symm

end Times

section Calls

-- What is rounded to a positive period, far from the limits of its type
inductive Call
  | date (dt : Date) (p : DatePeriod) (positive : 0 < p.value) (hlo : minDay + p.reach ≤ dt.instant)
      (hhi : dt.instant + p.reach ≤ maxDay)
  | dateTime (dt : DateTime) (p : DatePeriod) (positive : 0 < p.value) (hlo : minInstant + p.reach * 86400000 ≤ dt.instant)
      (hhi : dt.instant + p.reach * 86400000 ≤ maxInstant)
  | dateTimeTime (dt : DateTime) (p : TimePeriod) (hu : p.unit.atLeastMillisecond) (positive : 0 < p.value)
      (hlo : minInstant + p.value * (p.unit.nanoseconds / 1000000) ≤ dt.instant)
      (hhi : dt.instant + p.value * (p.unit.nanoseconds / 1000000) ≤ maxInstant)
  | time (t : Time) (p : TimePeriod) (positive : 0 < p.value) (hdvd : p.length ∣ DAY)

def Call.Rounds : Call → Prop
  | .date dt p _ _ _ => Dates.Rounds Date.floor Date.add Date.instant (Set.range p.multiple) dt p
  | .dateTime dt p _ _ _ =>
      Dates.Rounds DateTime.floor DateTime.add DateTime.instant (Set.range fun k => p.multiple k * 86400000) dt p
  | .dateTimeTime dt p _ _ _ _ => Dates.Rounds DateTime.floorTime DateTime.addTime DateTime.instant (Set.range p.multiple) dt p
  | .time t p _ _ => TimeRounds t p

def Call.Unaffected : Call → Prop
  | .time t p _ _ => t.Unaffected p
  | _ => True

-- Only a `Time` has a neighbour that is stored as a smaller instant.
theorem round_nearest_iff (c : Call) : c.Rounds ↔ c.Unaffected := by
  cases c with
  | date dt p positive hlo hhi => exact iff_of_true (dt.rounds p positive hlo hhi) trivial
  | dateTime dt p positive hlo hhi => exact iff_of_true (dt.rounds p positive hlo hhi) trivial
  | dateTimeTime dt p hu positive hlo hhi => exact iff_of_true (dt.rounds_time p hu positive hlo hhi) trivial
  | time t p positive hdvd => exact timeRounds_iff t p positive hdvd

-- 23:10 is rounded to the next midnight, fifty minutes away.
theorem round_time_past_midnight :
    let t := Time.new 83400000000000
    round Time.floor Time.add Time.instant t ⟨.Hour, 1⟩ = .ok (Time.new 0) ∧
      ¬(Call.time t ⟨.Hour, 1⟩ (by decide) (by decide)).Rounds := by
  refine ⟨by decide, ?_⟩
  change ¬TimeRounds _ _
  rw [timeRounds_iff _ _ (by decide) (by decide), Time.Unaffected, not_not]
  decide

end Calls

end Joolia.Dates
