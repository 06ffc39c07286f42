import Joolia.Library.Fallible
import Mathlib.Algebra.Ring.Nat
import Mathlib.Algebra.Ring.Int.Defs

namespace Joolia.Dates

open Fallible

inductive DatesError
  | ArgumentError (msg : String)
  | BoundsError
  | OverflowError
  | DivideError
  | AssertionError (msg : String)
deriving DecidableEq, Repr

-- What becomes of the exact result of an operation at Int64.
abbrev Arith := ℤ → Except DatesError ℤ

-- The operators of the source wrap.
def wrapping : Arith := fun x => .ok (x.bmod (2 ^ 64))

-- The same operators with an error in place of the wrapped result.
def checked : Arith := fun x => if -2 ^ 63 ≤ x ∧ x < 2 ^ 63 then .ok x else .error .OverflowError

def fld (x y : ℤ) : ℤ := x.fdiv y

def div (x y : ℤ) : ℤ := x.tdiv y

def rem (x y : ℤ) : ℤ := x.tmod y

-- A tuple read with a bounds check.
def getindex (t : List ℤ) (i : ℤ) : Except DatesError ℤ :=
  if 0 ≤ i then
    match t[i.toNat]? with
    | some x => .ok x
    | none => .error .BoundsError
  else .error .BoundsError

def SHIFTEDMONTHDAYS : List ℤ := [306, 337, 0, 31, 61, 92, 122, 153, 184, 214, 245, 275]

def DAYSINMONTH : List ℤ := [31, 28, 31, 30, 31, 30, 31, 31, 30, 31, 30, 31]

def MONTHDAYS : List ℤ := [0, 31, 59, 90, 120, 151, 181, 212, 243, 273, 304, 334]

def isleapyear (y : ℤ) : Bool := rem y 4 = 0 && (rem y 100 ≠ 0 || rem y 400 = 0)

section Calendar

variable (int : Arith)

def totaldays (y m d : ℤ) : Except DatesError ℤ := do
  let z ← (if m < 3 then int (y - 1) else pure y : Except DatesError ℤ)
  let mdays ← getindex SHIFTEDMONTHDAYS (← int (m - 1))
  let days ← int (d + mdays)
  let days ← int (days + (← int (365 * z)))
  let days ← int (days + fld z 4)
  let days ← int (days - fld z 100)
  let days ← int (days + fld z 400)
  int (days - 306)

def daysinmonth (y m : ℤ) : Except DatesError ℤ := do
  let n ← getindex DAYSINMONTH (← int (m - 1))
  int (n + if m = 2 && isleapyear y then 1 else 0)

def dayofyear (y m d : ℤ) : Except DatesError ℤ := do
  let n ← getindex MONTHDAYS (← int (m - 1))
  let n ← int (n + d)
  int (n + if m > 2 && isleapyear y then 1 else 0)

-- The two lines that the six accessors share: the year that starts in March, the day in it and the month.
def marchDate (days : ℤ) : Except DatesError (ℤ × ℤ × ℤ) := do
  let z ← int (days + 306)
  let h ← int ((← int (100 * z)) - 25)
  let a := fld h 3652425
  let b ← int (a - fld a 4)
  let y := fld (← int ((← int (100 * b)) + h)) 36525
  let c ← int (b + z)
  let c ← int (c - (← int (365 * y)))
  let c ← int (c - fld y 4)
  let m := div (← int ((← int (5 * c)) + 456)) 153
  pure (y, c, m)

def yearmonthday (days : ℤ) : Except DatesError (ℤ × ℤ × ℤ) := do
  let (y, c, m) ← marchDate int days
  let d ← int (c - div (← int ((← int (153 * m)) - 457)) 5)
  if m > 12 then pure (← int (y + 1), ← int (m - 12), d) else pure (y, m, d)

def year (days : ℤ) : Except DatesError ℤ := do
  let (y, _, m) ← marchDate int days
  if m > 12 then int (y + 1) else pure y

def yearmonth (days : ℤ) : Except DatesError (ℤ × ℤ) := do
  let (y, _, m) ← marchDate int days
  if m > 12 then pure (← int (y + 1), ← int (m - 12)) else pure (y, m)

def month (days : ℤ) : Except DatesError ℤ := do
  let (_, _, m) ← marchDate int days
  if m > 12 then int (m - 12) else pure m

def monthday (days : ℤ) : Except DatesError (ℤ × ℤ) := do
  let (_, c, m) ← marchDate int days
  let d ← int (c - div (← int ((← int (153 * m)) - 457)) 5)
  if m > 12 then pure (← int (m - 12), d) else pure (m, d)

def day (days : ℤ) : Except DatesError ℤ := do
  let (_, c, m) ← marchDate int days
  int (c - div (← int ((← int (153 * m)) - 457)) 5)

-- `validargs(::Type{Date}, y, m, d)`
def validargsDate (y m d : ℤ) : Except DatesError (Option DatesError) := do
  if ¬(0 < m ∧ m < 13) then return some (.ArgumentError s!"Month: {m} out of range (1:12)")
  let n ← daysinmonth int y m
  if ¬(0 < d ∧ d < (← int (n + 1))) then return some (.ArgumentError s!"Day: {d} out of range (1:{n})")
  return none

structure Date where
  instant : ℤ
deriving DecidableEq, Repr

def Date.new (y m d : ℤ) : Except DatesError Date := do
  match ← validargsDate int y m d with
  | some err => throw err
  | none => return ⟨← totaldays int y m d⟩

def typemaxDate : Except DatesError Date := Date.new int 252522163911149 12 31

def typeminDate : Except DatesError Date := Date.new int (-252522163911150) 1 1

end Calendar

end Joolia.Dates
