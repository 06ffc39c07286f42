import Joolia.Base.Escape
import Joolia.Stdlib.Dates

namespace Joolia.Dates

open Fallible Strings

section DateTime

-- The operators of the source wrap at Int64.
def int64 (x : ℤ) : ℤ := x.bmod (2 ^ 64)

structure DateTime where
  instant : ℤ
deriving DecidableEq, Repr

def validargsDateTime (y m d h mi s ms : ℤ) : Except DatesError (Option DatesError) := do
  if ¬(0 < m ∧ m < 13) then return some (.ArgumentError s!"Month: {m} out of range (1:12)")
  let n ← daysinmonth wrapping y m
  if ¬(0 < d ∧ d < int64 (n + 1)) then return some (.ArgumentError s!"Day: {d} out of range (1:{n})")
  if ¬(-1 < h ∧ h < 24 ∨ h = 24 ∧ mi = 0 ∧ s = 0 ∧ ms = 0) then
    return some (.ArgumentError s!"Hour: {h} out of range (0:23)")
  if ¬(-1 < mi ∧ mi < 60) then return some (.ArgumentError s!"Minute: {mi} out of range (0:59)")
  if ¬(-1 < s ∧ s < 60) then return some (.ArgumentError s!"Second: {s} out of range (0:59)")
  if ¬(-1 < ms ∧ ms < 1000) then return some (.ArgumentError s!"Millisecond: {ms} out of range (0:999)")
  return none

def DateTime.new (y m d h mi s ms : ℤ) : Except DatesError DateTime := do
  match ← validargsDateTime y m d h mi s ms with
  | some err => throw err
  | none =>
    let days ← totaldays wrapping y m d
    return ⟨int64 (ms + int64 (1000 * int64 (int64 (int64 (s + int64 (60 * mi)) + int64 (3600 * h)) + int64 (86400 * days))))⟩

def typemaxDateTime : Except DatesError DateTime := DateTime.new 146138512 12 31 23 59 59 0

def typeminDateTime : Except DatesError DateTime := DateTime.new (-146138511) 1 1 0 0 0 0

namespace DateTime

variable (dt : DateTime)

def days : ℤ := fld dt.instant 86400000

def hour : ℤ := (fld dt.instant 3600000).fmod 24

def minute : ℤ := (fld dt.instant 60000).fmod 60

def second : ℤ := (fld dt.instant 1000).fmod 60

def millisecond : ℤ := dt.instant.fmod 1000

end DateTime

end DateTime

section Numbers

-- The characters from a position on stand for the position; `pos > len` is the empty list.
def tryparsenextSign : List Chr → Option (ℤ × List Chr)
  | [] => none
  | c :: str => if c = lit '+' then some (1, str) else if c = lit '-' then some (-1, str) else none

def isdigit (c : Chr) : Bool := lit '0' ≤ c ∧ c ≤ lit '9'

-- `c - '0'`
def digit (c : Chr) : ℤ := ((unsafeCodepoint c).toNat : ℤ) - (unsafeCodepoint (lit '0')).toNat

-- The loop of `tryparsenext_base10`: the number, the count of its digits and the position
-- behind them. Every digit is one byte, so `count` is the distance from the first one.
def base10Loop (maxWidth : ℕ) : ℤ → ℕ → List Chr → ℤ × ℕ × List Chr
  | d, count, [] => (d, count, [])
  | d, count, c :: str =>
    if (maxWidth = 0 ∨ count < maxWidth) ∧ isdigit c then
      base10Loop maxWidth (int64 (int64 (d * 10) + digit c)) (count + 1) str
    else (d, count, c :: str)

def tryparsenextBase10 (str : List Chr) (minWidth maxWidth : ℕ) : Option (ℤ × List Chr) :=
  if str = [] then none
  else
    let (d, count, rest) := base10Loop maxWidth 0 0 str
    if count < max minWidth 1 then none else some (d, rest)

end Numbers

section Tokens

-- The letters of the ISO formats.
inductive Code
  | y
  | Y
  | m
  | d
  | H
  | M
  | S
  | s
deriving DecidableEq, Repr

def Code.letter : Code → Char
  | y => 'y'
  | Y => 'Y'
  | m => 'm'
  | d => 'd'
  | H => 'H'
  | M => 'M'
  | S => 'S'
  | s => 's'

inductive Token
  | datePart (letter : Code) (width : ℕ) (fixed : Bool)
  | delim (d : Char)
deriving DecidableEq, Repr

def minWidth (width : ℕ) (fixed : Bool) : ℕ := if fixed then width else 1

def maxWidth (width : ℕ) (fixed : Bool) : ℕ := if fixed then width else 0

-- `show(io, token)`
def Token.show : Token → String
  | .datePart letter width _ => s!"DatePart({String.ofList (List.replicate width letter.letter)})"
  | .delim d => s!"Delim({d})"

-- `dateformat"yyyy-mm-dd\THH:MM:SS.s"`
def ISODateTimeFormat : List Token := [.datePart .y 4 false, .delim '-', .datePart .m 2 false, .delim '-',
  .datePart .d 2 false, .delim 'T', .datePart .H 2 false, .delim ':', .datePart .M 2 false, .delim ':',
  .datePart .S 2 false, .delim '.', .datePart .s 1 false]

def tryparsenextYear (width : ℕ) (fixed : Bool) (str : List Chr) : Option (ℤ × List Chr) := do
  let (coefficient, str) := (tryparsenextSign str).getD (1, str)
  let (y, str) ← tryparsenextBase10 str (minWidth width fixed) (maxWidth width fixed)
  return (int64 (y * coefficient), str)

-- A fraction of `len` digits in milliseconds.
def decimal3 (ms0 : ℤ) (len : ℕ) : Except DatesError (Option ℤ) :=
  if len > 3 then
    let p := int64 (10 ^ (len - 3))
    if p = 0 then .error .DivideError else .ok (if rem ms0 p = 0 then some (div ms0 p) else none)
  else .ok (some (int64 (ms0 * int64 (10 ^ (3 - len)))))

def tryparsenextMillisecond (width : ℕ) (fixed : Bool) (str : List Chr) : Except DatesError (Option (ℤ × List Chr)) :=
  match tryparsenextBase10 str (minWidth width fixed) (maxWidth width fixed) with
  | none => .ok none
  | some (ms0, rest) => do return (← decimal3 ms0 (str.length - rest.length)).map fun ms => (ms, rest)

-- `tryparsenext(d, str, i, len)` for a `DatePart`
def tryparsenext (width : ℕ) (fixed : Bool) (str : List Chr) : Code → Except DatesError (Option (ℤ × List Chr))
  | .y | .Y => .ok (tryparsenextYear width fixed str)
  | .m | .d | .H | .M | .S => .ok (tryparsenextBase10 str (minWidth width fixed) (maxWidth width fixed))
  | .s => tryparsenextMillisecond width fixed str

-- The same for a `Delim` of one character.
def tryparsenextDelim (d : Char) : List Chr → Option (List Chr)
  | [] => none
  | c :: str => if c ≠ lit d then none else some str

end Tokens

section Readers

-- The variables that the generated functions assign, `value_names` and `output_names`.
structure Values where
  year : ℤ
  month : ℤ
  day : ℤ
  hour : ℤ
  minute : ℤ
  second : ℤ
  millisecond : ℤ
deriving DecidableEq, Repr

namespace Values

-- `CONVERSION_DEFAULTS`
def default : Values := ⟨1, 1, 1, 0, 0, 0, 0⟩

-- `CONVERSION_SPECIFIERS`
def set (values : Values) (val : ℤ) : Code → Values
  | .y | .Y => { values with year := val }
  | .m => { values with month := val }
  | .d => { values with day := val }
  | .H => { values with hour := val }
  | .M => { values with minute := val }
  | .S => { values with second := val }
  | .s => { values with millisecond := val }

def datetime (values : Values) : Except DatesError DateTime :=
  DateTime.new values.year values.month values.day values.hour values.minute values.second values.millisecond

def validargs (values : Values) : Except DatesError (Option DatesError) :=
  validargsDateTime values.year values.month values.day values.hour values.minute values.second values.millisecond

end Values

-- The two labels of `tryparsenext_core`.
inductive Core
  | done (values : Values) (pos : List Chr) (numParsed : ℕ)
  | error (directiveIndex : ℕ) (pos : List Chr)
deriving DecidableEq, Repr

-- One parser for each directive.
def runParsers : List Token → ℕ → ℕ → Values → List Chr → Except DatesError Core
  | [], directiveIndex, numParsed, values, pos =>
    .ok (if pos = [] then .done values pos numParsed else .error directiveIndex pos)
  | .datePart letter width fixed :: directives, directiveIndex, numParsed, values, pos => do
    if pos = [] then return .done values pos numParsed
    match ← tryparsenext width fixed pos letter with
    | none => return .error directiveIndex pos
    | some (val, pos) => runParsers directives (directiveIndex + 1) (numParsed + 1) (values.set val letter) pos
  | .delim d :: directives, directiveIndex, numParsed, values, pos => do
    if pos = [] then return .done values pos numParsed
    match tryparsenextDelim d pos with
    | none => return .error directiveIndex pos
    | some pos => runParsers directives (directiveIndex + 1) numParsed values pos

-- All characters in front of `pos` are ASCII, so their number is the index.
def tryparsenextCore (str : List Chr) (directives : List Token) (raise : Bool) :
    Except DatesError (Option (Values × List Chr × ℕ)) := do
  match ← runParsers directives 0 0 Values.default str with
  | .done values pos numParsed => return some (values, pos, numParsed)
  | .error directiveIndex pos =>
    if raise then
      match directives[directiveIndex]? with
      | none => throw (.ArgumentError "Found extra characters at the end of date time string")
      | some d => throw (.ArgumentError
          s!"Unable to parse date time. Expected directive {d.show} at char {str.length - pos.length}")
    return none

def tryparsenextInternal (str : List Chr) (df : List Token) (raise : Bool) : Except DatesError (Option (Values × List Chr)) := do
  return (← tryparsenextCore str df raise).map fun val => (val.1, val.2.1)

-- `tryparse(DateTime, str, df)`
def tryparseDateTime (str : List Chr) (df : List Token) : Except DatesError (Option DateTime) := do
  if str = [] then return none
  match ← tryparsenextInternal str df false with
  | none => return none
  | some (values, _) =>
    match ← values.validargs with
    | none => return some (← values.datetime)
    | some _ => return none

-- A field of `parse(DateTime, s, ISODateTimeFormat)` and the character behind it.
def field (s : List Chr) (maxWidth : ℕ) (delim : Char) (done : ℤ → Except DatesError DateTime)
    (next : ℤ → List Chr → Except DatesError DateTime) : Except DatesError DateTime :=
  match tryparsenextBase10 s 1 maxWidth with
  | none => .error (.ArgumentError "Invalid DateTime string")
  | some (val, []) => done val
  | some (val, c :: s) =>
    if c ≠ lit delim then .error (.ArgumentError "Invalid DateTime string") else if s = [] then done val else next val s

-- `parse(DateTime, s, ISODateTimeFormat)`
def parseDateTime (s : List Chr) : Except DatesError DateTime :=
  if s = [] then .error (.ArgumentError "Cannot parse an empty string as a DateTime")
  else
    let (coefficient, s) := (tryparsenextSign s).getD (1, s)
    field s 0 '-' (fun dy => DateTime.new (int64 (dy * coefficient)) 1 1 0 0 0 0) fun dy s =>
    field s 2 '-' (fun dm => DateTime.new (int64 (dy * coefficient)) dm 1 0 0 0 0) fun dm s =>
    field s 2 'T' (fun dd => DateTime.new (int64 (dy * coefficient)) dm dd 0 0 0 0) fun dd s =>
    field s 2 ':' (fun th => DateTime.new (int64 (dy * coefficient)) dm dd th 0 0 0) fun th s =>
    field s 2 ':' (fun tm => DateTime.new (int64 (dy * coefficient)) dm dd th tm 0 0) fun tm s =>
    field s 2 '.' (fun ts => DateTime.new (int64 (dy * coefficient)) dm dd th tm ts 0) fun ts s =>
    match tryparsenextBase10 s 1 3 with
    | none => .error (.ArgumentError "Invalid DateTime string")
    | some (tms, rest) =>
      if rest = [] then
        DateTime.new (int64 (dy * coefficient)) dm dd th tm ts
          (int64 (tms * int64 (10 ^ (3 - (s.length - rest.length)))))
      else .error (.ArgumentError "Invalid DateTime string")

end Readers

end Joolia.Dates
