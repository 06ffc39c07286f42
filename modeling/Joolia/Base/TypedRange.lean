import Joolia.Base.IntFuncs.Text

namespace Joolia.TypedRange

open IntFuncs

section Machine

-- Types of 8 to 64 bits
abbrev BitInteger64 := {T : IntType // T.width ≠ .w128}

abbrev Int64 : IntType := IntFuncs.Int64

def UInt64 : IntType := ⟨false, .w64⟩

-- `promote_type`: the wider type, and the unsigned one of two equally wide types.
def promote (T U : IntType) : IntType :=
  if T.width.bits < U.width.bits then U
  else if U.width.bits < T.width.bits then T
  else ⟨T.signed && U.signed, T.width⟩

-- int.jl: operators convert both operands with `%`, and wrap.
def plus (T U : IntType) (x y : ℤ) : ℤ := (promote T U).wrap ((promote T U).wrap x + (promote T U).wrap y)

def times (T U : IntType) (x y : ℤ) : ℤ := (promote T U).wrap ((promote T U).wrap x * (promote T U).wrap y)

-- There is no wider type than those of 128 bits; no 64-bit argument gets there twice.
def Width.widen : Width → Width
  | .w8 => .w16
  | .w16 => .w32
  | .w32 => .w64
  | _ => .w128

def widen (T : IntType) : IntType := ⟨T.signed, Width.widen T.width⟩

def toSigned (T : IntType) : IntType := ⟨true, T.width⟩

-- The types of the two factors of `widemul(x, y)`
def widemulTypes (T U : IntType) : IntType × IntType :=
  if T.signed = U.signed then (widen T, widen U) else (toSigned (widen T), toSigned (widen U))

def widemulType (T U : IntType) : IntType := promote (widemulTypes T U).1 (widemulTypes T U).2

def widemul (T U : IntType) (x y : ℤ) : ℤ := times (widemulTypes T U).1 (widemulTypes T U).2 x y

-- `flipsign(x, y)` and `-x` at the type of `x`
def flipsign (T : IntType) (x y : ℤ) : ℤ := if y < 0 then T.wrap (-x) else x

-- `div(x, y)` of an `Int`
def divInt (x : ℤ) (S : IntType) (y : ℤ) : ℤ :=
  if S.signed then Int64.wrap (x.tdiv y) else flipsign Int64 (Int64.wrap ((unsignedAbs Int64 x : ℕ) / y)) x

-- `div(x, y)` of a `UInt64`
def divUInt (x : ℤ) (S : IntType) (y : ℤ) : ℤ :=
  if S.signed then UInt64.wrap (flipsign Int64 (Int64.wrap (x / (unsignedAbs S y : ℕ))) y) else x / y

end Machine

inductive IndexError
  | BoundsError
  | InexactError
  | ArgumentError
  | OverflowError
deriving DecidableEq, Repr

-- `convert(T, x)`
def convert (T : IntType) (x : ℤ) : Except IndexError ℤ :=
  if T.typemin ≤ x ∧ x ≤ T.typemax then .ok x else .error .InexactError

section Unit

-- The constructor stores `stop = start - 1` for an empty range.
structure UnitRange (T : IntType) where
  start : MachineInt T
  stop : MachineInt T
  normalized : start.val ≤ stop.val + 1

variable {T : IntType}

-- The narrow types have a method of their own.
def UnitRange.length (v : UnitRange T) : ℤ :=
  if T.width.bits < 64 then Int64.wrap (Int64.wrap (v.stop.val - v.start.val) + 1)
  else if T.signed ∨ v.stop.val ≥ v.start.val then T.wrap (1 + T.wrap (v.stop.val - v.start.val))
  else 0

def rangeLastindex (n : ℤ) : Except IndexError ℤ :=
  if n = 0 then .ok (-1) else convert Int64 n >>= fun n => .ok (Int64.wrap (n - 1))

def inUnitRange (v : UnitRange T) (val i : ℤ) : Except IndexError Bool := do
  let inside ← if 0 ≤ i then rangeLastindex v.length >>= fun l => .ok (decide (i ≤ l)) else .ok false
  .ok (inside && decide (val ≤ v.stop.val) && decide (val ≥ v.start.val))

-- `v[i]`
def UnitRange.getindex (v : UnitRange T) {I : IntType} (i : MachineInt I) : Except IndexError ℤ := do
  let val := plus T I v.start.val i.val
  if ← inUnitRange v val i.val then .ok (T.wrap val) else .error .BoundsError

end Unit

section Step

structure StepRange (T S : IntType) where
  start : MachineInt T
  step : MachineInt S
  stop : MachineInt T
  step_ne_zero : step.val ≠ 0

variable {T S : IntType}

def StepRange.isempty (r : StepRange T S) : Bool :=
  decide (r.start.val ≠ r.stop.val) && (decide (r.step.val > 0) != decide (r.stop.val > r.start.val))

def StepRange.length (r : StepRange T S) : ℤ :=
  if T.width.bits < 64 then
    if r.isempty then 0
    else Int64.wrap (divInt (Int64.wrap (r.stop.val - r.start.val)) S r.step.val + 1)
  else
    let diff := T.wrap (r.stop.val - r.start.val)
    if r.isempty then 0
    else
      let a := T.wrap (divUInt (UInt64.wrap (flipsign T diff r.step.val)) S r.step.val)
      T.wrap (flipsign T a r.step.val + 1)

def StepRange.checkbounds (r : StepRange T S) {I : IntType} (i : MachineInt I) : Bool :=
  let res := plus (widemulType S I) T (widemul S I r.step.val i.val) r.start.val
  (decide (0 ≤ i.val) && decide (i.val < r.length)) &&
    if 0 < r.step.val then decide (res ≤ r.stop.val) else decide (res ≥ r.stop.val)

def StepRange.unsafeGetindex (r : StepRange T S) {I : IntType} (i : MachineInt I) : Except IndexError ℤ :=
  convert T (plus T (promote I S) r.start.val (times I S i.val r.step.val))

-- `v[i]`
def StepRange.getindex (r : StepRange T S) {I : IntType} (i : MachineInt I) : Except IndexError ℤ :=
  if r.checkbounds i then r.unsafeGetindex i else .error .BoundsError

end Step

end Joolia.TypedRange
