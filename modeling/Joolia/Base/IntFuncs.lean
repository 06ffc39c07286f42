import Joolia.Library.Fallible
import Mathlib.Data.Nat.Size
import Mathlib.Data.UInt

namespace Joolia.IntFuncs

-- The machine integers: two signs, five widths.
inductive Width
  | w8
  | w16
  | w32
  | w64
  | w128
deriving DecidableEq, Repr

def Width.sizeof : Width → ℕ
  | w8 => 1
  | w16 => 2
  | w32 => 4
  | w64 => 8
  | w128 => 16

def Width.bits (w : Width) : ℕ := 8 * w.sizeof

structure IntType where
  signed : Bool
  width : Width
deriving DecidableEq, Repr

def IntType.typemin (T : IntType) : ℤ := if T.signed then -2 ^ (T.width.bits - 1) else 0

def IntType.typemax (T : IntType) : ℤ := if T.signed then 2 ^ (T.width.bits - 1) - 1 else 2 ^ T.width.bits - 1

-- The value of type `T` with the same low bits.
def IntType.wrap (T : IntType) (x : ℤ) : ℤ := (x - T.typemin) % 2 ^ T.width.bits + T.typemin

structure MachineInt (T : IntType) where
  val : ℤ
  min_le : T.typemin ≤ val
  le_max : val ≤ T.typemax
deriving DecidableEq, Repr

def Int64 : IntType := ⟨true, .w64⟩

inductive TextError
  | domainError
  | inexactError
  | boundsError (index : ℕ)
  | invalidStore (index : ℤ)
deriving DecidableEq, Repr

def leadingZeros (w : Width) (x : ℕ) : ℕ := w.bits - x.size

def topSetBit (w : Width) (x : ℕ) : ℕ := 8 * w.sizeof - leadingZeros w x

def powersOfTen : List ℕ := [
  0x0000000000000001, 0x000000000000000a, 0x0000000000000064, 0x00000000000003e8,
  0x0000000000002710, 0x00000000000186a0, 0x00000000000f4240, 0x0000000000989680,
  0x0000000005f5e100, 0x000000003b9aca00, 0x00000002540be400, 0x000000174876e800,
  0x000000e8d4a51000, 0x000009184e72a000, 0x00005af3107a4000, 0x00038d7ea4c68000,
  0x002386f26fc10000, 0x016345785d8a0000, 0x0de0b6b3a7640000, 0x8ac7230489e80000]

-- bit_ndigits0z(x::BitUnsigned64)
def bitNdigits0zSmall (w : Width) (x : ℕ) : Except TextError ℕ :=
  let lz := topSetBit w x
  let nd := (1233 * lz) >>> 12 + 1
  match powersOfTen[nd - 1]? with
  | none => .error (.boundsError (nd - 1))
  | some power => .ok (nd - if x < power then 1 else 0)

-- `while x > 0x8ac7230489e80000  x = div(x,0x8ac7230489e80000); n += 19  end`
def dropNineteens : ℕ → ℕ → ℕ → ℕ × ℕ
  | 0, x, n => (x, n)
  | fuel + 1, x, n =>
      if 0x8ac7230489e80000 < x then dropNineteens fuel (x / 0x8ac7230489e80000) (n + 19) else (x, n)

def bitNdigits0z (w : Width) (x : ℕ) : Except TextError ℕ :=
  if w = .w128 then do
    let (x, n) := dropNineteens x.size x 0
    if 2 ^ 64 ≤ x then throw .inexactError
    return n + (← bitNdigits0zSmall .w64 x)
  else bitNdigits0zSmall w x

-- `while x > typemax(Int)  x = div(x,b); d += 1  end`
def shrink (b : ℕ) : ℕ → ℕ → ℕ → ℕ × ℕ
  | 0, x, d => (x, d)
  | fuel + 1, x, d => if Int64.typemax < x then shrink b fuel (x / b) (d + 1) else (x, d)

-- `while m <= x  m *= b; d += 1  end`, where `m` is an Int
def grow (b x : ℕ) : ℕ → ℤ → ℕ → ℕ
  | 0, _, d => d
  | fuel + 1, m, d => if m ≤ x then grow b x fuel (Int64.wrap (m * b)) (d + 1) else d

def trailingZeros (b : ℕ) : ℕ := (BitVec.ofNat 64 b).ctz.toNat

def ispow2 (b : ℕ) : Bool := decide (0 < b ∧ (BitVec.ofNat 64 b).cpop = 1)

-- The case of a base above one; `x` is the absolute value.
def ndigits0zpb (w : Width) (x b : ℕ) : Except TextError ℕ :=
  if x = 0 then .ok 0
  else if b = 2 then .ok (topSetBit w x)
  else if b = 8 then .ok ((topSetBit w x + 2) / 3)
  else if b = 16 then .ok (w.sizeof <<< 1 - leadingZeros w x >>> 2)
  else if b = 10 then bitNdigits0z w x
  else if ispow2 b then
    let dv := topSetBit w x / trailingZeros b
    let rm := topSetBit w x % trailingZeros b
    .ok (if rm = 0 then dv else dv + 1)
  else
    let (x, d) := shrink b x.size x 0
    let x := x / b
    let d := d + 1
    .ok (grow b x (x.size + 1) 1 d)

-- `while x != 0  x = cld(x,b); d += 1  end`
def countDown (b : ℤ) : ℕ → ℤ → ℕ → ℕ
  | 0, _, d => d
  | fuel + 1, x, d => if x ≠ 0 then countDown b fuel (-(-x).fdiv b) (d + 1) else d

-- The case of a base below minus one.
def ndigits0znb (unsigned : Bool) (x b : ℤ) : ℕ :=
  if unsigned then
    let d := if x ≠ 0 then 1 else 0
    let x := -x.fdiv (-b)
    countDown b (2 * x.natAbs.size + 1) x d
  else countDown b (2 * x.natAbs.size + 1) x 0

def ndigits0z (T : IntType) (x b : ℤ) : Except TextError ℕ :=
  if b < -1 then .ok (ndigits0znb (!T.signed) x b)
  else if 1 < b then ndigits0zpb T.width (T.wrap |x| % 2 ^ T.width.bits).toNat b.toNat
  else .error .domainError

-- ndigits(x; base, pad)
def ndigits (T : IntType) (x base pad : ℤ) : Except TextError ℤ := do
  return max pad (← ndigits0z T x base)

-- `_string_n(n)`; the memory that a new string gets has no particular contents.
def stringN (mem : ℕ → UInt8) (n : ℤ) : Except TextError (List UInt8) :=
  if n < 0 then .error .inexactError else .ok ((List.range n.toNat).map mem)

-- `unsafe_store!(p, v, i)`
def unsafeStore (str : List UInt8) (v : UInt8) (i : ℤ) : Except TextError (List UInt8) :=
  if 0 ≤ i ∧ i < str.length then .ok (str.set i.toNat v) else .error (.invalidStore i)

-- The first position of the digits.
def signWidth (neg : Bool) : ℤ := if neg then 1 else 0

-- `neg && unsafe_store!(p, 0x2d, 0)`
def storeSign (neg : Bool) (str : List UInt8) : Except TextError (List UInt8) :=
  if neg then unsafeStore str 0x2d 0 else .ok str

-- What is left to write: the string, the rest of the number and the cursor.
structure Cursor where
  str : List UInt8
  x : ℕ
  i : ℤ
deriving DecidableEq, Repr

-- `x % UInt8`
def lowByte (x : ℕ) : UInt8 := UInt8.ofNat x

-- Four binary digits at a time, while `i >= 3`.
def binFour : ℕ → Cursor → Except TextError Cursor
  | 0, s => .ok s
  | fuel + 1, s =>
      if 3 ≤ s.i then do
        let b := (lowByte s.x).toUInt32
        let d := (0x30303030 : UInt32) + (((b * (0x08040201 : UInt32)) >>> 0x3) &&& 0x01010101)
        let str ← unsafeStore s.str (d >>> 0x00).toUInt8 (s.i - 3)
        let str ← unsafeStore str (d >>> 0x08).toUInt8 (s.i - 2)
        let str ← unsafeStore str (d >>> 0x10).toUInt8 (s.i - 1)
        let str ← unsafeStore str (d >>> 0x18).toUInt8 s.i
        binFour fuel ⟨str, s.x >>> 4, s.i - 4⟩
      else .ok s

-- One digit of `k` bits at a time, while `i >= neg`.
def bitsOne (k : ℕ) (mask : UInt8) (neg : Bool) : ℕ → Cursor → Except TextError Cursor
  | 0, s => .ok s
  | fuel + 1, s =>
      if signWidth neg ≤ s.i then do
        let str ← unsafeStore s.str (0x30 + (lowByte s.x &&& mask)) s.i
        bitsOne k mask neg fuel ⟨str, s.x >>> k, s.i - 1⟩
      else .ok s

section Writers

variable (mem : ℕ → UInt8) (w : Width)

def bin (x : ℕ) (pad : ℤ) (neg : Bool) : Except TextError (List UInt8) := do
  let m := topSetBit w x
  let n := Int64.wrap (signWidth neg + max pad m)
  let str ← stringN mem n
  let s ← binFour str.length ⟨str, x, n - 1⟩
  let s ← bitsOne 1 0x1 neg str.length s
  storeSign neg s.str

def oct (x : ℕ) (pad : ℤ) (neg : Bool) : Except TextError (List UInt8) := do
  let m := (topSetBit w x + 2) / 3
  let n := Int64.wrap (signWidth neg + max pad m)
  let str ← stringN mem n
  let s ← bitsOne 3 0x7 neg str.length ⟨str, x, n - 1⟩
  storeSign neg s.str

end Writers

-- The table of two decimal digits, from its generating expression.
def decD100 : List UInt16 :=
  (List.range 100).map fun i => (0x30 + UInt16.ofNat (i % 10)) <<< 0x8 + (0x30 + UInt16.ofNat (i / 10))

-- `v = _dec_d100[k]`, its high byte at position `i` and its low byte at position `i - 1`
def storePair (str : List UInt8) (k : ℕ) (i : ℤ) : Except TextError (List UInt8) :=
  match decD100[k]? with
  | none => .error (.boundsError k)
  | some v => do
      let str ← unsafeStore str (v >>> 8).toUInt8 i
      unsafeStore str v.toUInt8 (i - 1)

-- `for j in 0:3`: eight digits of `r32`
def storePairs : ℕ → List UInt8 → ℕ → ℤ → Except TextError (List UInt8 × ℕ)
  | 0, str, r32, _ => .ok (str, r32)
  | j + 1, str, r32, i => do
      let str ← storePair str (r32 % 0x64) i
      storePairs j str (r32 / 0x64) (i - 2)

-- Nine decimal digits at a time, while `i >= 9 && x > typemax(UInt)`.
def decNine : ℕ → Cursor → Except TextError Cursor
  | 0, s => .ok s
  | fuel + 1, s =>
      if 9 ≤ s.i ∧ 2 ^ 64 - 1 < s.x then do
        let r := s.x % 0x3b9aca00
        let (str, r32) ← storePairs 4 s.str (r % 2 ^ 32) s.i
        let str ← unsafeStore str (0x30 + lowByte r32) (s.i - 8)
        decNine fuel ⟨str, s.x / 0x3b9aca00, s.i - 9⟩
      else .ok s

-- Two decimal digits at a time, while `i >= 1`.
def decTwo : ℕ → Cursor → Except TextError Cursor
  | 0, s => .ok s
  | fuel + 1, s =>
      if 1 ≤ s.i then do
        let str ← storePair s.str (s.x % 0x64) s.i
        decTwo fuel ⟨str, s.x / 0x64, s.i - 2⟩
      else .ok s

-- `d + ifelse(d > 0x9, 0x57, 0x30)`
def hexDigit (d : UInt8) : UInt8 := d + if 0x9 < d then 0x57 else 0x30

-- Two hexadecimal digits at a time, while `i >= 1`.
def hexTwo : ℕ → Cursor → Except TextError Cursor
  | 0, s => .ok s
  | fuel + 1, s =>
      if 1 ≤ s.i then do
        let b := lowByte s.x
        let str ← unsafeStore s.str (hexDigit (b >>> 0x4)) (s.i - 1)
        let str ← unsafeStore str (hexDigit (b &&& 0xf)) s.i
        hexTwo fuel ⟨str, s.x >>> 8, s.i - 2⟩
      else .ok s

-- The digit that is left when the number of digits is odd.
def storeLast (neg : Bool) (s : Cursor) (v : UInt8) : Except TextError (List UInt8) :=
  if signWidth neg ≤ s.i then unsafeStore s.str v s.i else .ok s.str

section Writers

variable (mem : ℕ → UInt8) (w : Width)

def dec (x : ℕ) (pad : ℤ) (neg : Bool) : Except TextError (List UInt8) := do
  let nd ← ndigits ⟨false, w⟩ x 10 pad
  let n := Int64.wrap (signWidth neg + nd)
  let str ← stringN mem n
  let s ← decNine str.length ⟨str, x, n - 1⟩
  let s ← decTwo str.length { s with x := s.x % 2 ^ 64 }
  let str ← storeLast neg s (0x30 + lowByte (s.x % 0xa))
  storeSign neg str

def hex (x : ℕ) (pad : ℤ) (neg : Bool) : Except TextError (List UInt8) := do
  let m := 2 * w.sizeof - leadingZeros w x >>> 2
  let n := Int64.wrap (signWidth neg + max pad m)
  let str ← stringN mem n
  let s ← hexTwo str.length ⟨str, x, n - 1⟩
  let str ← storeLast neg s (hexDigit (lowByte s.x &&& 0xf))
  storeSign neg str

end Writers

def base36digits : List UInt8 :=
  (List.range 10).map (fun i => 0x30 + UInt8.ofNat i) ++ (List.range 26).map (fun i => 0x61 + UInt8.ofNat i)

def base62digits : List UInt8 :=
  (List.range 10).map (fun i => 0x30 + UInt8.ofNat i) ++ (List.range 26).map (fun i => 0x41 + UInt8.ofNat i) ++
    (List.range 26).map (fun i => 0x61 + UInt8.ofNat i)

-- The loop of `_base`; the number may be negative when the base is.
def baseLoop (b : ℤ) (digits : List UInt8) (neg : Bool) : ℕ → List UInt8 → ℤ → ℤ → Except TextError (List UInt8)
  | 0, str, _, _ => .ok str
  | fuel + 1, str, x, i =>
      if signWidth neg ≤ i then
        let k := if 0 < b then x.tmod b else x.fmod (-b)
        match digits[k.toNat]? with
        | none => .error (.boundsError k.toNat)
        | some v => do
            let str ← unsafeStore str v i
            baseLoop b digits neg fuel str (if 0 < b then x.tdiv b else -(-x).fdiv b) (i - 1)
      else .ok str

-- `_base(base, x, pad, neg)` for `x` of type `T`
def base (mem : ℕ → UInt8) (T : IntType) (base x pad : ℤ) (neg : Bool) : Except TextError (List UInt8) := do
  if ¬(0 ≤ x ∨ base < 0) then throw .domainError
  if ¬(2 ≤ |base| ∧ |base| ≤ 62) then throw .domainError
  let b := base
  let digits := if |b| ≤ 36 then base36digits else base62digits
  let nd ← ndigits T x b pad
  let n := Int64.wrap (signWidth neg + nd)
  let str ← stringN mem n
  let str ← baseLoop b digits neg str.length str x (n - 1)
  storeSign neg str

-- unsigned(abs(n))
def unsignedAbs (T : IntType) (n : ℤ) : ℕ := (T.wrap |n| % 2 ^ T.width.bits).toNat

-- `split_sign(n)`
def splitSign (T : IntType) (n : ℤ) : ℕ × Bool :=
  if T.signed then (unsignedAbs T n, decide (n < 0)) else (n.toNat, false)

-- `string(n; base, pad)`
def string (mem : ℕ → UInt8) (T : IntType) (n : MachineInt T) (base pad : ℤ) : Except TextError (List UInt8) := do
  let pad := min (max pad Int64.typemin) Int64.typemax
  let (positive, neg) := splitSign T n.val
  if base = 2 then bin mem T.width positive pad neg
  else if base = 8 then oct mem T.width positive pad neg
  else if base = 10 then dec mem T.width positive pad neg
  else if base = 16 then hex mem T.width positive pad neg
  else if 0 < base then IntFuncs.base mem ⟨false, T.width⟩ base (unsignedAbs T n.val) pad (decide (n.val < 0))
  else
    -- `convert(Signed, n)`
    if (⟨true, T.width⟩ : IntType).typemax < n.val then throw .inexactError
    IntFuncs.base mem ⟨true, T.width⟩ base n.val pad false

end Joolia.IntFuncs
