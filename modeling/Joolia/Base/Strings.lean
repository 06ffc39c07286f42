import Mathlib.Data.List.Basic
import Mathlib.Tactic

namespace Joolia.Strings

-- The exceptions of the string functions.
inductive Error where
  | boundsError (i : ℤ)
  | stringIndexError (i : ℤ)
  | argumentError (msg : String)
  | assertionError (msg : String)
  | invalidCharError (char : BitVec 32)
  | codePointError (code : BitVec 32)
  | inexactError (n : ℤ)
  -- an `ArgumentError` that names the character after the backslash
  | invalidEscapeSequence (char : BitVec 32)
deriving DecidableEq, Repr

abbrev Byte := BitVec 8

-- A `Char` holds the up to four bytes of its encoding, the first one highest.
abbrev Chr := BitVec 32

-- A `String` is any sequence of bytes whose length is an `Int`.
structure Str where
  data : List Byte
  length_lt : data.length < 2 ^ 63

-- The two's complement reading of a 64 bit sum.
def wrap (x : ℤ) : ℤ := x.bmod (2 ^ 64)

def ncodeunits (s : Str) : ℤ := s.data.length

def codeunit (s : Str) (i : ℤ) : Except Error Byte :=
  if 0 ≤ i ∧ i < ncodeunits s then .ok (s.data.getD i.toNat 0) else .error (.boundsError i)

def checkbounds (s : Str) (i : ℤ) : Bool := 0 ≤ i ∧ i < ncodeunits s

def between (b lo hi : Byte) : Bool := lo ≤ b ∧ b ≤ hi

-- string.jl: `is_valid_continuation`, written out at each of its uses below.
def isContinuation (b : Byte) : Bool := b &&& 0xc0 = 0x80

def thisindContinued (s : Str) (i : ℤ) : Except Error ℤ := do
  let b ← codeunit s (i - 1)
  if between b 0b11000000 0b11110111 then return i - 1
  if ¬(isContinuation b ∧ i - 2 ≥ 0) then return i
  let b ← codeunit s (i - 2)
  if between b 0b11100000 0b11110111 then return i - 2
  if ¬(isContinuation b ∧ i - 3 ≥ 0) then return i
  let b ← codeunit s (i - 3)
  if between b 0b11110000 0b11110111 then return i - 3
  return i

def thisind (s : Str) (i : ℤ) : Except Error ℤ := do
  if i = -1 then return -1
  let n := ncodeunits s
  if i = n then return i
  if ¬(0 ≤ i ∧ i ≤ n - 1) then throw (.boundsError i)
  let b ← codeunit s i
  if ¬(isContinuation b ∧ i - 1 ≥ 0) then return i
  thisindContinued s i

-- The part of `_nextind_continued` after the start of the character is found.
def nextindForward (s : Str) (i n : ℤ) (l : Byte) : Except Error ℤ := do
  -- first continuation byte
  let i := i + 1
  if i ≥ n then return i
  let b ← codeunit s i
  if ¬isContinuation b then return i
  let i := i + 1
  if i ≥ n ∨ l < 0xe0 then return i
  -- second continuation byte
  let b ← codeunit s i
  if ¬isContinuation b then return i
  let i := i + 1
  if i ≥ n ∨ l < 0xf0 then return i
  -- third continuation byte
  let b ← codeunit s i
  return if ¬isContinuation b then i else i + 1

def nextindContinued (s : Str) (i n : ℤ) (l : Byte) : Except Error ℤ := do
  if l < 0xc0 then
    -- an invalid index is scanned back to the start of its character
    let i' ← thisind s i
    if i' ≥ i then return i + 1
    let i := i'
    let l ← codeunit s i
    if l < 0x80 ∨ 0xf8 ≤ l then return i + 1
    if ¬(l ≥ 0xc0) then throw (.assertionError "invalid codeunit")
    nextindForward s i n l
  else
    nextindForward s i n l

def nextind (s : Str) (i : ℤ) : Except Error ℤ := do
  if i = -1 then return 0
  let n := ncodeunits s
  if ¬(0 ≤ i ∧ i ≤ n - 1) then throw (.boundsError i)
  let l ← codeunit s i
  if ¬between l 0x80 0xf7 then return i + 1
  nextindContinued s i n l

def isvalid (s : Str) (i : ℤ) : Except Error Bool := do
  if ¬checkbounds s i then return false
  let j ← thisind s i
  return j = i

def iterateContinued (s : Str) (i : ℤ) (u : Chr) : Except Error (Chr × ℤ) := do
  if u < 0xc0000000 then return (u, i + 1)
  let n := ncodeunits s
  -- first continuation byte
  let i := i + 1
  if i ≥ n then return (u, i)
  let b ← codeunit s i
  if ¬isContinuation b then return (u, i)
  let u := u ||| (b.zeroExtend 32 <<< 16)
  -- second continuation byte
  let i := i + 1
  if i ≥ n ∨ u < 0xe0000000 then return (u, i)
  let b ← codeunit s i
  if ¬isContinuation b then return (u, i)
  let u := u ||| (b.zeroExtend 32 <<< 8)
  -- third continuation byte
  let i := i + 1
  if i ≥ n ∨ u < 0xf0000000 then return (u, i)
  let b ← codeunit s i
  if ¬isContinuation b then return (u, i)
  let u := u ||| b.zeroExtend 32
  return (u, i + 1)

-- `none` is the end of the iteration. The comparison reads `i` as unsigned.
def iterate (s : Str) (i : ℤ) : Except Error (Option (Chr × ℤ)) := do
  if ¬(i % 2 ^ 64 < ncodeunits s) then return none
  let b ← codeunit s i
  let u : Chr := b.zeroExtend 32 <<< 24
  if ¬between b 0x80 0xf7 then return some (u, i + 1)
  return some (← iterateContinued s i u)

def getindexContinued (s : Str) (i : ℤ) (u : Chr) : Except Error Chr := do
  if u < 0xc0000000 then
    if ← isvalid s i then return u
    throw (.stringIndexError i)
  let n := ncodeunits s
  let i := i + 1
  if i ≥ n then return u
  let b ← codeunit s i -- cont byte 1
  if ¬isContinuation b then return u
  let u := u ||| (b.zeroExtend 32 <<< 16)
  let i := i + 1
  if i ≥ n ∨ u < 0xe0000000 then return u
  let b ← codeunit s i -- cont byte 2
  if ¬isContinuation b then return u
  let u := u ||| (b.zeroExtend 32 <<< 8)
  let i := i + 1
  if i ≥ n ∨ u < 0xf0000000 then return u
  let b ← codeunit s i -- cont byte 3
  if ¬isContinuation b then return u
  return u ||| b.zeroExtend 32

def getindex (s : Str) (i : ℤ) : Except Error Chr := do
  let b ← codeunit s i
  let u : Chr := b.zeroExtend 32 <<< 24
  if ¬between b 0x80 0xf7 then return u
  getindexContinued s i u

-- The two nested loops of `_length_continued` at index `i` with byte `b` read there.
-- `left` is the distance to the last index, so that `(i += 1) ≤ n` is `left ≠ 0`.
def lengthLoop (s : Str) : ℕ → ℤ → Byte → ℤ → Except Error ℤ
  | 0, _, _, c => return c
  | left + 1, i, b, c => do
      if ¬(0xc0 ≤ b ∧ b ≤ 0xf7) then
        let b ← codeunit s (i + 1)
        lengthLoop s left (i + 1) b c
      else
        let l := b
        let b ← codeunit s (i + 1) -- cont byte 1
        let x := isContinuation b
        let c := c - x.toInt
        if ¬(x ∧ l ≥ 0xe0) then lengthLoop s left (i + 1) b c
        else match left with
          | 0 => return c
          | left + 1 => do
              let b ← codeunit s (i + 2) -- cont byte 2
              let x := isContinuation b
              let c := c - x.toInt
              if ¬(x ∧ l ≥ 0xf0) then lengthLoop s left (i + 2) b c
              else match left with
                | 0 => return c
                | left + 1 => do
                    let b ← codeunit s (i + 3) -- cont byte 3
                    let c := c - (isContinuation b).toInt
                    lengthLoop s left (i + 3) b c

def lengthContinued (s : Str) (i n c : ℤ) : Except Error ℤ := do
  if ¬(i < n) then return c
  let b ← codeunit s i
  lengthLoop s (n - i).toNat i b c

def length (s : Str) : Except Error ℤ := lengthContinued s 0 (ncodeunits s - 1) (ncodeunits s)

def lengthBetween (s : Str) (i j : ℤ) : Except Error ℤ := do
  if ¬(0 ≤ i ∧ i ≤ ncodeunits s) then throw (.boundsError i)
  if ¬(-1 ≤ j ∧ j < ncodeunits s) then throw (.boundsError j)
  if j < i then return 0
  let k := i
  let i ← thisind s i
  let c := j - i + (decide (i = k)).toInt
  lengthContinued s i j c

-- basic.jl: the loop of `prevind`, from an index `i ≥ 0`.
def previndLoop (s : Str) : ℕ → ℤ → Except Error ℤ
  | 0, n => return 0 - n
  | i + 1, n => do
      if ¬(n > 0) then return (i + 1 : ℕ) - n
      let valid ← isvalid s i
      previndLoop s i (n - valid.toInt)

def previndN (s : Str) (i n : ℤ) : Except Error ℤ := do
  if n < 0 then throw (.argumentError s!"n cannot be negative: {n}")
  let z := ncodeunits s
  if ¬(0 ≤ i ∧ i ≤ z) then throw (.boundsError i)
  if n = 0 then
    if (← thisind s i) = i then return i else throw (.stringIndexError i)
  previndLoop s i.toNat n

def prevind (s : Str) (i : ℤ) : Except Error ℤ := previndN s i 1

-- The loop of `nextind`; `left` is the distance from `i` to the last index.
def nextindLoop (s : Str) : ℕ → ℤ → ℤ → Except Error ℤ
  | 0, i, n => return wrap (i + n)
  | left + 1, i, n => do
      if ¬(n > 0) then return wrap (i + n)
      let valid ← isvalid s (i + 1)
      nextindLoop s left (i + 1) (n - valid.toInt)

def nextindN (s : Str) (i n : ℤ) : Except Error ℤ := do
  if n < 0 then throw (.argumentError s!"n cannot be negative: {n}")
  let z := ncodeunits s - 1
  if ¬(-1 ≤ i ∧ i ≤ z) then throw (.boundsError i)
  if n = 0 then
    if (← thisind s i) = i then return i else throw (.stringIndexError i)
  nextindLoop s (z - i).toNat i n

-- io.jl: the bytes `write(io, c)` writes, from the byte-swapped value on.
def writeLoop : ℕ → BitVec 32 → List Byte
  | 0, _ => []
  | k + 1, u => u.truncate 8 :: if u >>> 8 = 0 then [] else writeLoop k (u >>> 8)

def bswap (u : BitVec 32) : BitVec 32 :=
  u.extractLsb' 0 8 ++ u.extractLsb' 8 8 ++ u.extractLsb' 16 8 ++ u.extractLsb' 24 8

-- Four passes, since no byte is left after four shifts.
def writeChar (c : Chr) : List Byte := writeLoop 4 (bswap c)

end Joolia.Strings
