import Joolia.Base.Strings

namespace Joolia.Strings

def leadingOnes (u : BitVec 32) : ℕ := (~~~u).clz.toNat

def trailingZeros (u : BitVec 32) : ℕ := u.ctz.toNat

def ismalformed (c : Chr) : Bool :=
  let u := c
  let l1 := leadingOnes u <<< 3
  let t0 := trailingZeros u &&& 56
  l1 = 8 ∨ l1 + t0 > 32 ∨ ((u &&& 0x00c0c0c0#32) ^^^ 0x00808080#32) >>> t0 ≠ 0

def isoverlong (c : Chr) : Bool := c >>> 24 = 0xc0 ∨ c >>> 24 = 0xc1 ∨ c >>> 21 = 0x0704 ∨ c >>> 20 = 0x0f08

def isascii (c : Chr) : Bool := bswap c < 0x80

-- `UInt32(c)` for a character that is not malformed.
def unsafeCodepoint (c : Chr) : BitVec 32 :=
  let u := c
  if u < 0x80000000#32 then u >>> 24
  else
    let l1 := leadingOnes u
    let t0 := trailingZeros u &&& 56
    let u := u &&& (0xffffffff#32 >>> l1)
    let u := u >>> t0
    ((u &&& 0x0000007f#32) >>> 0) ||| ((u &&& 0x00007f00#32) >>> 2) ||| ((u &&& 0x007f0000#32) >>> 4) ||| ((u &&& 0x7f000000#32) >>> 6)

-- `UInt32(c)`, with the checks that `unsafe_codepoint` leaves out.
def codepoint (c : Chr) : Except Error (BitVec 32) := do
  let u := c
  if u < 0x80000000#32 then return u >>> 24
  let l1 := leadingOnes u
  let t0 := trailingZeros u &&& 56
  if l1 = 1 ∨ 8 * l1 + t0 > 32 ∨ ((u &&& 0x00c0c0c0#32) ^^^ 0x00808080#32) >>> t0 ≠ 0 then throw (.invalidCharError c)
  return unsafeCodepoint c

-- `Char(u)`
def charOfCodepoint (u : BitVec 32) : Except Error Chr := do
  if u < 0x80 then return u <<< 24
  if ¬(u < 0x00200000#32) then throw (.codePointError u)
  let c := ((u <<< 0) &&& 0x0000003f#32) ||| ((u <<< 2) &&& 0x00003f00#32) ||| ((u <<< 4) &&& 0x003f0000#32) ||| ((u <<< 6) &&& 0x3f000000#32)
  return if u < 0x00000800#32 then (c <<< 16) ||| 0xc0800000#32
    else if u < 0x00010000#32 then (c <<< 8) ||| 0xe0808000#32
    else (c <<< 0) ||| 0xf0808080#32

section Unicode

-- The general category of a code point, from the library utf8proc.
variable (utf8procCategory : BitVec 32 → ℕ)

def categoryCode (c : Chr) : ℕ :=
  if ¬ismalformed c then
    let x := unsafeCodepoint c
    if x ≤ 0x10ffff then utf8procCategory x else 30
  else 31

def isspace (c : Chr) : Bool :=
  c == 0x20000000 || (decide (0x09000000 ≤ c) && decide (c ≤ 0x0d000000)) || c == 0xc2850000 ||
    (decide (0xc2a00000 ≤ c) && categoryCode utf8procCategory c == 23)

-- The categories from `LU` to `ZS`.
def isprint (c : Chr) : Bool := 1 ≤ categoryCode utf8procCategory c ∧ categoryCode utf8procCategory c ≤ 23

end Unicode

end Joolia.Strings
