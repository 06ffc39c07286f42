import Joolia.Base.Char

namespace Joolia.Strings

-- A character and a text of ASCII letters.
def lit (c : Char) : Chr := BitVec.ofNat 32 c.toNat <<< 24

def text (t : String) : List Byte := t.toList.map fun c => BitVec.ofNat 8 c.toNat

-- The characters that `Iterators.Stateful(s)` goes through. Each one has a byte of its
-- own, so `ncodeunits(s)` passes reach the end.
def charsFrom (s : Str) : ℕ → ℤ → Except Error (List Chr)
  | 0, _ => return []
  | k + 1, i => do
      match ← iterate s i with
      | none => return []
      | some (c, j) => return c :: (← charsFrom s k j)

def chars (s : Str) : Except Error (List Chr) := charsFrom s (s.data.length + 1) 0

-- intfuncs.jl: the digits of `hex`, written from the last place to the first, two at a
-- time; `n` is the number of places that are left.
def hexDigit (d : Byte) : Byte := d + if d > 0x9 then 0x57 else 0x30

def hexLoop {w : ℕ} : ℕ → BitVec w → List Byte → List Byte
  | 0, _, str => str
  | 1, x, str => hexDigit (x.truncate 8 &&& 0xf) :: str
  | n + 2, x, str =>
      let b : Byte := x.truncate 8
      hexLoop n (x >>> 8) (hexDigit (b >>> 4) :: hexDigit (b &&& 0xf) :: str)

-- `string(x, base = 16, pad = pad)` for a word of `w` bits.
def hex {w : ℕ} (x : BitVec w) (pad : ℕ) : List Byte :=
  let m := 2 * (w / 8) - (x.clz.toNat >>> 2)
  let n := max pad m
  hexLoop n x []

def isxdigit (c : Chr) : Bool :=
  lit '0' ≤ c ∧ c ≤ lit '9' ∨ lit 'a' ≤ c ∧ c ≤ lit 'f' ∨ lit 'A' ≤ c ∧ c ≤ lit 'F'

def needFullHex (c : Option Chr) : Bool := c.any isxdigit

def escapeNul (c : Option Chr) : List Byte :=
  if c.any fun c => lit '0' ≤ c ∧ c ≤ lit '7' then text "\\x00" else text "\\0"

-- The bytes of a malformed or overlong character, from the byte-swapped value on.
def escapeBytes : ℕ → BitVec 32 → List Byte
  | 0, _ => []
  | k + 1, u =>
      text "\\x" ++ hex (u.truncate 8 : Byte) 2 ++ if u >>> 8 = 0 then [] else escapeBytes k (u >>> 8)

section Escape

variable (utf8procCategory : BitVec 32 → ℕ) (esc keep : List Chr) (ascii fullhex : Bool)

-- One pass of the loop of `escape_string`; `peek` is the character after `c`.
def escapeChar (c : Chr) (peek : Option Chr) : Except Error (List Byte) := do
  if c ∈ esc then return writeChar (lit '\\') ++ writeChar c
  if c ∈ keep then return writeChar c
  if isascii c then
    if c = lit '\x00' then return escapeNul peek
    if c = lit '\x1b' then return text "\\e"
    if c = lit '\\' then return text "\\\\"
    if lit '\x07' ≤ c ∧ c ≤ lit '\x0d' then
      let letter ← getindex ⟨text "abtnvfr", by decide⟩ ((← codepoint c).toNat - 7)
      return writeChar (lit '\\') ++ writeChar letter
    if isprint utf8procCategory c then return writeChar c
    return text "\\x" ++ hex (← codepoint c) 2
  if ¬isoverlong c ∧ ¬ismalformed c then
    if ¬ascii ∧ isprint utf8procCategory c then return writeChar c
    if c ≤ lit '\x7f' then return text "\\x" ++ hex (← codepoint c) 2
    -- `'\uffff'`
    if c ≤ 0xefbfbf00 then
      return text "\\u" ++ hex (← codepoint c) (if fullhex ∨ needFullHex peek then 4 else 2)
    return text "\\U" ++ hex (← codepoint c) (if fullhex ∨ needFullHex peek then 8 else 4)
  return escapeBytes 4 (bswap c)

def escapeLoop : List Chr → Except Error (List Byte)
  | [] => return []
  | c :: a => do
      let out ← escapeChar utf8procCategory esc keep ascii fullhex c a.head?
      return out ++ (← escapeLoop a)

def escapeString (s : Str) : Except Error (List Byte) := do
  escapeLoop utf8procCategory esc keep ascii fullhex (← chars s)

def printQuoted (s : Str) : Except Error (List Byte) := do
  let escaped ← escapeString utf8procCategory [lit '"', lit '$'] [] false false s
  return text "\"" ++ escaped ++ text "\""

end Escape

section Raw

variable (delim : Chr)

-- The loop of `escape_raw_string` and the backslashes behind it: the bytes, and `total`.
def escapeRawLoop (total escapes : ℕ) : List Chr → List Byte × ℕ
  | [] => ((List.replicate escapes (text "\\")).flatten, total + escapes)
  | c :: s =>
      if c = lit '\\' then
        let (out, total) := escapeRawLoop total (escapes + 1) s
        (writeChar c ++ out, total)
      else if c = delim then
        let (out, total) := escapeRawLoop (total + (escapes + 1)) 0 s
        ((List.replicate (escapes + 1) (text "\\")).flatten ++ writeChar c ++ out, total)
      else
        let (out, total) := escapeRawLoop total 0 s
        (writeChar c ++ out, total)

-- The string itself is returned when nothing has to be escaped.
def escapeRawString (s : Str) : Except Error (List Byte) := do
  let (out, total) := escapeRawLoop delim 0 0 (← chars s)
  return if total = 0 then s.data else out

end Raw

section Unescape

-- `x - y` for characters.
def charDiff (x y : Chr) : Except Error ℤ := do
  return ((← codepoint x).toNat : ℤ) - (← codepoint y).toNat

-- The loop that reads up to `m` hexadecimal digits: the counter, the value and the
-- characters that are left.
def scanHex (m : ℕ) : ℕ → ℤ → List Chr → Except Error (ℕ × ℤ × List Chr)
  | k, n, [] => return (k + 1, n, [])
  | k, n, nc :: a => do
      if ¬(k + 1 ≤ m) then return (k + 1, n, nc :: a)
      if lit '0' ≤ nc ∧ nc ≤ lit '9' then scanHex m (k + 1) (n <<< (4 : ℕ) + (← charDiff nc (lit '0'))) a
      else if lit 'a' ≤ nc ∧ nc ≤ lit 'f' then scanHex m (k + 1) (n <<< (4 : ℕ) + ((← charDiff nc (lit 'a')) + 10)) a
      else if lit 'A' ≤ nc ∧ nc ≤ lit 'F' then scanHex m (k + 1) (n <<< (4 : ℕ) + ((← charDiff nc (lit 'A')) + 10)) a
      else return (k + 1, n, nc :: a)

-- The loop that reads up to two more octal digits.
def scanOctal : ℕ → ℤ → List Chr → Except Error (ℤ × List Chr)
  | _, n, [] => return (n, [])
  | k, n, c :: a => do
      if ¬(k + 1 ≤ 3) then return (n, c :: a)
      if lit '0' ≤ c ∧ c ≤ lit '7' then scanOctal (k + 1) (n <<< (3 : ℕ) + (← charDiff c (lit '0'))) a
      else return (n, c :: a)

-- `write(io, UInt8(n))`
def writeByte (n : ℤ) : Except Error (List Byte) :=
  if 0 ≤ n ∧ n ≤ 255 then .ok [BitVec.ofInt 8 n] else .error (.inexactError n)

-- The letters that stand for a character after a backslash.
def unescapeLetter (c : Chr) : Except Error Chr :=
  if c = lit 'a' then .ok (lit '\x07')
  else if c = lit 'b' then .ok (lit '\x08')
  else if c = lit 't' then .ok (lit '\t')
  else if c = lit 'n' then .ok (lit '\n')
  else if c = lit 'v' then .ok (lit '\x0b')
  else if c = lit 'f' then .ok (lit '\x0c')
  else if c = lit 'r' then .ok (lit '\r')
  else if c = lit 'e' then .ok (lit '\x1b')
  else if c = lit '\\' ∨ c = lit '"' then .ok c
  else .error (.invalidEscapeSequence c)

-- What stands after a backslash: the bytes written and the characters that are left.
def unescapeAfter (keep : List Chr) (c : Chr) (a : List Chr) : Except Error (List Byte × List Chr) := do
  if c ∈ keep then return (writeChar (lit '\\') ++ writeChar c, a)
  if c = lit 'x' ∨ c = lit 'u' ∨ c = lit 'U' then
    let m := if c = lit 'x' then 2 else if c = lit 'u' then 4 else 8
    let (k, n, a) ← scanHex m 0 0 a
    if k = 1 ∨ n > 0x10ffff then
      throw (.argumentError (if m = 2 then "invalid hex (\\x) escape sequence"
        else if m = 4 then "invalid unicode (\\u) escape sequence" else "invalid unicode (\\U) escape sequence"))
    if m = 2 then return (← writeByte n, a)
    return (writeChar (← charOfCodepoint (BitVec.ofInt 32 n)), a)
  if lit '0' ≤ c ∧ c ≤ lit '7' then
    let (n, a) ← scanOctal 1 (← charDiff c (lit '0')) a
    if n > 255 then throw (.argumentError "octal escape sequence out of range")
    return (← writeByte n, a)
  return (writeChar (← unescapeLetter c), a)

-- Every pass takes a character, so as many passes as characters reach the end.
def unescapeLoop (keep : List Chr) : ℕ → List Chr → Except Error (List Byte)
  | 0, _ => return []
  | _ + 1, [] => return []
  | k + 1, c :: a => do
      if ¬a.isEmpty ∧ c = lit '\\' then
        match a with
        | [] => return []
        | c :: a =>
            let (out, a) ← unescapeAfter keep c a
            return out ++ (← unescapeLoop keep k a)
      else return writeChar c ++ (← unescapeLoop keep k a)

def unescapeString (s : Str) (keep : List Chr) : Except Error (List Byte) := do
  let a ← chars s
  unescapeLoop keep a.length a

end Unescape

end Joolia.Strings
