import Joolia.Base.Escape

namespace Joolia.JuliaSyntax

open Strings

structure Diagnostic where
  firstByte : ℕ
  lastByte : ℕ
  level : String
  message : String
deriving DecidableEq, Repr

-- The byte of an ASCII character, `u8"c"`.
def u8 (c : Char) : Byte := BitVec.ofNat 8 c.toNat

-- `txtbuf[i]` for the indices from `firstind` up to `endind`.
def slice (txtbuf : List Byte) (firstind endind : ℕ) : Except Error (List Byte) :=
  if endind ≤ txtbuf.length ∨ endind ≤ firstind then .ok ((txtbuf.take endind).drop firstind)
  else .error (.boundsError txtbuf.length)

-- A carriage return, with the line feed after it, is a line feed.
def newline (c : Byte) (txt : List Byte) : Byte × List Byte :=
  if c = u8 '\r' then (u8 '\n', if txt.head? = some (u8 '\n') then txt.tail else txt) else (c, txt)

section Raw

-- The bytes from `i` on are the list. Every pass takes one of them, so as many passes as
-- there are bytes reach the end.
def unescapeRawLoop (delim : Byte) : ℕ → List Byte → List Byte
  | 0, _ => []
  | _ + 1, [] => []
  | fuel + 1, c :: txt =>
      if c ≠ u8 '\\' then
        let (c, txt) := newline c txt
        c :: unescapeRawLoop delim fuel txt
      else
        let run := (c :: txt).takeWhile (· = u8 '\\')
        let rest := (c :: txt).dropWhile (· = u8 '\\')
        let nbackslash := if rest.head? = some delim ∨ rest = [] then run.length / 2 else run.length
        List.replicate nbackslash (u8 '\\') ++
          match rest with
          | [] => []
          | d :: rest => d :: unescapeRawLoop delim fuel rest

def unescapeRawString (txtbuf : List Byte) (firstind endind : ℕ) (isCmd : Bool) : Except Error (List Byte) := do
  let delim := if isCmd then u8 '`' else u8 '"'
  let txt ← slice txtbuf firstind endind
  return unescapeRawLoop delim txt.length txt

end Raw

section Julia

-- What is written, the diagnostics, and `had_error`.
structure Unescaped where
  out : List Byte
  diagnostics : List Diagnostic
  hadError : Bool
deriving DecidableEq, Repr

namespace Unescaped

def write (bytes : List Byte) : Unescaped := ⟨bytes, [], false⟩

def emitDiagnostic (firstByte lastByte : ℕ) (error : String) : Unescaped := ⟨[], [⟨firstByte, lastByte, "error", error⟩], true⟩

def append (u v : Unescaped) : Unescaped := ⟨u.out ++ v.out, u.diagnostics ++ v.diagnostics, u.hadError || v.hadError⟩

end Unescaped

-- The loop that reads up to `m` hexadecimal digits: the counter, the value and the bytes
-- that are left.
def scanHex (m : ℕ) : ℕ → ℤ → List Byte → ℕ × ℤ × List Byte
  | k, n, [] => (k + 1, n, [])
  | k, n, nc :: txt =>
      if ¬(k + 1 ≤ m) then (k + 1, n, nc :: txt)
      else if u8 '0' ≤ nc ∧ nc ≤ u8 '9' then scanHex m (k + 1) (n <<< (4 : ℕ) + ((nc - u8 '0').toNat : ℤ)) txt
      else if u8 'a' ≤ nc ∧ nc ≤ u8 'f' then scanHex m (k + 1) (n <<< (4 : ℕ) + (((nc - u8 'a').toNat : ℤ) + 10)) txt
      else if u8 'A' ≤ nc ∧ nc ≤ u8 'F' then scanHex m (k + 1) (n <<< (4 : ℕ) + (((nc - u8 'A').toNat : ℤ) + 10)) txt
      else (k + 1, n, nc :: txt)

-- The loop that reads up to two more octal digits.
def scanOctal : ℕ → ℤ → List Byte → ℤ × List Byte
  | _, n, [] => (n, [])
  | k, n, c :: txt =>
      if ¬(k + 1 ≤ 3) then (n, c :: txt)
      else if u8 '0' ≤ c ∧ c ≤ u8 '7' then scanOctal (k + 1) (n <<< (3 : ℕ) + (c.toNat : ℤ) - (u8 '0').toNat) txt
      else (n, c :: txt)

-- The bytes that stand for another one, or for themselves, after a backslash.
def unescapeByte (c : Byte) : Option Byte :=
  if c = u8 'n' then some (u8 '\n')
  else if c = u8 't' then some (u8 '\t')
  else if c = u8 'r' then some (u8 '\r')
  else if c = u8 'e' then some (u8 '\x1b')
  else if c = u8 'b' then some (u8 '\x08')
  else if c = u8 'f' then some (u8 '\x0c')
  else if c = u8 'v' then some (u8 '\x0b')
  else if c = u8 'a' then some (u8 '\x07')
  else if c = u8 '\\' ∨ c = u8 '\x27' ∨ c = u8 '"' ∨ c = u8 '$' ∨ c = u8 '`' then some c
  else none

-- An escape sequence behind its backslash at `escstart`. With `txt` left, the last byte
-- that has been read is the one before `endind - txt.length`.
def unescapeSequence (endind escstart : ℕ) (c : Byte) (txt : List Byte) : Except Error (Unescaped × List Byte) := do
  if c = u8 'x' ∨ c = u8 'u' ∨ c = u8 'U' then
    let m := if c = u8 'x' then 2 else if c = u8 'u' then 4 else 8
    let (k, n, txt) := scanHex m 0 0 txt
    if k = 1 ∨ n > 0x10ffff then
      let msg := if m = 2 then "invalid hex escape sequence" else "invalid unicode escape sequence"
      return (.emitDiagnostic escstart (endind - txt.length - 1) msg, txt)
    if m = 2 then return (.write (← writeByte n), txt)
    return (.write (writeChar (← charOfCodepoint (BitVec.ofInt 32 n))), txt)
  if u8 '0' ≤ c ∧ c ≤ u8 '7' then
    let (n, txt) := scanOctal 1 (c - u8 '0').toNat txt
    if n > 255 then
      return (.emitDiagnostic escstart (endind - txt.length - 1) "invalid octal escape sequence", txt)
    return (.write (← writeByte n), txt)
  match unescapeByte c with
  | none => return (.emitDiagnostic escstart (endind - txt.length - 1) "invalid escape sequence", txt)
  | some u => return (.write [u], txt)

def unescapeJuliaLoop (endind : ℕ) : ℕ → List Byte → Except Error Unescaped
  | 0, _ => return .write []
  | _ + 1, [] => return .write []
  | fuel + 1, c :: txt => do
      if c ≠ u8 '\\' then
        let (c, txt) := newline c txt
        return (Unescaped.write [c]).append (← unescapeJuliaLoop endind fuel txt)
      else
        let escstart := endind - (txt.length + 1)
        match txt with
        | [] => return .emitDiagnostic escstart (endind - 1) "invalid escape sequence"
        | c :: txt =>
            let (u, txt) ← unescapeSequence endind escstart c txt
            return u.append (← unescapeJuliaLoop endind fuel txt)

def unescapeJuliaString (txtbuf : List Byte) (firstind endind : ℕ) : Except Error Unescaped := do
  let txt ← slice txtbuf firstind endind
  unescapeJuliaLoop endind txt.length txt

end Julia

end Joolia.JuliaSyntax
