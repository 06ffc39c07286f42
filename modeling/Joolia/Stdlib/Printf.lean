import Joolia.Library.Fallible
import Mathlib.Algebra.Ring.Nat
import Mathlib.Algebra.Ring.Int.Defs

namespace Joolia.Printf

open Fallible

inductive FormatError
  | InvalidFormatStringError (message : String) (start_color end_color : ℕ)
  | BoundsError
  | endless
deriving DecidableEq, Repr

structure Spec where
  type : UInt8
  leftalign : Bool
  plus : Bool
  space : Bool
  zero : Bool
  hash : Bool
  width : ℤ
  precision : ℤ
  dynamic_width : Bool
  dynamic_precision : Bool
deriving DecidableEq, Repr

structure UnitRange where
  start : ℤ
  stop : ℤ
deriving DecidableEq, Repr

structure Format where
  str : List UInt8
  substringranges : List UnitRange
  formats : List Spec
  numarguments : ℕ
deriving DecidableEq, Repr

def int64 (x : ℤ) : ℤ := x.bmod (2 ^ 64)

-- `UInt8(c)`
def byte (c : Char) : UInt8 := c.toNat.toUInt8

def bytesOf (s : String) : List UInt8 := s.toList.map byte

section Categories

def isInts (b : UInt8) : Bool := (bytesOf "diuxXo").contains b

def isFloats (b : UInt8) : Bool := (bytesOf "eEfFgGaA").contains b

def isChars (b : UInt8) : Bool := (bytesOf "cC").contains b

def isStrings (b : UInt8) : Bool := (bytesOf "sS").contains b

def isDigit (b : UInt8) : Bool := byte '0' ≤ b && b ≤ byte '9'

end Categories

section Parse

-- The byte `b` that was read last, the position after it and the bytes from there on
structure Cursor where
  pos : ℕ
  b : UInt8
  rest : List UInt8
deriving DecidableEq, Repr

-- `b = bytes[pos]; pos += 1`
def Cursor.next (cur : Cursor) : Except FormatError Cursor :=
  match cur.rest with
  | [] => .error .BoundsError
  | b :: rest => .ok ⟨cur.pos + 1, b, rest⟩

-- The same where the end of the string is tested first
def Cursor.nextOr (cur : Cursor) (message : String) (last_percent_pos : ℕ) : Except FormatError Cursor :=
  match cur.rest with
  | [] => .error (.InvalidFormatStringError message last_percent_pos (cur.pos - 1))
  | b :: rest => .ok ⟨cur.pos + 1, b, rest⟩

-- Up to the next specifier; both occurrences of the loop in the source
def skip (pos : ℕ) (b : UInt8) : List UInt8 → Except FormatError Cursor
  | [] => .ok ⟨pos, b, []⟩
  | c :: rest =>
      if c = byte '%' then
        match rest with
        | [] => .error (.InvalidFormatStringError "Format specifier is incomplete" pos pos)
        | d :: rest' => if d = byte '%' then skip (pos + 2) d rest' else .ok ⟨pos + 1, c, d :: rest'⟩
      else skip (pos + 1) c rest

structure Flags where
  leftalign : Bool
  plus : Bool
  space : Bool
  zero : Bool
  hash : Bool
deriving DecidableEq, Repr

def Flags.set (flags : Flags) (b : UInt8) : Option Flags :=
  if b = byte '-' then some { flags with leftalign := true }
  else if b = byte '+' then some { flags with plus := true }
  else if b = byte ' ' then some { flags with space := true }
  else if b = byte '0' then some { flags with zero := true }
  else if b = byte '#' then some { flags with hash := true }
  else none

def parseFlags (last_percent_pos : ℕ) (flags : Flags) (pos : ℕ) (b : UInt8) (rest : List UInt8) : Except FormatError (Flags × Cursor) :=
  match flags.set b, rest with
  | none, _ => .ok (flags, ⟨pos, b, rest⟩)
  | some _, [] => .error (.InvalidFormatStringError "Format specifier is incomplete" last_percent_pos (pos - 1))
  | some flags, c :: rest => parseFlags last_percent_pos flags (pos + 1) c rest

-- The loop over the digits of a width or a precision
def parseDigits (value : ℤ) (pos : ℕ) (b : UInt8) (rest : List UInt8) : Except FormatError (ℤ × Cursor) :=
  match rest with
  | [] => if isDigit b then .error .BoundsError else .ok (value, ⟨pos, b, []⟩)
  | c :: rest =>
      if isDigit b then
        let value := int64 (10 * value + (b - byte '0').toNat)
        if rest = [] then .ok (value, ⟨pos + 1, c, []⟩) else parseDigits value (pos + 1) c rest
      else .ok (value, ⟨pos, b, c :: rest⟩)

def parseWidth (cur : Cursor) : Except FormatError (ℤ × Bool × Cursor) :=
  if cur.b = byte '*' then do
    let cur ← cur.next
    return (0, true, cur)
  else do
    let (width, cur) ← parseDigits 0 cur.pos cur.b cur.rest
    return (width, false, cur)

structure Precision where
  precision : ℤ
  parsedprecdigits : Bool
  dynamic_precision : Bool
deriving DecidableEq, Repr

def parsePrecision (last_percent_pos : ℕ) (cur : Cursor) : Except FormatError (Precision × Cursor) :=
  if cur.b = byte '.' then do
    let cur ← cur.nextOr "Precision specifier is missing precision" last_percent_pos
    if cur.rest ≠ [] then
      if cur.b = byte '*' then do
        let cur ← cur.next
        return (⟨0, true, true⟩, cur)
      else do
        let (precision, cur) ← parseDigits 0 cur.pos cur.b cur.rest
        return (⟨precision, true, false⟩, cur)
    else return (⟨0, true, false⟩, cur)
  else return (⟨0, false, false⟩, cur)

def parseModifier (last_percent_pos : ℕ) (cur : Cursor) : Except FormatError Cursor :=
  if cur.b = byte 'h' ∨ cur.b = byte 'l' then do
    let prev := cur.b
    let cur ← cur.nextOr "Length modifier is missing type specifier" last_percent_pos
    if cur.b = prev then cur.nextOr "Length modifier is missing type specifier" last_percent_pos else return cur
  else if (bytesOf "Ljqtz").contains cur.b then cur.nextOr "Length modifier is missing type specifier" last_percent_pos
  else return cur

def typeMessage (c : Char) : String := s!"'{c}' is not a valid type specifier"

def parseType (last_percent_pos : ℕ) (flags : Flags) (width : ℤ) (dynamic_width : Bool) (prec : Precision) (cur : Cursor) :
    Except FormatError Spec :=
  if ¬(bytesOf "diouxXDOUeEfFgGaAcCsSpn").contains cur.b then
    .error (.InvalidFormatStringError (typeMessage (Char.ofNat cur.b.toNat)) last_percent_pos (cur.pos - 1))
  else
    let zero := flags.zero && !flags.leftalign
    let zero := if isInts cur.b && prec.precision > 0 then false else zero
    let precision :=
      if isInts cur.b && prec.precision > 0 then prec.precision
      else if (isStrings cur.b || isChars cur.b) && !prec.parsedprecdigits then -1
      else if (cur.b = byte 'a' || cur.b = byte 'A') && !prec.parsedprecdigits then -1
      else if isFloats cur.b && !prec.parsedprecdigits then 6
      else prec.precision
    .ok ⟨cur.b, flags.leftalign, flags.plus, flags.space, zero, flags.hash, width, precision, dynamic_width, prec.dynamic_precision⟩

-- A specifier after its percent sign, with the number of its asterisks
def parseSpec (last_percent_pos : ℕ) (cur : Cursor) : Except FormatError (Spec × ℕ × Cursor) := do
  let (flags, cur) ← parseFlags last_percent_pos ⟨false, false, false, false, false⟩ cur.pos cur.b cur.rest
  let (width, dynamic_width, cur) ← parseWidth cur
  let (prec, cur) ← parsePrecision last_percent_pos cur
  let cur ← parseModifier last_percent_pos cur
  let spec ← parseType last_percent_pos flags width dynamic_width prec cur
  return (spec, dynamic_width.toNat + prec.dynamic_precision.toNat, cur)

-- The text up to the next specifier, the specifier and what follows it. In the source the text before the first specifier stands
-- ahead of the main loop, and the text after a specifier at the end of its body.
def parseText : ℕ → ℕ → UInt8 → List UInt8 → Except FormatError (List Spec × List UnitRange × ℕ)
  | 0, _, _, _ => .error .endless
  | fuel + 1, start, b, rest => do
      let cur ← skip start b rest
      let text : UnitRange := ⟨start, cur.pos - 1 - (if cur.b = byte '%' then 1 else 0)⟩
      match cur.rest with
      | [] => return ([], [text], 0)
      | c :: rest =>
          let (spec, stars, cur) ← parseSpec (cur.pos - 1) ⟨cur.pos + 1, c, rest⟩
          let (fmts, strs, numarguments) ← parseText fuel cur.pos cur.b cur.rest
          return (spec :: fmts, text :: strs, stars + 1 + numarguments)

def Format.new (f : List UInt8) : Except FormatError Format := do
  let (fmts, strs, numarguments) ← parseText (f.length + 1) 0 0 f
  return ⟨f, strs, fmts, numarguments⟩

end Parse

section Text

-- A substring as `format` writes it, with the `escapechar` it leaves for the next one
def writeText : Bool → List UInt8 → List UInt8 × Bool
  | escapechar, [] => ([], escapechar)
  | true, _ :: bytes => writeText false bytes
  | false, b :: bytes =>
      let (written, escapechar) := writeText (b = byte '%') bytes
      (b :: written, escapechar)

-- `f.str[i]` for the indices `i` of a range
def substring (str : List UInt8) (r : UnitRange) : List UInt8 := (str.drop r.start.toNat).take (r.stop - r.start + 1).toNat

end Text

end Joolia.Printf
