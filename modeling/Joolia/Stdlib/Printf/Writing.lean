import Joolia.Base.Char
import Joolia.Base.IntFuncs
import Joolia.Stdlib.Printf

namespace Joolia.Printf

open Strings (Chr bswap ismalformed isoverlong unsafeCodepoint charOfCodepoint)
open IntFuncs (IntType MachineInt)

-- A string is the sequence of its characters, whose encodings are its bytes.
inductive Arg
  | int (T : IntType) (n : MachineInt T)
  | char (c : Chr)
  | str (s : List Chr)

inductive PrintError
  | TypeError
  | InexactError
  | OverflowError
  | BoundsError
  | MethodError
  -- the conversions of floats, pointers and counters are left out
  | NotModelled
  | Number (e : IntFuncs.TextError)
  | Character (e : Strings.Error)
deriving DecidableEq

section Widths

variable (utf8proc_charwidth : BitVec 32 → ℤ)

-- `ncodeunits(c::Char)`
def ncodeunits (c : Chr) : ℤ := 4 - ((c.ctz.toNat / 8 : ℕ) : ℤ) + (if c = 0 then 1 else 0)

-- `textwidth(c::Char)`
def textwidth (c : Chr) : ℤ :=
  let b := bswap c
  if b < 0x7f then (if b ≥ 0x20 then 1 else 0)
  else if ismalformed c || isoverlong c then 1
  else utf8proc_charwidth (unsafeCodepoint c)

-- `textwidth(s::String)` and `sizeof(s)`
def textwidthStr (s : List Chr) : ℤ := (s.map (textwidth utf8proc_charwidth)).sum

def sizeofStr (s : List Chr) : ℤ := (s.flatMap Strings.writeChar).length

end Widths

section Arguments

def argAt (args : List Arg) (argp : ℕ) : Except PrintError Arg :=
  match args[argp]? with
  | some arg => .ok arg
  | none => .error .BoundsError

-- `args[argp]::Integer`
def Arg.integer : Arg → Except PrintError ℤ
  | .int _ n => .ok n.val
  | _ => .error .TypeError

-- The conversion to `Int` of a field of `Spec`
def toInt (x : ℤ) : Except PrintError ℤ := if -2 ^ 63 ≤ x ∧ x < 2 ^ 63 then .ok x else .error .InexactError

-- `Char(first(arg))`
def Arg.first : Arg → Except PrintError Chr
  | .char c => .ok c
  | .str (c :: _) => .ok c
  | .str [] => .error .BoundsError
  | .int _ n =>
      if 0 ≤ n.val ∧ n.val < 2 ^ 32 then
        match charOfCodepoint (BitVec.ofInt 32 n.val) with
        | .ok c => .ok c
        | .error e => .error (.Character e)
      else .error .InexactError

-- `string(arg)`
def Arg.string : Arg → Except PrintError (List Chr)
  | .str s => .ok s
  | .char c => .ok [c]
  | .int T n =>
      match IntFuncs.string (fun _ => 0) T n 10 1 with
      | .ok text => .ok (text.map fun b => BitVec.ofNat 32 b.toNat <<< 24)
      | .error e => .error (.Number e)

def Arg.isString : Arg → Bool
  | .str _ => true
  | _ => false

-- A field that is read from the arguments, with the position behind it
def dynamicField (dynamic : Bool) (field : ℤ) (args : List Arg) (argp : ℕ) : Except PrintError (ℤ × ℕ) :=
  if dynamic then do
    let arg ← argAt args argp
    let x ← arg.integer
    return (x, argp + 1)
  else .ok (field, argp)

def rmdynamic (spec : Spec) (args : List Arg) (argp : ℕ) : Except PrintError (Spec × ℕ) := do
  let (width, argp) ← dynamicField spec.dynamic_width spec.width args argp
  let (precision, argp) ← dynamicField spec.dynamic_precision spec.precision args argp
  let zero := if spec.dynamic_precision && spec.zero && isInts spec.type && precision > 0 then false else spec.zero
  let width ← toInt width
  let precision ← toInt precision
  return ({ spec with zero := zero, width := width, precision := precision, dynamic_width := false, dynamic_precision := false }, argp)

end Arguments

section Buffers

-- The position in the buffer and what was written to it
structure Writing where
  pos : ℤ
  writes : List (ℤ × UInt8)
deriving DecidableEq

-- `buf[pos + i] = b`
def Writing.store (w : Writing) (i : ℤ) (b : UInt8) : Writing := { w with writes := w.writes ++ [(w.pos + i, b)] }

-- `pos += n`
def Writing.advance (w : Writing) (n : ℤ) : Writing := { w with pos := w.pos + n }

def Writing.put (w : Writing) (b : UInt8) : Writing := (w.store 0 b).advance 1

-- `for _ = 1:n  buf[pos] = b; pos += 1  end`
def Writing.fill (w : Writing) (b : UInt8) : ℕ → Writing
  | 0 => w
  | n + 1 => (w.put b).fill b n

def Writing.putAll (w : Writing) (bytes : List UInt8) : Writing := bytes.foldl Writing.put w

-- The loop of `writechar`; a character has at most four bytes.
def writecharLoop : ℕ → Writing → BitVec 32 → Writing
  | 0, w, _ => w
  | left + 1, w, u =>
      let w := w.put (UInt8.ofBitVec (u.truncate 8))
      let u := u >>> 8
      if u = 0 then w else writecharLoop left w u

def writechar (w : Writing) (c : Chr) : Writing := writecharLoop 4 w (bswap c)

end Buffers

-- `base(T)` for the type of an integer conversion
def base (type : UInt8) : ℕ := if type = byte 'x' ∨ type = byte 'X' then 16 else if type = byte 'o' then 8 else 10

def MAX_FMT_CHARS_WIDTH : ℤ := 5

-- `ndigits(x; base, pad=1)` of an integer argument
def Arg.ndigits (arg : Arg) (base : ℕ) : Except PrintError ℤ :=
  match arg with
  | .int T n =>
      match IntFuncs.ndigits T n.val base 1 with
      | .ok n => .ok n
      | .error e => .error (.Number e)
  | _ => .error .MethodError

section Formatting

variable (utf8proc_charwidth : BitVec 32 → ℤ)

-- The padding on one side, where the field is wider than its contents
def Writing.pad (w : Writing) (wanted : Bool) (width len : ℤ) : Writing :=
  if wanted && width > len then w.fill (byte ' ') (int64 (width - len)).toNat else w

def fmtChars (w : Writing) (arg : Arg) (spec : Spec) : Except PrintError Writing := do
  let c ← arg.first
  let tw := textwidth utf8proc_charwidth c
  let w := w.pad (!spec.leftalign) spec.width tw
  let w := writechar w c
  return w.pad spec.leftalign spec.width tw

-- `for c in str`, with the columns that are left
def writeChars (w : Writing) (p : ℤ) : List Chr → Writing × ℤ
  | [] => (w, p)
  | c :: str =>
      let p := int64 (p - textwidth utf8proc_charwidth c)
      if p < 0 then (w, p) else writeChars (writechar w c) p str

def fmtStrings (w : Writing) (arg : Arg) (spec : Spec) : Except PrintError Writing := do
  let str ← arg.string
  let slen := textwidthStr utf8proc_charwidth str + (if spec.hash then (if arg.isString then 2 else 1) else 0)
  let op := if spec.precision = -1 then slen else min slen spec.precision
  let p := op
  let w := w.pad (!spec.leftalign) spec.width p
  let (w, p) := if spec.hash && arg.isString then (w.put (byte '"'), int64 (p - 1)) else (w, p)
  let (w, p) := writeChars utf8proc_charwidth w p str
  let w := if spec.hash && arg.isString && p > 0 then w.put (byte '"') else w
  return w.pad spec.leftalign spec.width op

def hexDigits : List UInt8 := bytesOf "0123456789abcdef"

def HEXDigits : List UInt8 := bytesOf "0123456789ABCDEF"

def digitByte (type : UInt8) (x : ℕ) : UInt8 :=
  if base type = 16 then (if type = byte 'x' then hexDigits else HEXDigits).getD (x % 16) 0
  else if base type = 8 then (48 + x % 8).toUInt8
  else (48 + x % 10).toUInt8

-- The digits, the last one first; `i` digits are left.
def writeDigits (type : UInt8) (w : Writing) : ℕ → ℕ → Writing
  | 0, _ => w
  | i + 1, x => writeDigits type (w.store i (digitByte type x)) i (x / base type)

def isHex (type : UInt8) : Bool := type = byte 'x' || type = byte 'X'

-- The columns of the sign and of the prefix in `arglen`
def signWidth (spec : Spec) (arg : ℤ) : ℤ := if decide (arg < 0) || spec.plus || spec.space then 1 else 0

def prefixWidth (spec : Spec) : ℤ :=
  (if spec.type = byte 'o' && spec.hash then 1 else 0) + (if isHex spec.type && spec.hash then 2 else 0)

def writeSign (w : Writing) (spec : Spec) (arg : ℤ) : Writing :=
  if arg < 0 then w.put (byte '-') else if spec.plus then w.put (byte '+') else if spec.space then w.put (byte ' ') else w

def writePrefix (w : Writing) (spec : Spec) : Writing :=
  if spec.type = byte 'o' && spec.hash then w.put (byte '0')
  else if isHex spec.type && spec.hash then ((w.store 0 (byte '0')).store 1 spec.type).advance 2
  else w

-- The zeros between the prefix and the digits
def writeZeros (w : Writing) (spec : Spec) (n arglen arglen2 : ℤ) : Writing :=
  if spec.zero && arglen2 < spec.width then w.fill (byte '0') (spec.width - arglen2).toNat
  else if n < spec.precision then w.fill (byte '0') (spec.precision - n).toNat
  else if arglen < arglen2 then w.fill (byte '0') (arglen2 - arglen).toNat
  else w

def arglen2 (spec : Spec) (n arglen : ℤ) : ℤ :=
  if arglen < spec.width ∧ spec.precision > 0 then arglen + min (max 0 (spec.precision - n)) (spec.width - arglen) else arglen

def fmtInts (w : Writing) (arg : Arg) (spec : Spec) : Except PrintError Writing := do
  let n ← arg.ndigits (base spec.type)
  let arg ← arg.integer
  let arglen := n + signWidth spec arg + prefixWidth spec
  let arglen2 := arglen2 spec n arglen
  let w := w.pad (!spec.leftalign && !spec.zero) spec.width arglen2
  let w := writePrefix (writeSign w spec arg) spec
  let w := writeZeros w spec n arglen arglen2
  let w := (writeDigits spec.type w n.toNat arg.natAbs).advance n
  return w.pad spec.leftalign spec.width arglen2

def fmtArg (w : Writing) (arg : Arg) (spec : Spec) : Except PrintError Writing :=
  if isInts spec.type then fmtInts w arg spec
  else if isChars spec.type then fmtChars utf8proc_charwidth w arg spec
  else if isStrings spec.type then fmtStrings utf8proc_charwidth w arg spec
  else .error .NotModelled

def fmt (w : Writing) (args : List Arg) (argp : ℕ) (spec : Spec) : Except PrintError (Writing × ℕ) := do
  let (spec, argp) ← rmdynamic spec args argp
  let arg ← argAt args argp
  let w ← fmtArg utf8proc_charwidth w arg spec
  return (w, argp + 1)

-- The loop over the conversions; the source writes out its first sixteen passes.
def formatLoop (f : Format) (args : List Arg) (w : Writing) (escapechar : Bool) (argp : ℕ) :
    List Spec → List UnitRange → Except PrintError Writing
  | [], _ => .ok w
  | _ :: _, [] => .error .BoundsError
  | spec :: fmts, r :: strs => do
      let (w, argp) ← fmt utf8proc_charwidth w args argp spec
      let (written, escapechar) := writeText escapechar (substring f.str r)
      formatLoop f args (w.putAll written) escapechar argp fmts strs

-- `format(buf, 0, f, args...)`
def format (f : Format) (args : List Arg) : Except PrintError Writing :=
  match f.substringranges with
  | [] => .error .BoundsError
  | r :: strs =>
      let (written, escapechar) := writeText false (substring f.str r)
      formatLoop utf8proc_charwidth f args ((⟨0, []⟩ : Writing).putAll written) escapechar 0 f.formats strs

end Formatting

section Lengths

variable (utf8proc_charwidth : BitVec 32 → ℤ)

def checked_add (x y : ℤ) : Except PrintError ℤ := if -2 ^ 63 ≤ x + y ∧ x + y < 2 ^ 63 then .ok (x + y) else .error .OverflowError

def plengthChars (spec : Spec) (arg : Arg) : Except PrintError ℤ := do
  let c ← arg.first
  let w := textwidth utf8proc_charwidth c
  checked_add (max spec.width w) (ncodeunits c - w)

def plengthStrings (spec : Spec) (arg : Arg) : Except PrintError ℤ := do
  let str ← arg.string
  let sw := textwidthStr utf8proc_charwidth str
  let p ← (if spec.precision = -1 then checked_add sw (if spec.hash then 2 else 0) else .ok spec.precision)
  checked_add (max spec.width p) (sizeofStr str - sw)

def plengthInts (spec : Spec) (arg : Arg) : Except PrintError ℤ := do
  let n ← arg.ndigits (base spec.type)
  let len ← checked_add (← checked_add spec.precision n) MAX_FMT_CHARS_WIDTH
  return max spec.width len

def plengthArg (spec : Spec) (arg : Arg) : Except PrintError ℤ :=
  if isInts spec.type then plengthInts spec arg
  else if isChars spec.type then plengthChars utf8proc_charwidth spec arg
  else if isStrings spec.type then plengthStrings utf8proc_charwidth spec arg
  else .error .NotModelled

def plength (spec : Spec) (args : List Arg) (argp : ℕ) : Except PrintError (ℤ × ℕ) := do
  let (spec, argp) ← rmdynamic spec args argp
  let arg ← argAt args argp
  let l ← plengthArg utf8proc_charwidth spec arg
  return (l, argp + 1)

-- `length(r)` of a range
def UnitRange.length (r : UnitRange) : ℤ := max 0 (r.stop - r.start + 1)

def computelenLoop (args : List Arg) (len : ℤ) (argp : ℕ) : List Spec → Except PrintError ℤ
  | [] => .ok len
  | spec :: fmts => do
      let (l, argp) ← plength utf8proc_charwidth spec args argp
      let len ← checked_add len l
      computelenLoop args len argp fmts

-- The ranges lie apart in the string, so that their lengths have an `Int` as their sum.
def computelen (substringranges : List UnitRange) (formats : List Spec) (args : List Arg) : Except PrintError ℤ :=
  computelenLoop utf8proc_charwidth args (substringranges.map UnitRange.length).sum 0 formats

end Lengths

end Joolia.Printf
