import Joolia.Base.IntFuncs.Theorems
import Joolia.Library.Regex
import Mathlib.Data.UInt
import Mathlib.Tactic.Common

namespace Joolia.Version

-- An identifier of a pre-release or build annotation. The strings are valid UTF-8, so that their
-- byte order is the order of their code points.
inductive Ident
  | int (i : UInt64)
  | str (s : List Char)
deriving DecidableEq, Repr

-- The fields of a VersionNumber, before its constructor has looked at them.
structure VersionNumber where
  major : UInt32
  minor : UInt32
  patch : UInt32
  prerelease : List Ident
  build : List Ident
deriving DecidableEq, Repr

-- cmp of strings
def cmpText : List Char → List Char → Ordering
  | [], [] => .eq
  | [], _ :: _ => .lt
  | _ :: _, [] => .gt
  | a :: as, b :: bs => if a < b then .lt else if b < a then .gt else cmpText as bs

-- ident_cmp of two identifiers
def identCmp : Ident → Ident → Ordering
  | .int a, .int b => if a < b then .lt else if b < a then .gt else .eq
  | .int _, .str b => if b.isEmpty then .gt else .lt
  | .str a, .int _ => if a.isEmpty then .lt else .gt
  | .str a, .str b => cmpText a b

-- ident_cmp of two tuples: the first difference, else the lengths
def identsCmp : List Ident → List Ident → Ordering
  | [], [] => .eq
  | [], _ :: _ => .lt
  | _ :: _, [] => .gt
  | a :: as, b :: bs =>
      match identCmp a b with
      | .eq => identsCmp as bs
      | c => c

-- ==
def equal (a b : VersionNumber) : Bool :=
  if a.major ≠ b.major then false
  else if a.minor ≠ b.minor then false
  else if a.patch ≠ b.patch then false
  else if identsCmp a.prerelease b.prerelease ≠ .eq then false
  else if identsCmp a.build b.build ≠ .eq then false
  else true

-- isempty of an identifier; a number is never empty
def Ident.isEmpty : Ident → Bool
  | .int _ => false
  | .str s => s.isEmpty

def issupbuild (v : VersionNumber) : Bool :=
  match v.build with
  | [ident] => ident.isEmpty
  | _ => false

def isless (a b : VersionNumber) : Bool :=
  if a.major < b.major then true
  else if b.major < a.major then false
  else if a.minor < b.minor then true
  else if b.minor < a.minor then false
  else if a.patch < b.patch then true
  else if b.patch < a.patch then false
  else if !a.prerelease.isEmpty && b.prerelease.isEmpty then true
  else if a.prerelease.isEmpty && !b.prerelease.isEmpty then false
  else
    match identsCmp a.prerelease b.prerelease with
    | .lt => true
    | .gt => false
    | .eq =>
        if !issupbuild a && issupbuild b then true
        else if issupbuild a && !issupbuild b then false
        else
          match identsCmp a.build b.build with
          | .lt => true
          | _ => false

end Joolia.Version

namespace Joolia.Version

open IntFuncs Parse

-- What the expressions below need of PCRE with Unicode properties: `\d` are the characters of the
-- category Nd. Neither the long s nor the Kelvin sign is one, which are the two characters outside
-- ASCII that [a-z] matches without regard to case.
structure Pcre where
  digit : Char → Bool
  digit_ascii : ∀ c : Char, c.toNat < 128 → digit c = c.isDigit
  digit_long_s : digit (Char.ofNat 0x17f) = false
  digit_kelvin : digit (Char.ofNat 0x212a) = false

-- `[a-z]`, with the flag i
def isLetter (c : Char) : Bool :=
  (0x61 ≤ c.toNat ∧ c.toNat ≤ 0x7a) ∨ (0x41 ≤ c.toNat ∧ c.toNat ≤ 0x5a) ∨ c.toNat = 0x17f ∨ c.toNat = 0x212a

-- `[a-z-]` and `[0-9a-z-]`, with the flag i
def isLetterOrDash (c : Char) : Bool := isLetter c || c == '-'

def isWord (c : Char) : Bool := c.isDigit || isLetterOrDash c

def letter : Regex := .chars isLetter

def letterOrDash : Regex := .chars isLetterOrDash

def word : Regex := .chars isWord

def char (c : Char) : Regex := .chars (· == c)

-- r"^(?:|[0-9a-z-]*[a-z-][0-9a-z-]*)$"i
def identRegex : Regex :=
  .seq .start (.seq (.alt .eps (.seq (.star word) (.seq letterOrDash (.star word)))) .stop)

inductive VersionError
  -- "invalid pre-release identifier: $(repr(ident))"
  | invalidPrerelease (ident : List Char)
  -- "invalid build identifier: $(repr(ident))"
  | invalidBuild (ident : List Char)
  -- "invalid version string: $v"
  | invalidVersion (v : List Char)
  | text (e : TextError)
  | number (e : ParseError)
deriving DecidableEq, Repr

-- The checks of the constructor; the numbers are unsigned.
def checkPrerelease (pre bld : List Ident) : Ident → Except VersionError Unit
  | .int _ => .ok ()
  | .str s =>
      if !Regex.occursin identRegex s || (s.isEmpty && !(pre.length = 1 && bld.isEmpty)) then
        .error (.invalidPrerelease s)
      else .ok ()

def checkBuild (bld : List Ident) : Ident → Except VersionError Unit
  | .int _ => .ok ()
  | .str s =>
      if !Regex.occursin identRegex s || (s.isEmpty && bld.length ≠ 1) then .error (.invalidBuild s) else .ok ()

-- VersionNumber(major, minor, patch, pre, bld)
def VersionNumber.new (major minor patch : UInt32) (pre bld : List Ident) : Except VersionError VersionNumber := do
  pre.forM (checkPrerelease pre bld)
  bld.forM (checkBuild bld)
  return ⟨major, minor, patch, pre, bld⟩

def typemax : VersionNumber := ⟨4294967295, 4294967295, 4294967295, [], [.str []]⟩

-- The value of v"0-".
def typemin : VersionNumber := ⟨0, 0, 0, [.str []], []⟩

section Print

variable (mem : ℕ → UInt8)

def machine32 (x : UInt32) : MachineInt ⟨false, .w32⟩ :=
  ⟨x.toNat, Int.natCast_nonneg _, by have := x.toNat_lt; exact Int.le_sub_one_of_lt (by exact_mod_cast this)⟩

def machine64 (x : UInt64) : MachineInt ⟨false, .w64⟩ :=
  ⟨x.toNat, Int.natCast_nonneg _, by have := x.toNat_lt; exact Int.le_sub_one_of_lt (by exact_mod_cast this)⟩

-- `print(io, n)` of an integer
def printInt {T : IntType} (n : MachineInt T) : Except VersionError (List Char) :=
  match IntFuncs.string mem T n 10 1 with
  | .ok text => .ok (characters text)
  | .error e => .error (.text e)

def printIdent : Ident → Except VersionError (List Char)
  | .int i => printInt mem (machine64 i)
  | .str s => .ok s

-- `join(io, idents, '.')`
def joinIdents (idents : List Ident) : Except VersionError (List Char) := do
  let texts ← idents.mapM (printIdent mem)
  return ['.'].intercalate texts

def printPart (mark : Char) (idents : List Ident) : Except VersionError (List Char) :=
  if idents.isEmpty then .ok [] else do return mark :: (← joinIdents mem idents)

-- print(io, v)
def print (v : VersionNumber) : Except VersionError (List Char) := do
  if equal v typemax then return ['∞']
  let major ← printInt mem (machine32 v.major)
  let minor ← printInt mem (machine32 v.minor)
  let patch ← printInt mem (machine32 v.patch)
  let pre ← printPart mem '-' v.prerelease
  let bld ← printPart mem '+' v.build
  return major ++ '.' :: (minor ++ '.' :: (patch ++ (pre ++ bld)))

end Print

section Parse

variable (pcre : Pcre)

def digits : Regex := .plus (.chars pcre.digit)

-- `(?:\.(\d+))?`
def dottedNumber (k : ℕ) : Regex := .opt (.seq (char '.') (.group k (digits pcre)))

-- `[a-z][0-9a-z-]*(?:\.[0-9a-z-]+)*|-(?:[0-9a-z-]+\.)*[0-9a-z-]+`
def dottedWords : Regex := .seq (.star (.seq (.plus word) (char '.'))) (.plus word)

def prereleaseRegex : Regex :=
  .alt (.seq letter (.seq (.star word) (.star (.seq (char '.') (.plus word))))) (.seq (char '-') dottedWords)

-- `(?:(-)|(...)?(?:(\+)|(?:\+(...))?))$`
def tailRegex : Regex :=
  .seq (.alt (.group 4 (char '-')) (.seq (.opt (.group 5 prereleaseRegex))
    (.alt (.group 6 (char '+')) (.opt (.seq (char '+') (.group 7 dottedWords)))))) .stop

-- VERSION_REGEX
def versionRegex : Regex :=
  .seq .start (.seq (.opt (.chars fun c => c == 'v' || c == 'V')) (.seq (.group 1 (digits pcre))
    (.seq (dottedNumber pcre 2) (.seq (dottedNumber pcre 3) tailRegex))))

def parseNumber (T : IntType) (s : List Char) : Except VersionError ℤ :=
  match parse T s none with
  | .ok n => .ok n
  | .error e => .error (.number e)

-- `occursin(r"^\d+$", ident) ? parse(UInt64, ident) : String(ident)`
def splitIdent (ident : List Char) : Except VersionError Ident :=
  if Regex.occursin (.seq .start (.seq (digits pcre) .stop)) ident then do
    return .int (UInt64.ofNat (← parseNumber ⟨false, .w64⟩ ident).toNat)
  else .ok (.str ident)

-- split_idents
def splitIdents (s : List Char) : Except VersionError (List Ident) := (s.splitOn '.').mapM (splitIdent pcre)

-- An optional number; zero when it is missing.
def optionalNumber : Option (List Char) → Except VersionError UInt32
  | none => .ok 0
  | some s => do return UInt32.ofNat (← parseNumber ⟨false, .w32⟩ s).toNat

-- The idents of one part: its text, or the mark alone.
def identsOf (text mark : Option (List Char)) : Except VersionError (List Ident) :=
  match text, mark with
  | some s, _ => splitIdents pcre s
  | none, some _ => .ok [.str []]
  | none, none => .ok []

-- `prerl[1:end]`, when it begins with a dash
def stripDash : List Char → List Char
  | '-' :: s => s
  | s => s

-- tryparse(VersionNumber, v)
def tryparse (v : List Char) : Except VersionError (Option VersionNumber) :=
  if v = ['∞'] then .ok (some typemax)
  else
    match Regex.find (versionRegex pcre) v with
    | none => .ok none
    | some m => do
        let major ← optionalNumber (m.captured 1)
        let minor ← optionalNumber (m.captured 2)
        let patch ← optionalNumber (m.captured 3)
        let prerl ← identsOf pcre ((m.captured 5).map stripDash) (m.captured 4)
        let build ← identsOf pcre (m.captured 7) (m.captured 6)
        return some (← VersionNumber.new major minor patch prerl build)

-- VersionNumber(v::AbstractString)
def parseVersion (v : List Char) : Except VersionError VersionNumber := do
  match ← tryparse pcre v with
  | none => throw (.invalidVersion v)
  | some ver => return ver

end Parse

end Joolia.Version
