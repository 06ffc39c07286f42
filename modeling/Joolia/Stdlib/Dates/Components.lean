import Joolia.Stdlib.Dates.Text

namespace Joolia.Dates

open Fallible Strings

section Formats

-- The letters of the numeric date parts
inductive Letter
  | y
  | Y
  | m
  | d
  | H
  | I
  | M
  | S
  | s
deriving DecidableEq, Repr

-- The types of `CONVERSION_SPECIFIERS` for these letters
inductive PartType
  | Year
  | Month
  | Day
  | Hour
  | Minute
  | Second
  | Millisecond
deriving DecidableEq, Repr

def Letter.type : Letter → PartType
  | y | Y => .Year
  | m => .Month
  | d => .Day
  | H | I => .Hour
  | M => .Minute
  | S => .Second
  | s => .Millisecond

-- `CONVERSION_DEFAULTS`
def PartType.default : PartType → ℤ
  | Year | Month | Day => 1
  | Hour | Minute | Second | Millisecond => 0

inductive Directive
  | datePart (letter : Letter) (width : ℕ) (fixed : Bool)
  | delim (text : List Char)
deriving DecidableEq, Repr

abbrev DateFormat := List Directive

-- The types of the letters that `character_codes` collects
def DateFormat.tokens : DateFormat → List PartType
  | [] => []
  | .datePart letter _ _ :: df => letter.type :: tokens df
  | .delim _ :: df => tokens df

def Letter.tryparsenext (letter : Letter) (width : ℕ) (fixed : Bool) (str : List Chr) :
    Except DatesError (Option (ℤ × List Chr)) :=
  match letter with
  | y | Y => .ok (tryparsenextYear width fixed str)
  | m | d | H | I | M | S => .ok (tryparsenextBase10 str (minWidth width fixed) (maxWidth width fixed))
  | s => tryparsenextMillisecond width fixed str

-- `tryparsenext(d, str, i, len)` for a `Delim` of any characters
def tryparsenextText : List Char → List Chr → Option (List Chr)
  | [], str => some str
  | _ :: _, [] => none
  | c :: text, c' :: str => if c' ≠ lit c then none else tryparsenextText text str

def Directive.show : Directive → String
  | .datePart letter width _ =>
      let letter := match letter with | .y => 'y' | .Y => 'Y' | .m => 'm' | .d => 'd' | .H => 'H' | .I => 'I' | .M => 'M' | .S => 'S' | .s => 's'
      s!"DatePart({String.ofList (List.replicate width letter)})"
  | .delim text => s!"Delim({String.ofList text})"

end Formats

section Parsing

-- The variables of the generated function, one for each type
abbrev Variables := PartType → ℤ

-- A `TimeType`: what is built from the variables
abbrev Build (α : Type) := Variables → Except DatesError α

def buildDate : Build Date := fun vars => Date.new wrapping (vars .Year) (vars .Month) (vars .Day)

def buildDateTime : Build DateTime := fun vars =>
  DateTime.new (vars .Year) (vars .Month) (vars .Day) (vars .Hour) (vars .Minute) (vars .Second) (vars .Millisecond)

end Parsing

section Inputs

-- A string that has the values of the first parts and ends before the next one
inductive Supplies : DateFormat → List Chr → List ℤ → Prop
  | stop (df : DateFormat) : Supplies df [] []
  | part {letter : Letter} {width : ℕ} {fixed : Bool} {df : DateFormat} {str rest : List Chr} {val : ℤ} {vals : List ℤ}
      (hstr : str ≠ []) (hval : letter.tryparsenext width fixed str = .ok (some (val, rest))) (hrest : Supplies df rest vals) :
      Supplies (.datePart letter width fixed :: df) str (val :: vals)
  | delim {text : List Char} {df : DateFormat} {str rest : List Chr} {vals : List ℤ} (hstr : str ≠ [])
      (htext : tryparsenextText text str = some rest) (hrest : Supplies df rest vals) : Supplies (.delim text :: df) str vals

variable {df : DateFormat} {str : List Chr} {vals : List ℤ}

theorem Supplies.length_le (h : Supplies df str vals) : vals.length ≤ df.tokens.length := by
  induction h with
  | stop df => exact Nat.zero_le _
  | part hstr hval hrest ih => exact Nat.succ_le_succ ih
  | delim hstr htext hrest ih => exact ih

-- The parts of one type have one value.
def Consistent (parts : List (PartType × ℤ)) : Prop := ∀ p ∈ parts, ∀ q ∈ parts, p.1 = q.1 → p.2 = q.2

end Inputs

section Outputs

variable {df : DateFormat} {str : List Chr} {vals : List ℤ}

-- The value that the parts give a type
def given (tokens : List PartType) (vals : List ℤ) (type : PartType) : ℤ :=
  match (tokens.zip vals).find? (·.1 = type) with
  | some p => p.2
  | none => type.default

def digits (text : String) : List Chr := text.toList.map lit

end Outputs

end Joolia.Dates
