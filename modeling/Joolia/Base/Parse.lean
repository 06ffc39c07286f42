import Joolia.Base.IntFuncs

namespace Joolia.Parse

open IntFuncs

-- The messages of the ArgumentErrors, with the data they show, and the other exceptions.
inductive ParseError
  -- "input string is empty or only contains whitespace"
  | empty
  -- "invalid base: base must be 2 ≤ base ≤ 62, got $base"
  | invalidBase (base : ℤ)
  -- "premature end of integer: $(repr(s))"
  | prematureEnd (s : List Char)
  -- "invalid base $base digit $(repr(c)) in $(repr(s))"
  | invalidDigit (base : ℤ) (c : Char) (s : List Char)
  -- "extra characters after whitespace in $(repr(s))"
  | extraCharacters (s : List Char)
  | overflowError (s : List Char)
deriving DecidableEq, Repr

-- The category Zs of Unicode.
def isZs (c : Char) : Bool :=
  c.toNat = 0x20 ∨ c.toNat = 0xa0 ∨ c.toNat = 0x1680 ∨ (0x2000 ≤ c.toNat ∧ c.toNat ≤ 0x200a) ∨ c.toNat = 0x202f ∨
    c.toNat = 0x205f ∨ c.toNat = 0x3000

def isspace (c : Char) : Bool :=
  c = ' ' ∨ (0x09 ≤ c.toNat ∧ c.toNat ≤ 0x0d) ∨ c.toNat = 0x85 ∨ (0xa0 ≤ c.toNat ∧ isZs c)

-- A position in the string is what follows it; `none` stands for the position -1.
abbrev Position := Option (List Char)

def parseintIterate : Position → Char × Position × Position
  | some (c :: rest) => (c, some rest, some (c :: rest))
  | _ => (Char.ofNat 0, none, none)

-- `while isspace(c)  c, i, j = parseint_iterate(s,i,endpos)  end`
def skipSpaces : ℕ → Char × Position × Position → Char × Position × Position
  | 0, p => p
  | fuel + 1, (c, i, j) => if isspace c then skipSpaces fuel (parseintIterate i) else (c, i, j)

-- `if signed`: a sign in front of the digits
def readSign (signed : Bool) : Char × Position × Position → ℤ × Char × Position × Position
  | (c, i, j) =>
      if signed ∧ c = '-' then (-1, parseintIterate i)
      else if signed ∧ c = '+' then (1, parseintIterate i)
      else (1, c, i, j)

-- `if base == 0`: a prefix that says what the base is
def readBase (base sgn : ℤ) : Char × Position × Position → ℤ × ℤ × Position
  | (c, i, j) =>
      if base = 0 then
        match i with
        | some (next :: rest) =>
            if c = '0' then
              let base : ℤ := if next = 'b' then 2 else if next = 'o' then 8 else if next = 'x' then 16 else 10
              (sgn, base, if base ≠ 10 then (parseintIterate (some rest)).2.2 else j)
            else (sgn, 10, j)
        | _ => (sgn, 10, j)
      else (sgn, base, j)

-- The sign, the base and the position of the first digit.
def parseintPreamble (signed : Bool) (base : ℤ) (s : List Char) : ℤ × ℤ × Position :=
  let p := skipSpaces (s.length + 1) (parseintIterate (some s))
  if p.2.2 = none then (0, 0, none)
  else
    let (sgn, q) := readSign signed p
    let q := skipSpaces (s.length + 1) q
    if q.2.2 = none then (0, 0, none) else readBase base sgn q

-- `reinterpret(UInt32, c) >> 24`, the first byte of the encoding
def firstByte (c : Char) : ℤ :=
  if c.toNat < 0x80 then c.toNat
  else if c.toNat < 0x800 then 0xc0 + c.toNat / 0x40
  else if c.toNat < 0x10000 then 0xe0 + c.toNat / 0x1000
  else 0xf0 + c.toNat / 0x40000

-- `__convert_digit(_c, base)`
def convertDigit (c base : ℤ) : ℤ :=
  let a := if base ≤ 36 then 10 else 36
  if 0x30 ≤ c ∧ c ≤ 0x39 then c - 0x30
  else if 0x41 ≤ c ∧ c ≤ 0x5a then c - 0x41 + 10
  else if 0x61 ≤ c ∧ c ≤ 0x7a then c - 0x61 + a
  else base

section Loops

variable (T : IntType) (base : ℤ) (sgn : ℤ) (s : List Char)

-- The first loop, while `n <= m`: it returns the number, or leaves with `n`, `c` and what follows.
def unchecked (m : ℤ) : ℤ → Char → List Char → Except ParseError (ℤ ⊕ (ℤ × Char × List Char))
  | n, c, rest =>
      if n ≤ m then
        let d := convertDigit (firstByte c) base
        if base ≤ d then .error (.invalidDigit base c s)
        else
          let n := T.wrap (T.wrap (n * base) + d)
          match rest with
          | [] => .ok (.inl (T.wrap (n * sgn)))
          | c :: rest => if isspace c then .ok (.inr (n, c, rest)) else unchecked m n c rest
      else .ok (.inr (n, c, rest))

-- `while i <= endpos`
def trailing : List Char → ℤ → Except ParseError ℤ
  | [], n => .ok n
  | c :: rest, n => if isspace c then trailing rest n else .error (.extraCharacters s)

-- The second loop, with overflow checks.
def checked : ℤ → Char → List Char → Except ParseError ℤ
  | n, c, rest =>
      if isspace c then trailing s rest n
      else
        let d := convertDigit (firstByte c) base
        if base ≤ d then .error (.invalidDigit base c s)
        else
          let d := if T.signed then T.wrap (d * sgn) else d
          let product := T.wrap (n * base)
          let total := T.wrap (product + d)
          if product ≠ n * base ∨ total ≠ product + d then .error (.overflowError s)
          else
            match rest with
            | [] => .ok total
            | c :: rest => checked total c rest

end Loops

-- `tryparse_internal(T, s, firstindex(s), lastindex(s), base, true)`
def tryparseInternal (T : IntType) (s : List Char) (base : ℤ) : Except ParseError ℤ := do
  let (sgn, base, i) := parseintPreamble T.signed base s
  if sgn = 0 ∧ base = 0 ∧ i = none then throw .empty
  if ¬(2 ≤ base ∧ base ≤ 62) then throw (.invalidBase base)
  match i with
  | some (c :: rest) =>
      let m : ℤ :=
        if base = 10 then (T.typemax - 9) / 10
        else if base = 16 then (T.typemax - 15) / 16
        else (T.typemax - base + 1) / base
      match ← unchecked T base sgn s m 0 c rest with
      | .inl n => return n
      | .inr (n, c, rest) =>
          let n := if T.signed then T.wrap (n * sgn) else n
          checked T base sgn s n c rest
  | _ => throw (.prematureEnd s)

-- `parse(T, s; base)`; without a base the prefix of the text says which one it is
def parse (T : IntType) (s : List Char) (base : Option ℤ) : Except ParseError ℤ :=
  match base with
  | none => tryparseInternal T s 0
  | some base => if 2 ≤ base ∧ base ≤ 62 then tryparseInternal T s base else .error (.invalidBase base)

end Joolia.Parse
