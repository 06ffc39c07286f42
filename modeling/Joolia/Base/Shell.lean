import Joolia.Base.Char
import Joolia.Base.Escape
import Joolia.Library.Fallible

namespace Joolia.Shell

open Strings Fallible

inductive ShellError
  | error (msg : String)
  | stringIndexError (i : ℕ)
  | boundsError (i : ℕ)
  | typeError
deriving DecidableEq, Repr

-- The general category of a code point, from the library utf8proc.
variable (utf8procCategory : BitVec 32 → ℕ)

-- A string is the list of its characters; an index counts the bytes before a character.
def csize (c : Chr) : ℕ := (writeChar c).length

-- `pairs(s)`
def pairsFrom (k : ℕ) : List Chr → List (ℕ × Chr)
  | [] => []
  | c :: s => (k, c) :: pairsFrom (k + csize c) s

def lastindex (s : List (ℕ × Chr)) : ℕ := (s.getLast?.map Prod.fst).getD 0

-- `nextind(str, i)`
def nextind (k : ℕ) (str : List Chr) (i : ℕ) : Except ShellError ℕ :=
  match str with
  | [] => .error (.boundsError i)
  | c :: str => if i < k + csize c then .ok (k + csize c) else nextind (k + csize c) str i

-- `s[i:prevind(s, j)]`
def substring (s : List (ℕ × Chr)) (i j : ℕ) : Except ShellError (List Chr) :=
  let inside := s.filter fun p => decide (i ≤ p.1) && decide (p.1 < j)
  if inside.isEmpty then .ok []
  else if s.any fun p => p.1 == i then .ok (inside.map Prod.snd)
  else .error (.stringIndexError i)

structure ShellState where
  i : ℕ
  arg : List (List Chr)
  args : List (List (List Chr))
  inSingleQuotes : Bool
  inDoubleQuotes : Bool
  wordHasSpecial : Bool
deriving DecidableEq, Repr

def pushNonempty (list : List (List Chr)) (x : List Chr) : List (List Chr) := if x.isEmpty then list else list ++ [x]

-- `something(peek(st), lastindex(s)+1 => '\0').first`
def nextIndex (s : List (ℕ × Chr)) : List (ℕ × Chr) → ℕ
  | [] => lastindex s + 1
  | (k, _) :: _ => k

-- `i = consume_upto!(arg, s, i, j)`
def consumeUpto (s st : List (ℕ × Chr)) (j : ℕ) (q : ShellState) : Except ShellError ShellState := do
  let text ← substring s q.i j
  return { q with arg := pushNonempty q.arg text, i := nextIndex s st }

-- `append_2to1!(args, arg)` if there is a word
def endWord (q : ShellState) : ShellState :=
  if !q.arg.isEmpty || q.wordHasSpecial then
    { q with args := q.args ++ [if q.arg.isEmpty then [[]] else q.arg], arg := [] }
  else q

-- The index that is left after popping spaces.
def afterSpaces (st rest : List (ℕ × Chr)) (i : ℕ) : ℕ :=
  match rest with
  | (k, _) :: _ => k
  | [] => (st.getLast?.map Prod.fst).getD i

-- `i = nextind(str, i)` for every space or tab popped
def skipBlanks (str : List Chr) : List (ℕ × Chr) → ℕ → Except ShellError (List (ℕ × Chr) × ℕ)
  | [], i => .ok ([], i)
  | (k, c) :: st, i =>
      if c == lit ' ' || c == lit '\t' then do
        let i ← nextind 0 str i
        skipBlanks str st i
      else .ok ((k, c) :: st, i)

-- The line break `b` after a backslash, with the characters after it
def popLineBreak (b : Chr) (rest : List (ℕ × Chr)) (i : ℕ) : Except ShellError (List (ℕ × Chr) × ℕ) :=
  if b == lit '\r' then
    match rest with
    | [] => .error .typeError
    | (k, c) :: rest => if c == lit '\n' then .ok (rest, i + 1) else .ok ((k, c) :: rest, i)
  else .ok (rest, i)

def backslash (str : List Chr) (s st : List (ℕ × Chr)) (j : ℕ) (q : ShellState) :
    Except ShellError (List (ℕ × Chr) × ShellState) :=
  let q := { q with wordHasSpecial := true }
  match st with
  | [] => if q.inDoubleQuotes then .error (.error "unterminated double quote") else .error (.error "dangling backslash")
  | (k, b) :: rest =>
      if b == lit '\n' || b == lit '\r' then do
        let q ← consumeUpto s st j q
        let (st, i) ← popLineBreak b rest (q.i + 1)
        let (st, i) ← skipBlanks str st i
        return (st, { q with i })
      else if q.inDoubleQuotes then
        if b == lit '"' || b == lit '$' || b == lit '\\' then do
          let q ← consumeUpto s st j q
          return (rest, q)
        else .ok ((k, b) :: rest, q)
      else do
        let q ← consumeUpto s st j q
        return (rest, q)

-- One pass of the loop, with the character `c` at index `j`.
def shellStep (str : List Chr) (s st : List (ℕ × Chr)) (j : ℕ) (c : Chr) (q : ShellState) :
    Except ShellError (List (ℕ × Chr) × ShellState) :=
  if !q.inSingleQuotes && !q.inDoubleQuotes && isspace utf8procCategory c then do
    let q ← consumeUpto s st j q
    let rest := st.dropWhile fun p => isspace utf8procCategory p.2
    return (rest, { endWord q with wordHasSpecial := false, i := afterSpaces st rest q.i })
  else if !q.inDoubleQuotes && c == lit '\'' then do
    let q ← consumeUpto s st j { q with inSingleQuotes := !q.inSingleQuotes, wordHasSpecial := true }
    return (st, q)
  else if !q.inSingleQuotes && c == lit '"' then do
    let q ← consumeUpto s st j { q with inDoubleQuotes := !q.inDoubleQuotes, wordHasSpecial := true }
    return (st, q)
  else if !q.inSingleQuotes && c == lit '\\' then backslash str s st j q
  else .ok (st, q)

-- `for (j, c) in st`; every pass pops a character.
def shellLoop (str : List Chr) (s : List (ℕ × Chr)) : ℕ → List (ℕ × Chr) → ShellState → Except ShellError ShellState
  | _, [], q => .ok q
  | 0, _ :: _, _ => .error .typeError
  | fuel + 1, (j, c) :: st, q => do
      let (st, q) ← shellStep utf8procCategory str s st j c q
      shellLoop str s fuel st q

def finish (s : List (ℕ × Chr)) (q : ShellState) : Except ShellError (List (List (List Chr))) := do
  if q.inSingleQuotes then throw (.error "unterminated single quote")
  if q.inDoubleQuotes then throw (.error "unterminated double quote")
  let text ← substring s q.i (lastindex s + 1)
  return (endWord { q with arg := pushNonempty q.arg text }).args

-- `rstrip_shell` on the reversed string; `c_old` is the character after `c`.
def rstripShell (s : List Chr) (c_old : Option Chr) : List Chr :=
  match s with
  | [] => []
  | c :: s =>
      if c == lit '\\' && c_old == some (lit ' ') then lit ' ' :: c :: s
      else if isspace utf8procCategory c then rstripShell s (some c)
      else c :: s

-- `shell_parse(str, false)[0]`
def shellParse (str : List Chr) : Except ShellError (List (List (List Chr))) :=
  let s := (rstripShell utf8procCategory (str.dropWhile (isspace utf8procCategory)).reverse none).reverse
  if s.isEmpty then .ok []
  else do
    let q ← shellLoop utf8procCategory str (pairsFrom 0 s) s.length (pairsFrom 0 s) ⟨0, [], [], false, false, false⟩
    finish (pairsFrom 0 s) q

def shellSplit (s : List Chr) : Except ShellError (List (List Chr)) := do
  let parsed ← shellParse utf8procCategory s
  return parsed.map List.flatten

end Joolia.Shell
