import Mathlib.Data.List.DropRight
import Mathlib.Algebra.Ring.Int.Defs

namespace Joolia.Path

-- A string is its bytes. Separators and dots are bytes of their own, so that the slices at characters are slices at bytes.
abbrev Str := List UInt8

inductive PathError
  | ArgumentError (message : String)
deriving DecidableEq, Repr

def separator : UInt8 := '/'.toNat.toUInt8

def dot : UInt8 := '.'.toNat.toUInt8

-- `path_separator`, `curdir` and `pardir`
def path_separator : Str := [separator]

def curdir : Str := [dot]

def pardir : Str := [dot, dot]

def isseparator (c : UInt8) : Bool := c = separator

section Indices

-- `s[i:j]`
def slice (s : Str) (i : ℕ) (j : ℤ) : Str := (s.take (j + 1).toNat).drop i

def lastindex (s : Str) : ℤ := s.length - 1

-- The first index from `i` on whose byte passes the test
def findnext (testf : UInt8 → Bool) (s : Str) (i : ℕ) : Option ℕ := ((s.drop i).findIdx? testf).map (i + ·)

-- The last index up to `i` whose byte passes the test
def findprev (testf : UInt8 → Bool) (s : Str) : ℕ → Option ℕ
  | 0 => if testf (s.getD 0 0) then some 0 else none
  | i + 1 => if testf (s.getD (i + 1) 0) then some (i + 1) else findprev testf s i

def findlast (testf : UInt8 → Bool) (s : Str) : Option ℕ := if s = [] then none else findprev testf s (s.length - 1)

end Indices

section Split

def isabspath (path : Str) : Bool :=
  match path with
  | [] => false
  | c :: _ => isseparator c

-- On Unix no path has a drive.
def splitdir_nodrive (path : Str) : Str × Str :=
  match findlast isseparator path with
  | none => ([], path)
  | some lastsepind =>
      let dir := slice path 0 ((findprev (!isseparator ·) path lastsepind).getD 0)
      let tail := slice path (lastsepind + 1) (lastindex path)
      (dir, tail)

def isdirpath (path : Str) : Bool :=
  let after_last_separator := (splitdir_nodrive path).2
  [[], curdir, pardir].contains after_last_separator

def splitext (path : Str) : Str × Str :=
  match findlast (· = dot) path with
  | none => (path, [])
  | some lastdot =>
      if findnext isseparator path lastdot = none then
        let prev : ℤ := lastdot - 1
        if 0 ≤ prev ∧ ¬isseparator (path.getD prev.toNat 0) then (slice path 0 prev, slice path lastdot (lastindex path))
        else (path, [])
      else (path, [])

-- `while !isempty(p)`; `dir` is shorter than `p`.
def splitpathLoop : ℕ → Str → List Str → List Str
  | 0, _, out => out
  | fuel + 1, p, out =>
      if p = [] then out
      else
        let (dir, base) := splitdir_nodrive p
        if dir = p then dir :: out
        else splitpathLoop fuel dir (if base ≠ [] then base :: out else out)

def splitpath (p : Str) : List Str := splitpathLoop (p.length + 1) p (if p = [] then [p] else [])

def splitAtSeparatorsLoop (path : Str) (keepempty : Bool) : ℕ → ℕ → List Str
  | 0, _ => []
  | fuel + 1, start =>
      let nextsep := findnext isseparator path start
      let stop : ℤ := match nextsep with
        | none => lastindex path
        | some k => k - 1
      let substr := slice path start stop
      let later := match nextsep with
        | none => []
        | some k => splitAtSeparatorsLoop path keepempty fuel ((findnext (!isseparator ·) path (k + 1)).getD path.length)
      if keepempty || substr ≠ [] then substr :: later else later

-- `_split_at_separators`
def split_at_separators (path : Str) (keepempty : Bool) : List Str := splitAtSeparatorsLoop path keepempty (path.length + 1) 0

end Split

section Join

-- `join(parts, path_separator)`
def join (parts : List Str) : Str := path_separator.intercalate parts

-- One pass of the loop of `joinpath`
def joinNext (path p : Str) : Str :=
  if isabspath p then p
  else if path = [] ∨ path.getLast? = some separator then path ++ p
  else path ++ (path_separator ++ p)

def joinpath (paths : List Str) : Except PathError Str :=
  match paths with
  | [] => .error (.ArgumentError "collection of path components must be non-empty")
  | path :: paths => .ok (paths.foldl joinNext path)

end Join

section Normal

-- `deleteat!(parts, j:j+1)` for the first `j` with `parts[j] != ".." && parts[j+1] == ".."`
def deletePair : List Str → Option (List Str)
  | x :: y :: parts => if x ≠ pardir ∧ y = pardir then some parts else (deletePair (y :: parts)).map (x :: ·)
  | _ => none

-- Until a pass is clean; each other pass takes two parts away.
def deletePairs : ℕ → List Str → List Str
  | 0, parts => parts
  | fuel + 1, parts =>
      match deletePair parts with
      | none => parts
      | some parts => deletePairs fuel parts

def normpath (path : Str) : Str :=
  let isabs := isabspath path
  let isdir := isdirpath path
  let parts := (split_at_separators path false).filter (· ≠ curdir)
  let parts := deletePairs parts.length parts
  let parts := if isabs then parts.dropWhile (· = pardir) else if parts = [] then [curdir] else parts
  let path := join parts
  let path := if isabs then path_separator ++ path else path
  if isdir && !isdirpath path then path ++ path_separator else path

end Normal

section Relative

-- The working directory
variable (cwd : Str)

def abspath (a : Str) : Str :=
  if isabspath a then normpath a
  else match joinpath [cwd, a] with
    | .ok a => normpath a
    | .error _ => []

-- `while i + 1 < min(length(path_arr), length(start_arr))`; `left` passes are left.
def commonIndex (path_arr start_arr : List Str) : ℕ → ℤ → ℤ
  | 0, i => i
  | left + 1, i =>
      let i := i + 1
      if path_arr[i.toNat]? ≠ start_arr[i.toNat]? then i - 1 else commonIndex path_arr start_arr left i

-- `something(findlast(x -> !isempty(x), arr), -1)`
def lastNonempty (arr : List Str) : ℤ := (arr.rdropWhile (· = [])).length - 1

-- `prefix^n`
def repeated (s : Str) (n : ℤ) : Str := (List.replicate n.toNat s).flatten

def relpath (path startpath : Str) : Except PathError Str :=
  if path = [] then .error (.ArgumentError "`path` must be non-empty")
  else if startpath = [] then .error (.ArgumentError "`startpath` must be non-empty")
  else if path = startpath then .ok curdir
  else
    let path_arr := split_at_separators (abspath cwd path) true
    let start_arr := split_at_separators (abspath cwd startpath) true
    let i := commonIndex path_arr start_arr (min path_arr.length start_arr.length) (-1)
    let pathpart := join ((path_arr.take (lastNonempty path_arr + 1).toNat).drop (i + 1).toNat)
    let prefix_num := lastNonempty start_arr - i - 1
    let relpath_ := if prefix_num ≥ 0 then
        let upwards := pardir ++ path_separator
        if pathpart = [] then repeated upwards prefix_num ++ pardir
        else repeated upwards prefix_num ++ (pardir ++ (path_separator ++ pathpart))
      else pathpart
    .ok (if relpath_ = [] then curdir else relpath_)

end Relative

end Joolia.Path
