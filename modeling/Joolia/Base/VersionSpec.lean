import Joolia.Base.Version
import Joolia.Library.Fallible
import Mathlib.Data.List.Sort

namespace Joolia.Version

inductive SpecError
  | argumentError (msg : String)
  | assertionError (msg : String)
deriving DecidableEq, Repr

-- The first `n` of three components; the others are zero.
structure VersionBound where
  t0 : UInt32
  t1 : UInt32
  t2 : UInt32
  n : ℕ
  n_le : n ≤ 3
  zeros : (n ≤ 0 → t0 = 0) ∧ (n ≤ 1 → t1 = 0) ∧ (n ≤ 2 → t2 = 0)
deriving DecidableEq, Repr

theorem zeros_zero : (0 ≤ 0 → (0 : UInt32) = 0) ∧ (0 ≤ 1 → (0 : UInt32) = 0) ∧ (0 ≤ 2 → (0 : UInt32) = 0) := by simp

theorem zeros_one (a : UInt32) : (1 ≤ 0 → a = 0) ∧ (1 ≤ 1 → (0 : UInt32) = 0) ∧ (1 ≤ 2 → (0 : UInt32) = 0) := by simp

theorem zeros_two (a b : UInt32) : (2 ≤ 0 → a = 0) ∧ (2 ≤ 1 → b = 0) ∧ (2 ≤ 2 → (0 : UInt32) = 0) := by simp

theorem zeros_three (a b c : UInt32) : (3 ≤ 0 → a = 0) ∧ (3 ≤ 1 → b = 0) ∧ (3 ≤ 2 → c = 0) := by simp

-- VersionBound(tin)
def VersionBound.new : List UInt32 → Except SpecError VersionBound
  | [] => .ok ⟨0, 0, 0, 0, Nat.zero_le 3, zeros_zero⟩
  | [a] => .ok ⟨a, 0, 0, 1, Nat.le_add_left 1 2, zeros_one a⟩
  | [a, b] => .ok ⟨a, b, 0, 2, Nat.le_add_left 2 1, zeros_two a b⟩
  | [a, b, c] => .ok ⟨a, b, c, 3, Nat.le_refl 3, zeros_three a b c⟩
  | _ => .error (.argumentError "VersionBound: you can only specify major, minor and patch versions")

-- `b[i]`
def VersionBound.getindex (b : VersionBound) (i : ℕ) : UInt32 :=
  match i with
  | 0 => b.t0
  | 1 => b.t1
  | _ => b.t2

-- `(x...) <= (y...)` for tuples of the same length
def tupleLe : List UInt32 → List UInt32 → Bool
  | x :: xs, y :: ys => if x < y then true else if y < x then false else tupleLe xs ys
  | _, _ => true

-- `v ≲ b`
def belowUpper (v : VersionNumber) (b : VersionBound) : Bool :=
  if b.n = 0 then true
  else if b.n = 1 then decide (v.major ≤ b.getindex 0)
  else if b.n = 2 then tupleLe [v.major, v.minor] [b.getindex 0, b.getindex 1]
  else tupleLe [v.major, v.minor, v.patch] [b.getindex 0, b.getindex 1, b.getindex 2]

-- `b ≲ v`
def aboveLower (b : VersionBound) (v : VersionNumber) : Bool :=
  if b.n = 0 then true
  else if b.n = 1 then decide (b.getindex 0 ≤ v.major)
  else if b.n = 2 then tupleLe [b.getindex 0, b.getindex 1] [v.major, v.minor]
  else tupleLe [b.getindex 0, b.getindex 1, b.getindex 2] [v.major, v.minor, v.patch]

-- `for i in 0:k-1  a[i] < b[i] && return less; a[i] > b[i] && return greater  end; return same`
def compareFirst (a b : VersionBound) (less greater same : Bool) (k : ℕ) : Bool :=
  go 0 k
where
  go (i : ℕ) : ℕ → Bool
    | 0 => same
    | k + 1 =>
        if a.getindex i < b.getindex i then less
        else if b.getindex i < a.getindex i then greater
        else go (i + 1) k

-- isless_ll
def islessLl (a b : VersionBound) : Bool :=
  compareFirst a b true false (decide (a.n < b.n)) (min a.n b.n)

def stricterlower (a b : VersionBound) : VersionBound := if islessLl a b then b else a

-- isless_uu
def islessUu (a b : VersionBound) : Bool :=
  compareFirst a b true false (decide (b.n < a.n)) (min a.n b.n)

def stricterupper (a b : VersionBound) : VersionBound := if islessUu a b then a else b

-- The difference `lo[n-1] - 1` is taken in Int64.
def isjoinable (up lo : VersionBound) : Bool :=
  if up.n = 0 ∧ lo.n = 0 then true
  else if up.n = lo.n then
    compareFirst up lo false true
      (!decide (((up.getindex (up.n - 1)).toNat : ℤ) < (lo.getindex (up.n - 1)).toNat - 1)) (up.n - 1)
  else compareFirst up lo false true true (min up.n lo.n)

structure VersionRange where
  lower : VersionBound
  upper : VersionBound
deriving DecidableEq, Repr

-- VersionRange(lo, hi)
def VersionRange.new (lo hi : VersionBound) : VersionRange :=
  if (lo.t0, lo.t1, lo.t2) = (hi.t0, hi.t1, hi.t2) then ⟨hi, hi⟩ else ⟨lo, hi⟩

def VersionRange.isempty (r : VersionRange) : Bool :=
  compareFirst r.lower r.upper false true false (min r.lower.n r.upper.n)

-- `v in r`
def VersionRange.contains (r : VersionRange) (v : VersionNumber) : Bool :=
  aboveLower r.lower v && belowUpper v r.upper

def VersionRange.intersect (a b : VersionRange) : VersionRange :=
  .new (stricterlower a.lower b.lower) (stricterupper a.upper b.upper)

-- The `lt` that union! sorts with.
def rangeLt (a b : VersionRange) : Bool :=
  islessLl a.lower b.lower || (decide (a.lower = b.lower) && islessUu a.upper b.upper)

-- The state of the loop of union!: the vector being rewritten, the range under construction and
-- the number of ranges written.
structure UnionState where
  ranges : List VersionRange
  lo : VersionBound
  up : VersionBound
  k0 : ℕ

def unionStep (s : UnionState) (k : ℕ) : Except SpecError UnionState :=
  match s.ranges[k]? with
  | none => .ok s
  | some r =>
      if r.isempty then .ok s
      else if isjoinable s.up r.lower then
        .ok (if islessUu s.up r.upper then { s with up := r.upper } else s)
      else
        let vr := VersionRange.new s.lo s.up
        if vr.isempty then .error (.assertionError "empty VersionRange")
        else .ok ⟨s.ranges.set s.k0 vr, r.lower, r.upper, s.k0 + 1⟩

-- union!
def unionRanges (ranges : List VersionRange) : Except SpecError (List VersionRange) := do
  let l := ranges.length
  if l = 0 then return ranges
  let ranges := ranges.mergeSort fun a b => !rangeLt b a
  match ranges.findIdx? fun r => !r.isempty with
  | none => return []
  | some ks =>
      match ranges[ks]? with
      | none => return []
      | some first =>
          let s ← (List.range' (ks + 1) (l - (ks + 1))).foldlM unionStep ⟨ranges, first.lower, first.upper, 0⟩
          let vr := VersionRange.new s.lo s.up
          if vr.isempty then return s.ranges.take s.k0
          else return (s.ranges.set s.k0 vr).take (s.k0 + 1)

structure VersionSpec where
  ranges : List VersionRange
deriving DecidableEq, Repr

-- VersionSpec(r::Vector)
def VersionSpec.new (r : List VersionRange) : Except SpecError VersionSpec := do
  if r.length = 1 then return ⟨r⟩ else return ⟨← unionRanges r⟩

-- `v in s`
def VersionSpec.contains (s : VersionSpec) (v : VersionNumber) : Bool := s.ranges.any (·.contains v)

def VersionSpec.isempty (s : VersionSpec) : Bool := s.ranges.all (·.isempty)

def emptyVersionspec : VersionSpec := ⟨[]⟩

def VersionSpec.intersect (A B : VersionSpec) : Except SpecError VersionSpec :=
  if A.isempty || B.isempty then .ok emptyVersionspec
  else VersionSpec.new (A.ranges.flatMap fun a => B.ranges.map fun b => a.intersect b)

def VersionSpec.union (A B : VersionSpec) : Except SpecError VersionSpec := do
  if A = B then return A
  let Ar ← unionRanges (A.ranges ++ B.ranges)
  VersionSpec.new Ar

-- `while i < n && !(range.lower ≲ versions[i])  i += 1  end`
def skipBelow (lower : VersionBound) (versions : List VersionNumber) (i : ℕ) : ℕ → ℕ
  | 0 => i
  | fuel + 1 =>
      match versions[i]? with
      | none => i
      | some v => if aboveLower lower v then i else skipBelow lower versions (i + 1) fuel

-- `while i < n && versions[i] ≲ range.upper  dest[i] = true; i += 1  end`
def markBelow (upper : VersionBound) (versions : List VersionNumber) (dest : List Bool) (i : ℕ) : ℕ → List Bool
  | 0 => dest
  | fuel + 1 =>
      match versions[i]? with
      | none => dest
      | some v =>
          if belowUpper v upper then markBelow upper versions (dest.set i true) (i + 1) fuel else dest

-- matches_spec_range!
def matchesSpecRange (dest : List Bool) (versions : List VersionNumber) (spec : VersionSpec) (n : ℕ) :
    Except SpecError (List Bool) := do
  if versions.length ≠ n then throw (.assertionError "invalid version list")
  if dest.length < n then throw (.assertionError "invalid dest length")
  let dest := List.replicate n false ++ dest.drop n
  return spec.ranges.foldl
    (fun dest range => markBelow range.upper versions dest (skipBelow range.lower versions 0 n) n) dest

end Joolia.Version
