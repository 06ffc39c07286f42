import Joolia.Base.TypedRange.Division
import Joolia.Library.Fallible
import Joolia.Library.Segment
import Joolia.Library.Sorting
import Mathlib.Algebra.Ring.Int.Defs
import Mathlib.Algebra.Ring.Nat
import Mathlib.Data.Int.Basic
import Mathlib.Tactic.SplitIfs

namespace Joolia.Sort

open Fallible Sorting

-- `Outside` stands for an access that `@inbounds` lets through, `Diverges` for a loop that does not end.
inductive SortError
  | Outside
  | Diverges
  | AssertionError
  | ArgumentError
deriving DecidableEq, Repr

variable {α : Type}

-- `v[i]`
def read (v : List α) (i : ℤ) : Except SortError α :=
  if h : 0 ≤ i ∧ i.toNat < v.length then .ok (v.get ⟨i.toNat, h.2⟩) else .error .Outside

-- `v[i] = x`
def write (v : List α) (i : ℤ) (x : α) : Except SortError (List α) :=
  if 0 ≤ i ∧ i.toNat < v.length then .ok (v.set i.toNat x) else .error .Outside

theorem read_eq {v : List α} {i : ℤ} {n : ℕ} (hi : i = n) (hn : n < v.length) : read v i = .ok v[n] := by
  subst hi
  rw [read, dif_pos ⟨Int.natCast_nonneg n, by simpa using hn⟩]
  rfl

theorem write_eq {v : List α} {i : ℤ} {n : ℕ} (hi : i = n) (hn : n < v.length) (x : α) : write v i x = .ok (v.set n x) := by
  subst hi
  rw [write, if_pos ⟨Int.natCast_nonneg n, by simpa using hn⟩]
  rfl

section Algorithms

variable (lt : α → α → Bool)

-- `while j > lo`: the elements after `x` move up.
def insertionInner (x : α) (lo : ℤ) : ℕ → List α → ℤ → Except SortError (List α × ℤ)
  | 0, _, _ => .error .Diverges
  | fuel + 1, v, j =>
      if lo < j then do
        let y ← read v (j - 1)
        if !lt x y then .ok (v, j)
        else do
          let v ← write v j y
          insertionInner x lo fuel v (j - 1)
      else .ok (v, j)

-- The positions `lo:hi`
def positions (lo hi : ℤ) : List ℤ := (List.range (hi + 1 - lo).toNat).map fun (k : ℕ) => lo + k

def insertionPass (lo : ℤ) (v : List α) (i : ℤ) : Except SortError (List α) := do
  let x ← read v i
  let (v, j) ← insertionInner lt x lo ((i - lo).toNat + 1) v i
  write v j x

-- `_sort!(v, ::InsertionSortAlg, o, kw)`
def insertionSort (v : List α) (lo hi : ℤ) : Except SortError (List α) := (positions (lo + 1) hi).foldlM (insertionPass lt lo) v

-- `v[i], v[j] = v[j], v[i]`
def swap (v : List α) (i j : ℤ) : Except SortError (List α) := do
  let x ← read v i
  let y ← read v j
  let v ← write v i y
  write v j x

-- `reverse!(v, start, stop)`
def reverse (v : List α) (start stop : ℤ) : Except SortError (List α) :=
  if start < stop then
    if 0 ≤ start ∧ stop < v.length then
      (List.range ((stop - start + 1) / 2).toNat).foldlM (fun v (k : ℕ) => swap v (start + k) (stop - k)) v
    else .error .Outside
  else .ok v

-- `copyto!(dest, dstart, src, sstart, n)`
def copyto (dest : List α) (dstart : ℤ) (src : List α) (sstart n : ℤ) : Except SortError (List α) :=
  if n = 0 then .ok dest
  else if 0 < n ∧ 0 ≤ dstart ∧ dstart + n ≤ dest.length ∧ 0 ≤ sstart ∧ sstart + n ≤ src.length then
    .ok (dest.take dstart.toNat ++ Segment.seg src sstart.toNat n.toNat ++ dest.drop (dstart + n).toNat)
  else .error .Outside

-- `mod(x, lo:hi)` of an unsigned number
def modRange (x lo hi : ℤ) : ℤ := (x - lo) % 2 ^ 64 % (hi + 1 - lo) + lo

-- The loops of `partition!`: elements for which `f` holds fill `t` from its end.
def partitionLoop (v : List α) (f : α → Bool) (ahead bound hi : ℤ) : ℕ → List α → ℤ → ℤ → Except SortError (List α × ℤ × ℤ)
  | 0, _, _, _ => .error .Diverges
  | fuel + 1, t, lo, offset =>
      if lo < bound then do
        let x ← read v (lo + ahead)
        let fx := f x
        let t ← write t ((if fx then hi else lo) - offset) x
        partitionLoop v f ahead bound hi fuel t (lo + 1) (if fx then offset + 1 else offset)
      else .ok (t, lo, offset)

-- `partition!` up to the store of the pivot, which its caller makes.
def partition (hash : ℤ → ℤ) (t : List α) (lo hi offset : ℤ) (v : List α) (rev : Bool) : Except SortError (List α × α × ℤ) := do
  let pivotIndex := modRange (hash lo) lo hi
  let pivot ← read v pivotIndex
  let (t, lo, offset) ← partitionLoop v (fun x => if rev then !lt x pivot else lt pivot x) 0 pivotIndex hi ((hi - lo).toNat + 1) t lo
    offset
  let (t, lo, offset) ← partitionLoop v (fun x => if rev then lt pivot x else !lt x pivot) 1 hi hi ((hi - lo).toNat + 1) t lo offset
  .ok (t, pivot, lo - offset)

-- Where `pivot_dest` is `v` in both directions
def partitionBoth (hash : ℤ → ℤ) (v t : List α) (lo hi offset : ℤ) (swapped rev : Bool) :
    Except SortError (List α × List α × ℤ) :=
  if swapped then do
    let (v, pivot, j) ← partition lt hash v (lo + offset) (hi + offset) offset t rev
    let v ← write v j pivot
    .ok (v, t, j)
  else do
    let (t, pivot, j) ← partition lt hash t lo hi (-offset) v rev
    let v ← write v (j - offset) pivot
    .ok (v, t, j - offset)

def SMALL_THRESHOLD : ℤ := 20

-- Whether a side of the pivot holds no target; `missing` ends hold every position.
def skipsLower (alo : Option ℤ) (j : ℤ) : Bool := alo.any fun a => decide (j ≤ a)

def skipsUpper (ahi : Option ℤ) (j : ℤ) : Bool := ahi.any fun a => decide (a ≤ j)

-- `swap && copyto!(v, lo, t, lo+offset, n)`
def fetch (swapped : Bool) (v t : List α) (lo offset n : ℤ) : Except SortError (List α) :=
  if swapped then copyto v lo t (lo + offset) n else .ok v

-- `rev && reverse!(v, lo, hi)`
def turn (rev : Bool) (v : List α) (lo hi : ℤ) : Except SortError (List α) := if rev then reverse v lo hi else .ok v

-- `_sort!(v, a::ScratchQuickSort, o, kw; t, offset, swap, rev)`; the loop is the tail call.
def scratchQuickSort (hash : ℤ → ℤ) (alo ahi : Option ℤ) (offset : ℤ) :
    ℕ → List α → List α → ℤ → ℤ → Bool → Bool → Except SortError (List α × List α)
  | 0, _, _, _, _, _, _ => .error .Diverges
  | fuel + 1, v, t, lo, hi, swapped, rev =>
      if lo < hi ∧ hi - lo > SMALL_THRESHOLD then do
        let (v, t, j) ← partitionBoth lt hash v t lo hi offset swapped rev
        let swapped := !swapped
        if skipsLower alo j then do
          let v ← fetch swapped v t lo offset (j - lo)
          let v ← turn rev v lo (j - 1)
          scratchQuickSort hash alo ahi offset fuel v t (j + 1) hi swapped (!rev)
        else if skipsUpper ahi j then do
          let v ← fetch swapped v t (j + 1) offset (hi - j)
          let v ← turn (!rev) v (j + 1) hi
          scratchQuickSort hash alo ahi offset fuel v t lo (j - 1) swapped rev
        else if j - lo < hi - j then do
          let (v, t) ← scratchQuickSort hash alo ahi offset fuel v t lo (j - 1) swapped rev
          scratchQuickSort hash alo ahi offset fuel v t (j + 1) hi swapped (!rev)
        else do
          let (v, t) ← scratchQuickSort hash alo ahi offset fuel v t (j + 1) hi swapped (!rev)
          scratchQuickSort hash alo ahi offset fuel v t lo (j - 1) swapped rev
      else if hi < lo then .ok (v, t)
      else do
        let v ← fetch swapped v t lo offset (hi - lo + 1)
        let v ← turn rev v lo hi
        let v ← insertionSort lt v lo hi
        .ok (v, t)

end Algorithms

end Joolia.Sort

namespace Joolia.Sort

open Fallible Sorting TypedRange

section Model

variable {α : Type} (lt : α → α → Bool) (v : List α) (x : α)

-- array.jl: `lo +% ((hi -% lo) >>> 0x01)`
def midpoint (lo hi : ℤ) : ℤ := Int64.wrap (lo + UInt64.wrap (hi - lo) / 2)

-- `while len != 0`
def searchsortedfirstLoop : ℕ → ℤ → ℤ → ℤ → Except SortError ℤ
  | 0, _, _, _ => .error .Diverges
  | fuel + 1, lo, hi, len =>
      if len ≠ 0 then do
        let halfLen := len / 2
        let m := lo + halfLen
        let y ← read v m
        if lt y x then searchsortedfirstLoop fuel (m + 1) hi (len - (halfLen + 1))
        else searchsortedfirstLoop fuel lo m halfLen
      else .ok lo

def searchsortedfirst (lo hi : ℤ) : Except SortError ℤ :=
  let hi := hi + 1
  let len := hi - lo
  searchsortedfirstLoop lt v x (len.toNat + 1) lo hi len

-- `while lo != hi - u`
def searchsortedlastLoop : ℕ → ℤ → ℤ → Except SortError ℤ
  | 0, _, _ => .error .Diverges
  | fuel + 1, lo, hi =>
      if lo ≠ hi - 1 then do
        let m := midpoint lo hi
        let y ← read v m
        if lt x y then searchsortedlastLoop fuel lo m else searchsortedlastLoop fuel m hi
      else .ok lo

def searchsortedlast (lo hi : ℤ) : Except SortError ℤ :=
  let lo := lo - 1
  let hi := hi + 1
  searchsortedlastLoop lt v x (hi - lo).toNat lo hi

-- The fields of `start:stop`, where an empty range ends right before its start.
def unitRange (start stop : ℤ) : ℤ × ℤ := (start, if start ≤ stop then stop else start - 1)

def searchsortedLoop : ℕ → ℤ → ℤ → Except SortError (ℤ × ℤ)
  | 0, _, _ => .error .Diverges
  | fuel + 1, lo, hi =>
      if lo ≠ hi - 1 then do
        let m := midpoint lo hi
        let y ← read v m
        if lt y x then searchsortedLoop fuel m hi
        else if lt x y then searchsortedLoop fuel lo m
        else do
          let a ← searchsortedfirst lt v x (lo + 1) m
          let b ← searchsortedlast lt v x m (hi - 1)
          .ok (unitRange a b)
      else .ok (unitRange (lo + 1) (hi - 1))

def searchsorted (ilo ihi : ℤ) : Except SortError (ℤ × ℤ) :=
  let lo := ilo - 1
  let hi := ihi + 1
  searchsortedLoop lt v x (hi - lo).toNat lo hi

end Model

section Loops

variable {α : Type} {lt : α → α → Bool} {v : List α} {x : α}

theorem midpoint_eq {lo hi : ℤ} (hlo : -1 ≤ lo) (hlt : lo < hi) (hhi : hi < 2 ^ 63) : midpoint lo hi = (lo + hi) / 2 := by
  rw [midpoint, wrap_of_holds (holds_uint64.2 (by omega)), wrap_of_holds (holds_int64.2 (by omega))]
  omega

-- `k` elements come before `x`.
theorem searchsortedfirstLoop_spec {k : ℕ} (hk : ∀ i (hi : i < v.length), lt v[i] x = true ↔ i < k) (fuel : ℕ)
    {lo hi len : ℤ} (hfuel : len < fuel) (hlen : len = hi - lo) (hlo : 0 ≤ lo) (hlok : lo ≤ k) (hkhi : k ≤ hi)
    (hhi : hi ≤ v.length) : searchsortedfirstLoop lt v x fuel lo hi len = .ok k := by
  induction fuel generalizing lo hi len with
  | zero => omega
  | succ fuel ih =>
      rw [searchsortedfirstLoop]
      by_cases h0 : len = 0
      · rw [if_neg (not_not.2 h0)]
        exact congrArg Except.ok (by omega)
      · obtain ⟨m, hm⟩ := Int.eq_ofNat_of_zero_le (show 0 ≤ lo + len / 2 by omega)
        rw [if_pos h0]
        dsimp only
        rw [read_eq hm (by omega), ok_bind]
        have hcase := hk m (by omega)
        split_ifs with hlt
        · have hmk := hcase.1 hlt
          exact ih (by omega) (by omega) (by omega) (by omega) (by omega) (by omega)
        · have hmk : ¬m < k := fun h => hlt (hcase.2 h)
          exact ih (by omega) (by omega) (by omega) (by omega) (by omega) (by omega)

theorem searchsortedfirst_spec {k : ℕ} (hk : ∀ i (hi : i < v.length), lt v[i] x = true ↔ i < k) {lo hi : ℤ} (hlo : 0 ≤ lo)
    (hlok : lo ≤ k) (hkhi : k ≤ hi + 1) (hhi : hi < v.length) : searchsortedfirst lt v x lo hi = .ok (k : ℤ) :=
  searchsortedfirstLoop_spec hk _ (by omega) (by omega) hlo hlok hkhi (by omega)

-- `k` elements do not come after `x`.
theorem searchsortedlastLoop_spec (hsize : v.length < 2 ^ 63) {k : ℕ}
    (hk : ∀ i (hi : i < v.length), lt x v[i] = false ↔ i < k) (fuel : ℕ) {lo hi : ℤ} (hfuel : hi - lo ≤ fuel) (hlo : -1 ≤ lo)
    (hlok : lo < k) (hkhi : k ≤ hi) (hhi : hi ≤ v.length) : searchsortedlastLoop lt v x fuel lo hi = .ok ((k : ℤ) - 1) := by
  induction fuel generalizing lo hi with
  | zero => omega
  | succ fuel ih =>
      rw [searchsortedlastLoop]
      by_cases hend : lo = hi - 1
      · rw [if_neg (not_not.2 hend)]
        exact congrArg Except.ok (by omega)
      · have hmid := midpoint_eq hlo (by omega : lo < hi) (by omega)
        obtain ⟨m, hm⟩ := Int.eq_ofNat_of_zero_le (show 0 ≤ midpoint lo hi by omega)
        rw [if_pos hend]
        dsimp only
        rw [read_eq hm (by omega), ok_bind]
        have hcase := hk m (by omega)
        split_ifs with hlt
        · have hmk : ¬m < k := fun h => Bool.false_ne_true ((hcase.2 h).symm.trans hlt)
          exact ih (by omega) (by omega) (by omega) (by omega) (by omega)
        · have hmk := hcase.1 (Bool.eq_false_iff.2 hlt)
          exact ih (by omega) (by omega) (by omega) (by omega) (by omega)

theorem searchsortedlast_spec (hsize : v.length < 2 ^ 63) {k : ℕ}
    (hk : ∀ i (hi : i < v.length), lt x v[i] = false ↔ i < k) {lo hi : ℤ} (hlo : 0 ≤ lo) (hlok : lo ≤ k) (hkhi : k ≤ hi + 1)
    (hhi : hi < v.length) : searchsortedlast lt v x lo hi = .ok ((k : ℤ) - 1) :=
  searchsortedlastLoop_spec hsize hk _ (by omega) (by omega) (by omega) hkhi (by omega)

theorem unitRange_eq {start stop : ℤ} (h : start ≤ stop + 1) : unitRange start stop = (start, stop) := by
  rw [unitRange]
  split_ifs
  · rfl
  · rw [show start - 1 = stop by omega]

-- `j` elements come before `x`, and `k` do not come after it.
theorem searchsortedLoop_spec (hsize : v.length < 2 ^ 63) {j k : ℕ} (hjk : j ≤ k)
    (hj : ∀ i (hi : i < v.length), lt v[i] x = true ↔ i < j) (hk : ∀ i (hi : i < v.length), lt x v[i] = false ↔ i < k)
    (fuel : ℕ) {lo hi : ℤ} (hfuel : hi - lo ≤ fuel) (hlo : -1 ≤ lo) (hloj : lo < j) (hkhi : k ≤ hi) (hhi : hi ≤ v.length) :
    searchsortedLoop lt v x fuel lo hi = .ok ((j : ℤ), (k : ℤ) - 1) := by
  induction fuel generalizing lo hi with
  | zero => omega
  | succ fuel ih =>
      rw [searchsortedLoop]
      by_cases hend : lo = hi - 1
      · rw [if_neg (not_not.2 hend), unitRange_eq (by omega), show lo + 1 = (j : ℤ) by omega, show hi - 1 = (k : ℤ) - 1 by omega]
      · have hmid := midpoint_eq hlo (by omega : lo < hi) (by omega)
        obtain ⟨m, hm⟩ := Int.eq_ofNat_of_zero_le (show 0 ≤ midpoint lo hi by omega)
        rw [if_pos hend]
        dsimp only
        rw [read_eq hm (by omega), ok_bind]
        have hbefore := hj m (by omega)
        have hafter := hk m (by omega)
        by_cases hlt : lt v[m] x = true
        · have hmj := hbefore.1 hlt
          rw [if_pos hlt]
          exact ih (by omega) (by omega) (by omega) (by omega) (by omega)
        · have hmj : ¬m < j := fun h => hlt (hbefore.2 h)
          rw [if_neg hlt]
          by_cases hgt : lt x v[m] = true
          · have hmk : ¬m < k := fun h => Bool.false_ne_true ((hafter.2 h).symm.trans hgt)
            rw [if_pos hgt]
            exact ih (by omega) (by omega) (by omega) (by omega) (by omega)
          · -- an element equivalent to `x`: one end on each side of it
            have hmk := hafter.1 (Bool.eq_false_iff.2 hgt)
            rw [if_neg hgt, searchsortedfirst_spec hj (by omega) (by omega) (by omega) (by omega), ok_bind,
              searchsortedlast_spec hsize hk (by omega) (by omega) (by omega) (by omega), ok_bind, unitRange_eq (by omega)]

theorem searchsorted_spec (hsize : v.length < 2 ^ 63) {j k : ℕ} (hjk : j ≤ k) (hk' : k ≤ v.length)
    (hj : ∀ i (hi : i < v.length), lt v[i] x = true ↔ i < j) (hk : ∀ i (hi : i < v.length), lt x v[i] = false ↔ i < k) :
    searchsorted lt v x 0 (v.length - 1) = .ok ((j : ℤ), (k : ℤ) - 1) :=
  searchsortedLoop_spec hsize hjk hj hk _ (by omega) (by omega) (by omega) (by omega) (by omega)

end Loops

end Joolia.Sort
