import Joolia.Base.Sort.Counting
import Joolia.Base.TypedRange.Arithmetic

namespace Joolia.Sort

open Fallible Sorting Segment Buckets TypedRange
open IntFuncs (IntType)

section Vectors

-- The types of integers; `Bool` is one of them.
inductive IntegerType
  | machine (T : IntType)
  | bool
  | big
deriving DecidableEq

def IntegerType.Contains : IntegerType → ℤ → Prop
  | .machine T, x => Holds T x
  | .bool, x => x = 0 ∨ x = 1
  | .big, _ => True

instance (T : IntegerType) (x : ℤ) : Decidable (T.Contains x) :=
  match T with
  | .machine T => inferInstanceAs (Decidable (Holds T x))
  | .bool => inferInstanceAs (Decidable (x = 0 ∨ x = 1))
  | .big => inferInstanceAs (Decidable True)

structure IntegerVector (T : IntegerType) where
  data : List ℤ
  contained : ∀ x ∈ data, T.Contains x
  length_le : (data.length : ℤ) ≤ Int64.typemax

end Vectors

section Arithmetic

-- `sub_with_overflow(x, y)`; the difference of two `Bool`s is an `Int`.
def subWithOverflow : IntegerType → ℤ → ℤ → ℤ × Bool
  | .machine T, x, y => (T.wrap (x - y), decide ¬Holds T (x - y))
  | _, x, y => (x - y, false)

def differenceType : IntegerType → IntegerType
  | .bool => .machine Int64
  | T => T

-- `add_with_overflow(x, y)`
def addWithOverflow : IntegerType → ℤ → ℤ → ℤ × Bool
  | .machine T, x, y => (T.wrap (x + y), decide ¬Holds T (x + y))
  | _, x, y => (x + y, false)

-- `promote_type(Int, T)`, unless it is `BigInt`
def promoteInt : IntegerType → Option IntType
  | .machine T => some (promote Int64 T)
  | .bool => some Int64
  | .big => none

-- `x % T`
def convertWrapping : Option IntType → ℤ → ℤ
  | some T, x => T.wrap x
  | none, x => x

-- `x +% y` and `x -% y`, where the operands get the type `T`
def plusWrapping (T : Option IntType) (x y : ℤ) : ℤ := convertWrapping T (convertWrapping T x + convertWrapping T y)

def minusWrapping (T : Option IntType) (x y : ℤ) : ℤ := convertWrapping T (convertWrapping T x - convertWrapping T y)

end Arithmetic

section Sortperm

-- `lt(p::Perm, a, b)` over `Forward`
def permLt (data : List ℤ) (a b : ℤ) : Bool :=
  let da := data.getD a.toNat 0
  let db := data.getD b.toNat 0
  decide (da < db) || (!decide (db < da) && decide (a < b))

-- The positions `hi:-1:lo`
def downward (hi lo : ℤ) : List ℤ := (List.range (hi + 1 - lo).toNat).map fun (k : ℕ) => hi - k

-- `sortperm_int_range(x, rangelen, minval)`
def sortpermIntRange (T : IntegerType) (undef : ℕ → ℤ) (x : List ℤ) (rangelen minval : ℤ) : Except SortError (List ℤ) := do
  let P := promoteInt T
  let offs := minusWrapping P 0 minval
  let n := x.length
  let counts := List.replicate (plusWrapping P rangelen 1).toNat 0
  let counts ← x.foldlM (fun counts x => increment counts (plusWrapping P x offs)) counts
  let lastindex : ℤ := counts.length - 1
  let counts ← (downward lastindex 1).foldlM (fun counts i => do write counts i (← read counts (i - 1))) counts
  let counts ← write counts 0 0
  let counts ← (positions 1 lastindex).foldlM (fun counts i => do write counts i ((← read counts i) + (← read counts (i - 1)))) counts
  let (_, p) ← (positions 0 (n - 1)).foldlM (fun (counts, p) i => do
    let label := plusWrapping P (← read x i) offs
    let c ← read counts label
    let p ← write p c i
    let counts ← write counts label (c + 1)
    .ok (counts, p)) (counts, (List.range n).map undef)
  .ok p

-- `sort!(ix; order = Perm(Forward, A))`
def sortPositions (hash : ℤ → ℤ) (undef : ℕ → ℤ) (data : List ℤ) : Except SortError (List ℤ) :=
  defaultSort (permLt data) hash undef (positions 0 (data.length - 1)) 0 (data.length - 1)

-- `rangelen` and `min` where `_sortperm` counts
def countingRange (T : IntegerType) : List ℤ → Option (ℤ × ℤ)
  | x :: y :: xs =>
      let min := (y :: xs).foldl min x
      let max := (y :: xs).foldl max x
      let (diff, o1) := subWithOverflow T max min
      let (rangelen, o2) := addWithOverflow (differenceType T) diff 1
      if !(o1 || o2) && decide (rangelen < ((x :: y :: xs).length / 2 : ℕ)) then some (rangelen, min) else none
  | _ => none

-- `sortperm(A)`
def sortperm {T : IntegerType} (hash : ℤ → ℤ) (undef : ℕ → ℤ) (A : IntegerVector T) : Except SortError (List ℤ) :=
  match countingRange T A.data with
  | some (rangelen, min) => sortpermIntRange T undef A.data rangelen min
  | none => sortPositions hash undef A.data

end Sortperm

section Guard

variable {T : IntegerType} {data : List ℤ} {x rangelen minval : ℤ}

theorem typemax_promote (T : IntType) : Int64.typemax ≤ (promote Int64 T).typemax := by
  obtain ⟨signed, width⟩ := T
  cases signed <;> cases width <;> decide

-- A count of elements of a vector is a value of the wide type.
theorem convertWrapping_small (T : IntegerType) (h0 : 0 ≤ x) (hmax : x ≤ Int64.typemax) : convertWrapping (promoteInt T) x = x := by
  cases T with
  | machine T => exact wrap_of_holds ⟨(typemin_nonpos _).trans h0, hmax.trans (typemax_promote T)⟩
  | bool => exact wrap_of_holds ⟨(typemin_nonpos _).trans h0, hmax⟩
  | big => rfl

-- The offset undoes its own overflow.
theorem plusWrapping_minusWrapping (P : Option IntType) (x m : ℤ) :
    plusWrapping P x (minusWrapping P 0 m) = convertWrapping P (x - m) := by
  cases P with
  | none =>
      simp only [plusWrapping, minusWrapping, convertWrapping]
      omega
  | some P =>
      have hoffset : P.wrap (P.wrap (P.wrap 0 - P.wrap m)) ≡ 0 - m [ZMOD 2 ^ P.width.bits] :=
        (wrap_modEq P _).trans ((wrap_modEq P _).trans ((wrap_modEq P 0).sub (wrap_modEq P m)))
      have hsum := (wrap_modEq P x).add hoffset
      rw [zero_sub, ← sub_eq_add_neg] at hsum
      exact wrap_congr hsum

theorem foldl_min_le (xs : List ℤ) (x : ℤ) : ∀ y ∈ x :: xs, xs.foldl min x ≤ y := by
  induction xs generalizing x with
  | nil => simp
  | cons z xs ih =>
      intro y hy
      have hle := ih (min x z)
      have hhead := hle (min x z) List.mem_cons_self
      rcases List.mem_cons.1 hy with rfl | hy
      · exact hhead.trans (min_le_left _ _)
      · rcases List.mem_cons.1 hy with rfl | hy
        · exact hhead.trans (min_le_right _ _)
        · exact hle y (List.mem_cons_of_mem _ hy)

theorem le_foldl_max (xs : List ℤ) (x : ℤ) : ∀ y ∈ x :: xs, y ≤ xs.foldl max x := by
  induction xs generalizing x with
  | nil => simp
  | cons z xs ih =>
      intro y hy
      have hle := ih (max x z)
      have hhead := hle (max x z) List.mem_cons_self
      rcases List.mem_cons.1 hy with rfl | hy
      · exact (le_max_left _ _).trans hhead
      · rcases List.mem_cons.1 hy with rfl | hy
        · exact (le_max_right _ _).trans hhead
        · exact hle y (List.mem_cons_of_mem _ hy)

-- Without overflow the difference and the sum are exact.
theorem subWithOverflow_eq {z : ℤ} {y : ℤ} (h : subWithOverflow T x y = (z, false)) : z = x - y := by
  cases T with
  | machine T =>
      rw [subWithOverflow, Prod.mk.injEq, decide_eq_false_iff_not, not_not] at h
      rw [← h.1, wrap_of_holds h.2]
  | bool => exact (Prod.mk.inj h).1.symm
  | big => exact (Prod.mk.inj h).1.symm

theorem addWithOverflow_eq {z : ℤ} {y : ℤ} (h : addWithOverflow T x y = (z, false)) : z = x + y := by
  cases T with
  | machine T =>
      rw [addWithOverflow, Prod.mk.injEq, decide_eq_false_iff_not, not_not] at h
      rw [← h.1, wrap_of_holds h.2]
  | bool => exact (Prod.mk.inj h).1.symm
  | big => exact (Prod.mk.inj h).1.symm

theorem countingRange_spec (h : countingRange T data = some (rangelen, minval)) :
    (∀ x ∈ data, minval ≤ x ∧ x < minval + rangelen) ∧ 0 < rangelen ∧ rangelen < (data.length / 2 : ℕ) := by
  rcases data with - | ⟨x, - | ⟨y, xs⟩⟩
  · exact absurd h (by simp [countingRange])
  · exact absurd h (by simp [countingRange])
  · obtain ⟨lo, hlo⟩ : ∃ lo, lo = (y :: xs).foldl min x := ⟨_, rfl⟩
    obtain ⟨hi, hhi⟩ : ∃ hi, hi = (y :: xs).foldl max x := ⟨_, rfl⟩
    obtain ⟨diff, o1, hdiff⟩ : ∃ diff o1, subWithOverflow T hi lo = (diff, o1) := ⟨_, _, rfl⟩
    obtain ⟨len, o2, hlen⟩ : ∃ len o2, addWithOverflow (differenceType T) diff 1 = (len, o2) := ⟨_, _, rfl⟩
    simp only [countingRange, ← hlo, ← hhi, hdiff, hlen] at h
    obtain ⟨hguard, heq⟩ := Option.ite_none_right_eq_some.1 h
    rw [Option.some.injEq, Prod.mk.injEq] at heq
    simp only [Bool.and_eq_true, Bool.not_eq_true', Bool.or_eq_false_iff, decide_eq_true_eq] at hguard
    obtain ⟨⟨rfl, rfl⟩, hhalf⟩ := hguard
    have hsub := subWithOverflow_eq hdiff
    have hadd := addWithOverflow_eq hlen
    have hall : ∀ z ∈ x :: y :: xs, minval ≤ z ∧ z < minval + rangelen := fun z hz => by
      have hmin := foldl_min_le (y :: xs) x z hz
      have hmax := le_foldl_max (y :: xs) x z hz
      rw [← hlo] at hmin
      rw [← hhi] at hmax
      omega
    have hx := hall x List.mem_cons_self
    exact ⟨hall, by omega, by rw [← heq.1]; exact hhalf⟩

end Guard

section Counting

variable {data counts : List ℤ} {key : ℤ → ℕ} {k : ℕ}

-- One step up for every entry but the first.
theorem shift_spec (hlen : counts.length = k + 1) :
    ∃ counts', (downward k 1).foldlM (fun counts i => do write counts i (← read counts (i - 1))) counts = .ok counts' ∧
      counts'.length = k + 1 ∧ ∀ b, 0 < b → b < k + 1 → counts'[b]? = counts[b - 1]? := by
  rw [downward, show ((k : ℤ) + 1 - 1).toNat = k - 0 by omega, List.range_eq_range', List.foldlM_map]
  have hloop := foldlM_up (f := fun (counts : List ℤ) (j : ℕ) => do write counts ((k : ℤ) - j) (← read counts ((k : ℤ) - j - 1)))
    (fun j (counts' : List ℤ) => counts'.length = k + 1 ∧
      ∀ b, b < k + 1 → counts'[b]? = if k < b + j then counts[b - 1]? else counts[b]?) (Nat.zero_le k)
    (s := counts) ⟨hlen, fun b hb => by rw [if_neg (by omega)]⟩ fun j counts' _ hj hP => by
      obtain ⟨hlen', hget⟩ := hP
      have hread : counts'[k - j - 1]? = counts[k - j - 1]? := by rw [hget _ (by omega), if_neg (by omega)]
      rw [List.getElem?_eq_getElem (by omega)] at hread
      rw [read_eq (n := k - j - 1) (by omega) (by omega), ok_bind, write_eq (n := k - j) (by omega) (by omega)]
      refine ⟨_, rfl, by rw [List.length_set, hlen'], fun b hb => ?_⟩
      by_cases hbk : k - j = b
      · subst hbk
        rw [List.getElem?_set_self (by omega), hread, if_pos (by omega)]
      · rw [List.getElem?_set_ne hbk, hget b hb]
        split_ifs <;> first | rfl | omega
  obtain ⟨counts', hrun, hlen', hget⟩ := hloop
  refine ⟨counts', hrun, hlen', fun b hb hbk => ?_⟩
  rw [hget b hbk, if_pos (by omega)]

-- The sums of the entries up to each.
theorem sums_spec {f : ℕ → ℕ} (hlen : counts.length = k + 1) (hcounts : ∀ b, 0 < b → b < k + 1 → counts[b]? = some ((f (b - 1) : ℕ) : ℤ))
    {S : ℕ → ℕ} (hS : ∀ b, S (b + 1) = S b + f b) (h0 : counts[0]? = some ((S 0 : ℕ) : ℤ)) :
    ∃ counts', (positions 1 k).foldlM (fun counts i => do write counts i ((← read counts i) + (← read counts (i - 1)))) counts =
        .ok counts' ∧ counts'.length = k + 1 ∧ ∀ b < k + 1, counts'[b]? = some ((S b : ℕ) : ℤ) := by
  have hstart : ∀ b, b < k + 1 → counts[b]? = some (if b ≤ 0 then ((S b : ℕ) : ℤ) else ((f (b - 1) : ℕ) : ℤ)) := fun b hb => by
    rcases Nat.eq_zero_or_pos b with rfl | hpos
    · rw [if_pos (Nat.le_refl 0), h0]
    · rw [if_neg (by omega), hcounts b hpos hb]
  rw [show (k : ℤ) = 1 + k - 1 by omega, positions_eq, List.foldlM_map]
  obtain ⟨counts', hrun, hlen', hget⟩ := foldlM_up
    (f := fun (counts : List ℤ) (j : ℕ) => do write counts (1 + j : ℤ) ((← read counts (1 + j : ℤ)) + (← read counts ((1 + j : ℤ) - 1))))
    (fun j (counts' : List ℤ) => counts'.length = k + 1 ∧
      ∀ b, b < k + 1 → counts'[b]? = some (if b ≤ j then ((S b : ℕ) : ℤ) else ((f (b - 1) : ℕ) : ℤ))) (Nat.zero_le k)
    (s := counts) ⟨hlen, hstart⟩ fun j counts' _ hj hP => by
    obtain ⟨hlen', hget⟩ := hP
    have hsum : (f j : ℤ) + S j = (S (j + 1) : ℕ) := by rw [hS]; push_cast; omega
    have hnext : read counts' (1 + j : ℤ) = .ok (f j : ℤ) := read_eq_of_getElem? (n := j + 1) (by omega)
      (by rw [hget _ (by omega), if_neg (by omega), Nat.add_sub_cancel])
    have hlast : read counts' ((1 + j : ℤ) - 1) = .ok (S j : ℤ) := read_eq_of_getElem? (n := j) (by omega)
      (by rw [hget _ (by omega), if_pos (Nat.le_refl j)])
    rw [hnext, ok_bind, hlast, ok_bind, write_eq (n := j + 1) (by omega) (by omega), hsum]
    refine ⟨_, rfl, by rw [List.length_set, hlen'], fun b hb => ?_⟩
    by_cases hbj : j + 1 = b
    · subst hbj
      rw [List.getElem?_set_self (by omega), if_pos (Nat.le_refl _)]
    · rw [List.getElem?_set_ne hbj, hget b hb]
      split_ifs <;> first | rfl | omega
  refine ⟨counts', hrun, hlen', fun b hb => ?_⟩
  rw [hget b hb, if_pos (by omega)]

end Counting

section Placing

variable {T : IntegerType} {data : List ℤ} {rangelen minval : ℤ}

-- The element at a position, counted from the smallest
def rankAt (data : List ℤ) (minval i : ℤ) : ℕ := (data.getD i.toNat 0 - minval).toNat

theorem mem_positions {i lo hi : ℤ} : i ∈ positions lo hi ↔ lo ≤ i ∧ i ≤ hi := by
  rw [positions, List.mem_map]
  constructor
  · rintro ⟨k, hk, rfl⟩
    rw [List.mem_range] at hk
    omega
  · rintro ⟨hlo, hhi⟩
    exact ⟨(i - lo).toNat, List.mem_range.2 (by omega), by omega⟩

theorem data_eq_map (data : List ℤ) : data = (positions 0 (data.length - 1)).map fun i => data.getD i.toNat 0 := by
  refine List.ext_getElem (by simp [positions]) fun i hi hi' => ?_
  simp [positions, hi]

-- Positions have the keys of their elements.
theorem start_positions (data : List ℤ) (minval : ℤ) (b : ℕ) :
    start (rankAt data minval) (positions 0 (data.length - 1)) b = start (fun x => (x - minval).toNat) data b := by
  conv_rhs => rw [data_eq_map data]
  rw [start, start, List.countP_map]
  rfl

theorem length_positions (n : ℕ) : (positions 0 ((n : ℤ) - 1)).length = n := by simp [positions]

-- The second loop over the elements
theorem distribute_positions {index : ℤ → ℤ} {counts : List ℤ} {k : ℕ} (hkey : ∀ x ∈ data, (x - minval).toNat < k)
    (hindex : ∀ x ∈ data, index x = ((x - minval).toNat : ℕ)) (hlen : counts.length = k + 1)
    (hcounts : ∀ b < k + 1, counts[b]? = some ((start (rankAt data minval) (positions 0 (data.length - 1)) b : ℕ) : ℤ))
    {t : List ℤ} (ht : t.length = data.length) :
    ∃ counts', (positions 0 (data.length - 1)).foldlM (fun (counts, p) i => do
        let label := index (← read data i)
        let c ← read counts label
        let p ← write p c i
        let counts ← write counts label (c + 1)
        .ok (counts, p)) (counts, t) =
      .ok (counts', distributed (rankAt data minval) (positions 0 (data.length - 1)) k) := by
  have hread : ∀ i ∈ positions 0 ((data.length : ℤ) - 1), ∃ x ∈ data, read data i = .ok x ∧ rankAt data minval i = (x - minval).toNat :=
    fun i hi => by
      rw [mem_positions] at hi
      have hi' : i.toNat < data.length := by omega
      exact ⟨data[i.toNat], List.getElem_mem hi', read_eq (by omega) hi', by
        rw [rankAt, List.getD_eq_getElem?_getD, List.getElem?_eq_getElem hi', Option.getD_some]⟩
  have hn := length_positions data.length
  have hbody : ∀ i ∈ positions 0 ((data.length : ℤ) - 1), ∀ s : List ℤ × List ℤ, (do
        let label := index (← read data i)
        let c ← read s.1 label
        let p ← write s.2 c i
        let counts ← write s.1 label (c + 1)
        .ok (counts, p)) = place s.1 s.2 (rankAt data minval i) i := fun i hi s => by
    obtain ⟨x, hx, hread, hrank⟩ := hread i hi
    rw [hread, ok_bind, hindex x hx, hrank, place]
  have hbelow : ∀ i ∈ positions 0 ((data.length : ℤ) - 1), rankAt data minval i < k := fun i hi => by
    obtain ⟨x, hx, -, hrank⟩ := hread i hi
    rw [hrank]
    exact hkey x hx
  obtain ⟨counts', t', hrun, hout, -, hseg⟩ := @distribute_spec _ counts (positions 0 ((data.length : ℤ) - 1)) t (rankAt data minval)
    (fun i => rankAt data minval i) k 0 (fun _ _ => rfl) hbelow (by omega) (fun b hb => by rw [hcounts b (by omega), Nat.zero_add]) (by omega)
  have ht' := hout.length
  have hwhole : seg t' 0 data.length = t' := by rw [← ht, ← ht', seg_full]
  rw [hn, hwhole] at hseg
  exact ⟨counts', by rw [foldlM_congr hbody, hrun, hseg]⟩

theorem sortpermIntRange_eq (T : IntegerType) (undef : ℕ → ℤ) (hlen : (data.length : ℤ) ≤ Int64.typemax)
    (hrange : ∀ x ∈ data, minval ≤ x ∧ x < minval + rangelen) (hpos : 0 < rangelen) (hhalf : rangelen < (data.length / 2 : ℕ)) :
    sortpermIntRange T undef data rangelen minval =
      .ok (distributed (rankAt data minval) (positions 0 (data.length - 1)) rangelen.toNat) := by
  obtain ⟨k, rfl⟩ : ∃ k : ℕ, rangelen = k := ⟨rangelen.toNat, by omega⟩
  rw [Int.toNat_natCast]
  have hkey : ∀ x ∈ data, (x - minval).toNat < k := fun x hx => by
    have hx := hrange x hx
    omega
  have hindex : ∀ x ∈ data, plusWrapping (promoteInt T) x (minusWrapping (promoteInt T) 0 minval) = ((x - minval).toNat : ℕ) :=
    fun x hx => by
      have hx := hrange x hx
      rw [plusWrapping_minusWrapping, convertWrapping_small T (by omega) (by omega)]
      omega
  have hsize : (plusWrapping (promoteInt T) (k : ℤ) 1).toNat = k + 1 := by
    rw [plusWrapping, convertWrapping_small T (by omega : (0 : ℤ) ≤ k) (by omega), convertWrapping_small T (by omega : (0 : ℤ) ≤ 1)
      (by omega), convertWrapping_small T (by omega) (by omega)]
    omega
  obtain ⟨c1, hrun1, hlen1, hget1⟩ := frequencies_spec (m := k + 1) hindex fun x hx => Nat.lt_succ_of_lt (hkey x hx)
  obtain ⟨c2, hrun2, hlen2, hget2⟩ := shift_spec hlen1
  obtain ⟨c3, hrun3, hlen3, hget3⟩ := @sums_spec (c2.set 0 0) _ (fun b => (bucket (fun x => (x - minval).toNat) data b).length) (by rw
      [List.length_set, hlen2]) (fun b hb hbk => by rw [List.getElem?_set_ne (by omega), hget2 b hb hbk, hget1 _ (by omega)]) _ (start_succ
      _ data) (by rw [List.getElem?_set_self (by omega), start_zero]; rfl)
  obtain ⟨c4, hrun4⟩ := distribute_positions (t := (List.range data.length).map undef) hkey hindex hlen3
    (fun b hb => by rw [start_positions, hget3 b hb]) (by simp)
  dsimp only at hrun4
  rw [sortpermIntRange]
  dsimp only
  rw [hsize, hrun1, ok_bind, hlen1, show ((k + 1 : ℕ) : ℤ) - 1 = k by omega, hrun2, ok_bind,
    write_eq (by omega : (0 : ℤ) = (0 : ℕ)) (by omega), ok_bind, hrun3, ok_bind, hrun4, ok_bind]

end Placing

section Theorems

variable {T : IntegerType} {data p q : List ℤ}

-- The elements at the positions `p` are sorted, and equal ones stand in their order.
def StablePermutation (data p : List ℤ) : Prop :=
  p.Perm (positions 0 (data.length - 1)) ∧
    p.Pairwise fun i j => data.getD i.toNat 0 < data.getD j.toNat 0 ∨ data.getD i.toNat 0 = data.getD j.toNat 0 ∧ i < j

theorem permLt_iff {i j : ℤ} : permLt data i j = true ↔
    data.getD i.toNat 0 < data.getD j.toNat 0 ∨ data.getD i.toNat 0 = data.getD j.toNat 0 ∧ i < j := by
  simp only [permLt, Bool.or_eq_true, Bool.and_eq_true, Bool.not_eq_true', decide_eq_true_eq, decide_eq_false_iff_not]
  omega

theorem permLt_false_iff {i j : ℤ} : permLt data i j = false ↔
    data.getD j.toNat 0 < data.getD i.toNat 0 ∨ data.getD i.toNat 0 = data.getD j.toNat 0 ∧ j ≤ i := by
  rw [← Bool.not_eq_true, permLt_iff]
  omega

theorem strictWeak_permLt (data : List ℤ) : StrictWeak (permLt data) := by
  refine ⟨fun i => ?_, fun hij hjk => ?_, fun hij hji hjk hkj => ?_⟩
  · rw [permLt_false_iff]
    omega
  · rw [permLt_iff] at hij hjk ⊢
    omega
  · rw [permLt_false_iff] at hij hji hjk hkj ⊢
    rw [permLt_false_iff]
    omega

-- There is one such permutation.
theorem StablePermutation.unique (hp : StablePermutation data p) (hq : StablePermutation data q) : p = q := by
  refine List.Perm.eq_of_pairwise (fun i j _ _ hij hji => ?_) hp.2 hq.2 (hp.1.trans hq.1.symm)
  omega

theorem sortpermIntRange_stable {rangelen minval : ℤ} (A : IntegerVector T) (undef : ℕ → ℤ)
    (h : countingRange T A.data = some (rangelen, minval)) :
    ∃ p, sortpermIntRange T undef A.data rangelen minval = .ok p ∧ StablePermutation A.data p := by
  obtain ⟨hrange, hpos, hhalf⟩ := countingRange_spec h
  have hrank : ∀ i ∈ positions 0 ((A.data.length : ℤ) - 1), ∃ x ∈ A.data, A.data.getD i.toNat 0 = x := fun i hi => by
    rw [mem_positions] at hi
    have hi' : i.toNat < A.data.length := by omega
    exact ⟨_, List.getElem_mem hi', by rw [List.getD_eq_getElem?_getD, List.getElem?_eq_getElem hi', Option.getD_some]⟩
  refine ⟨_, sortpermIntRange_eq T undef A.length_le hrange hpos hhalf, perm_distributed fun i hi => ?_, ?_⟩
  · obtain ⟨x, hx, hget⟩ := hrank i hi
    have hbounds := hrange x hx
    rw [rankAt, hget]
    omega
  · have hordered : (positions 0 ((A.data.length : ℤ) - 1)).Pairwise (· < ·) := by
      rw [positions, List.pairwise_map]
      exact List.pairwise_lt_range.imp fun hij => by omega
    refine (pairwise_distributed hordered).imp_of_mem fun hi hj hij => ?_
    obtain ⟨x, hx, hgetx⟩ := hrank _ (mem_distributed hi).1
    obtain ⟨y, hy, hgety⟩ := hrank _ (mem_distributed hj).1
    have hboundx := hrange x hx
    have hboundy := hrange y hy
    rw [rankAt, rankAt, hgetx, hgety] at hij
    rw [hgetx, hgety]
    omega

theorem sortPositions_stable (hash : ℤ → ℤ) (undef : ℕ → ℤ) (data : List ℤ) :
    ∃ p, sortPositions hash undef data = .ok p ∧ StablePermutation data p := by
  have hlt := strictWeak_permLt data
  have hlen := length_positions data.length
  obtain ⟨p, hrun, hre, hsorted⟩ := @defaultSort_spec _ _ (positions 0 ((data.length : ℤ) - 1)) 0 data.length hlt hash undef (by omega)
  have hperm := hre.perm_all (by omega)
  have hp : seg p 0 data.length = p := by
    rw [← hlen, ← hre.length, seg_full]
  rw [hp] at hsorted
  rw [Nat.cast_zero, Int.zero_add] at hrun
  refine ⟨p, hrun, hperm, ?_⟩
  have hdistinct : p.Nodup := hperm.nodup_iff.2 (by
    rw [positions]
    exact List.nodup_range.map fun i j hij => by simpa using hij)
  refine hsorted.imp₂ (fun i j hij hne => ?_) hdistinct
  rw [permLt_false_iff] at hij
  omega

-- `sortperm` returns the stable sorting permutation; where it counts, sorting would have returned the same.
theorem sortperm_stable {T : IntegerType} (hash : ℤ → ℤ) (undef : ℕ → ℤ) (A : IntegerVector T) :
    (∃ p, sortperm hash undef A = .ok p ∧ StablePermutation A.data p) ∧
      ∀ rangelen minval, countingRange T A.data = some (rangelen, minval) →
        sortpermIntRange T undef A.data rangelen minval = sortPositions hash undef A.data := by
  obtain ⟨q, hq, hqs⟩ := sortPositions_stable hash undef A.data
  refine ⟨?_, fun rangelen minval hcount => ?_⟩
  · rw [sortperm]
    cases hcount : countingRange T A.data with
    | none => exact ⟨q, hq, hqs⟩
    | some range => exact sortpermIntRange_stable A undef hcount
  · obtain ⟨p, hp, hps⟩ := sortpermIntRange_stable A undef hcount
    rw [hp, hq, hps.unique hqs]

-- `Int8[-127, -128, -127, -127, -128, -127]`
theorem sortperm_stable_typemin :
    sortpermIntRange (.machine ⟨true, .w8⟩) (fun _ => 0) [-127, -128, -127, -127, -128, -127] 2 (-128) =
      sortPositions (fun i => i) (fun _ => 0) [-127, -128, -127, -127, -128, -127] :=
  (sortperm_stable (fun i => i) (fun _ => 0)
    (⟨[-127, -128, -127, -127, -128, -127], by decide, by decide⟩ : IntegerVector (.machine ⟨true, .w8⟩))).2 2 (-128) (by decide)

end Theorems

end Joolia.Sort
