import Joolia.Base.IntFuncs
import Joolia.Base.Sort.Counting
import Mathlib.Data.Nat.Bitwise

namespace Joolia.Sort

open Fallible Sorting Segment Buckets
open IntFuncs (Width)

variable {w : ℕ}

section Algorithms

-- `Vector{Int}(undef, n)`; its bytes have to be countable.
def newCounts (undef : ℕ → ℤ) (n : ℤ) : Except SortError (List ℤ) :=
  if 0 ≤ n ∧ 8 * n < 2 ^ 63 - 2 then .ok ((List.range n.toNat).map undef) else .error .ArgumentError

-- `cumsum!(counts, counts)`
def cumsum : ℤ → List ℤ → List ℤ
  | _, [] => []
  | s, c :: counts => (s + c) :: cumsum (s + c) counts

-- `x >> shift`
def shiftRight (x : BitVec w) (shift : BitVec 64) : BitVec w :=
  if 0 ≤ shift.toInt then x >>> shift.toNat else x <<< (-shift.toInt).toNat

-- `UInt(1) << chunk_size - 1`
def mask (chunkSize : ℕ) : BitVec 64 := 1#64 <<< chunkSize - 1#64

-- `(x >> shift)&mask`, in the wider of the two types
def digit (shift : BitVec 64) (chunkSize : ℕ) (x : BitVec w) : ℕ := (shiftRight x shift).toNat &&& (mask chunkSize).toNat

def radixSortPass (t : List (BitVec w)) (lo hi offset : ℤ) (counts : List ℤ) (v : List (BitVec w)) (shift : BitVec 64) (chunkSize : ℕ) :
    Except SortError (List (BitVec w) × List ℤ) := do
  let counts := List.replicate counts.length 0
  let counts ← (positions lo hi).foldlM (fun counts k => do
    let x ← read v k
    increment counts ((digit shift chunkSize x + 1) % 2 ^ max w 64 : ℕ)) counts
  let counts ← write counts 0 (lo + offset)
  let counts := cumsum 0 counts
  let (counts, t) ← (positions lo hi).foldlM (fun (s : List ℤ × List (BitVec w)) k => do
    let x ← read v k
    place s.1 s.2 (digit shift chunkSize x) x) (counts, t)
  .ok (t, counts)

-- The loop of `radix_sort!`, two passes a turn
def radixSortLoop (lo hi : ℤ) (bits : ℕ) (offset : ℤ) (chunkSize : ℕ) :
    ℕ → List (BitVec w) → List (BitVec w) → List ℤ → BitVec 64 → Except SortError (Bool × List (BitVec w) × List (BitVec w))
  | 0, _, _, _, _ => .error .Diverges
  | fuel + 1, v, t, counts, shift => do
      let (t, counts) ← radixSortPass t lo hi offset counts v shift chunkSize
      let shift := shift + BitVec.ofNat 64 chunkSize
      if shift.toInt < bits then do
        let (v, counts) ← radixSortPass v (lo + offset) (hi + offset) (-offset) counts t shift chunkSize
        let shift := shift + BitVec.ofNat 64 chunkSize
        if shift.toInt < bits then radixSortLoop lo hi bits offset chunkSize fuel v t counts shift
        else .ok (true, v, t)
      else .ok (false, v, t)

-- `radix_sort!(v, lo, hi, bits, t, offset, chunk_size)`, with both vectors
def radixSort (undef : ℕ → ℤ) (v : List (BitVec w)) (lo hi : ℤ) (bits : ℕ) (t : List (BitVec w)) (offset : ℤ) (chunkSize : ℕ) :
    Except SortError (Bool × List (BitVec w) × List (BitVec w)) := do
  let counts ← newCounts undef (1#64 <<< chunkSize + 1#64).toInt
  radixSortLoop lo hi bits offset chunkSize (bits + 1) v t counts 0

-- The types of `uint_map`, whose elements are given by their bits
inductive Element
  | unsigned (width : Width)
  | signed (width : Width)
  | char
deriving DecidableEq

def Element.bits : Element → ℕ
  | .unsigned width => width.bits
  | .signed width => width.bits
  | .char => 32

-- `isless(x, y)`
def Element.isless : (T : Element) → BitVec T.bits → BitVec T.bits → Bool
  | .signed _, x, y => x.slt y
  | _, x, y => x.ult y

-- `lt(o, x, y)`, for `o` one of `Forward` and `Reverse`
def Element.lt (T : Element) (rev : Bool) (x y : BitVec T.bits) : Bool := if rev then T.isless y x else T.isless x y

-- `xor(x, typemin(x))` for signed numbers
def flipSign : (T : Element) → BitVec T.bits → BitVec T.bits
  | .signed width, x => x ^^^ BitVec.intMin (Element.signed width).bits
  | _, x => x

def uintMap (T : Element) (rev : Bool) (x : BitVec T.bits) : BitVec T.bits := if rev then ~~~flipSign T x else flipSign T x

def uintUnmap (T : Element) (rev : Bool) (u : BitVec T.bits) : BitVec T.bits := flipSign T (if rev then ~~~u else u)

-- `for i in lo:hi; v[i] = f(v[i]); end`
def mapAt (f : BitVec w → BitVec w) (v : List (BitVec w)) (lo hi : ℤ) : Except SortError (List (BitVec w)) :=
  (positions lo hi).foldlM (fun v i => do write v i (f (← read v i))) v

-- `for i in lo:hi; v[i] = f(u[i+index_offset]); end`
def mapFrom (f : BitVec w → BitVec w) (u v : List (BitVec w)) (lo hi indexOffset : ℤ) : Except SortError (List (BitVec w)) :=
  (positions lo hi).foldlM (fun v i => do write v i (f (← read u (i + indexOffset)))) v

-- `top_set_bit(x)`
def topSetBit (x : BitVec w) : ℕ := w - x.clz.toNat

-- `_sort!(v, ::RadixSort, o, kw)`; the numbers `u` share the memory of `v`, and `tu` that of the scratch vector `t`.
def radixSortMapped (T : Element) (rev : Bool) (undef : ℕ → ℤ) (chunkSize : ℕ) (v : List (BitVec T.bits)) (lo hi : ℤ)
    (mn mx : BitVec T.bits) (t : List (BitVec T.bits)) : Except SortError (List (BitVec T.bits)) := do
  let umn := uintMap T rev mn
  let urange := uintMap T rev mx - umn
  let u ← mapAt (uintMap T rev) v lo hi
  let u ← mapAt (· - umn) u lo hi
  let (inPlace, u, tu) ← radixSort undef u lo hi (topSetBit urange) t (0 - lo) chunkSize
  if inPlace then mapAt (fun u => uintUnmap T rev (u + umn)) u lo hi
  else mapFrom (fun u => uintUnmap T rev (u + umn)) tu u lo hi (0 - lo)

end Algorithms

section Passes

variable {v t : List (BitVec w)} {counts : List ℤ} {lo n base chunkSize : ℕ} {offset : ℤ}

theorem foldlM_read {α σ : Type} {v : List α} {lo n : ℕ} (hfit : lo + n ≤ v.length) (f : σ → α → Except SortError σ) (s : σ) :
    (positions lo (lo + n - 1)).foldlM (fun s i => do f s (← read v i)) s = (seg v lo n).foldlM f s := by
  rw [positions_eq, List.foldlM_map, Nat.sub_zero]
  induction n with
  | zero => rw [seg_zero]; rfl
  | succ n ih =>
      rw [List.range'_concat, List.foldlM_append, seg_succ (by omega), List.foldlM_append, ih (by omega)]
      refine bind_congr fun s' => ?_
      rw [List.foldlM_cons, List.foldlM_cons, read_eq (n := lo + n) (by omega) (by omega), ok_bind]
      rfl

theorem getElem?_cumsum {f : ℕ → ℤ} {counts : List ℤ} {s : ℤ} (h : ∀ b (hb : b < counts.length), counts[b] = f b - if b = 0 then s else f (b - 1))
    {b : ℕ} (hb : b < counts.length) : (cumsum s counts)[b]? = some (f b) := by
  induction counts generalizing s f b with
  | nil => exact absurd hb (Nat.not_lt_zero b)
  | cons c counts ih =>
      have hc := h 0 (Nat.succ_pos _)
      rw [List.getElem_cons_zero, if_pos rfl] at hc
      rw [cumsum]
      cases b with
      | zero =>
          rw [List.getElem?_cons_zero, hc]
          congr 1
          omega
      | succ b =>
          rw [List.getElem?_cons_succ]
          refine ih (f := fun b => f (b + 1)) (fun b hb => ?_) (by simpa using hb)
          have hnext := h (b + 1) (by simpa using hb)
          rw [List.getElem_cons_succ, if_neg (by omega), Nat.add_sub_cancel] at hnext
          rw [hnext]
          cases b with
          | zero => rw [if_pos rfl]; omega
          | succ b => rw [if_neg (by omega)]; rfl

theorem length_cumsum (s : ℤ) (counts : List ℤ) : (cumsum s counts).length = counts.length := by
  induction counts generalizing s with
  | nil => rfl
  | cons c counts ih => rw [cumsum, List.length_cons, List.length_cons, ih]

-- The digit at `s`, of `chunkSize` bits
def digitAt (s chunkSize : ℕ) (x : BitVec w) : ℕ := x.toNat / 2 ^ s % 2 ^ chunkSize

theorem toInt_shift {s : ℕ} (hs : s < 2 ^ 63) : (BitVec.ofNat 64 s).toInt = s := by
  rw [BitVec.toInt_eq_toNat_of_lt] <;> rw [BitVec.toNat_ofNat, Nat.mod_eq_of_lt (by omega)]
  omega

theorem mask_eq (hchunk : chunkSize < 64) : (mask chunkSize).toNat = 2 ^ chunkSize - 1 := by
  have hlt : 2 ^ chunkSize < 2 ^ 64 := Nat.pow_lt_pow_right (by omega) hchunk
  have hpos : 0 < 2 ^ chunkSize := Nat.two_pow_pos _
  rw [mask, BitVec.toNat_sub, BitVec.toNat_shiftLeft, BitVec.toNat_ofNat, Nat.shiftLeft_eq]
  omega

theorem digit_eq {s : ℕ} (hs : s < 2 ^ 63) (hchunk : chunkSize < 64) (x : BitVec w) :
    digit (BitVec.ofNat 64 s) chunkSize x = digitAt s chunkSize x := by
  rw [digit, shiftRight, toInt_shift hs, if_pos (by omega), mask_eq hchunk, Nat.and_two_pow_sub_one_eq_mod, BitVec.toNat_ushiftRight,
    BitVec.toNat_ofNat, Nat.mod_eq_of_lt (by omega : s < 2 ^ 64), Nat.shiftRight_eq_div_pow, digitAt]

-- One pass distributes the elements by a digit.
theorem radixSortPass_spec {s : ℕ} (hs : s < 2 ^ 63) (hchunk : chunkSize < 64) (hcounts : counts.length = 2 ^ chunkSize + 1)
    (hv : lo + n ≤ v.length) (ht : base + n ≤ t.length) (hbase : (lo : ℤ) + offset = base) :
    ∃ t' counts', radixSortPass t lo (lo + n - 1) offset counts v (BitVec.ofNat 64 s) chunkSize = .ok (t', counts') ∧
      counts'.length = 2 ^ chunkSize + 1 ∧ SameOutside base n t t' ∧
      seg t' base n = distributed (digitAt s chunkSize) (seg v lo n) (2 ^ chunkSize) := by
  have hlen := length_seg hv
  have hpow : 2 ^ chunkSize < 2 ^ max w 64 := Nat.pow_lt_pow_right (by omega) (by omega)
  have hkey : ∀ x : BitVec w, digitAt s chunkSize x < 2 ^ chunkSize := fun x => Nat.mod_lt _ (Nat.two_pow_pos _)
  have hindex : ∀ x ∈ seg v lo n, (((digit (BitVec.ofNat 64 s) chunkSize x + 1) % 2 ^ max w 64 : ℕ) : ℤ) =
      (digitAt s chunkSize x + 1 : ℕ) := fun x _ => by
    have hx := hkey x
    rw [digit_eq hs hchunk, Nat.mod_eq_of_lt (by omega)]
  obtain ⟨c1, hrun1, hlen1, hget1⟩ := @frequencies_spec _ _ (fun x => digitAt s chunkSize x + 1) _ (2 ^ chunkSize + 1) hindex
    fun x _ => Nat.succ_lt_succ (hkey x)
  have hbucket : ∀ b, bucket (fun x => digitAt s chunkSize x + 1) (seg v lo n) (b + 1) = bucket (digitAt s chunkSize) (seg v lo n) b :=
    fun b => List.filter_congr fun x _ => decide_eq_decide.2 Nat.succ_inj
  have hsum : ∀ b < 2 ^ chunkSize + 1, (cumsum 0 (c1.set 0 (base : ℤ)))[b]? =
      some ((base + start (digitAt s chunkSize) (seg v lo n) b : ℕ) : ℤ) := fun b hb => by
    refine getElem?_cumsum (f := fun b => ((base + start (digitAt s chunkSize) (seg v lo n) b : ℕ) : ℤ)) (fun b hb => ?_)
      (by rw [List.length_set]; omega)
    cases b with
    | zero => simp
    | succ b =>
        rw [List.length_set, hlen1] at hb
        have hget := hget1 (b + 1) hb
        rw [hbucket, List.getElem?_eq_getElem (by omega), Option.some.injEq] at hget
        rw [List.getElem_set_ne (by omega), hget, if_neg (by omega), Nat.add_sub_cancel, start_succ]
        push_cast
        omega
  obtain ⟨c2, t', hrun2, hout, hlen2, hseg⟩ := @distribute_spec _ (cumsum 0 (c1.set 0 (base : ℤ))) (seg v lo n) t (digitAt s chunkSize)
      (fun x => (digit (BitVec.ofNat 64 s) chunkSize x : ℕ)) (2 ^ chunkSize) base (fun x _ => by rw [digit_eq hs hchunk]) (fun x _ => hkey
      x) (by rw [length_cumsum, List.length_set]; omega) (fun b hb => hsum b (by omega)) (by omega)
  rw [hlen] at hout hseg
  refine ⟨t', c2, ?_, by rw [hlen2, length_cumsum, List.length_set, hlen1], hout, hseg⟩
  rw [radixSortPass]
  dsimp only
  rw [foldlM_read hv (fun counts x => increment counts ((digit (BitVec.ofNat 64 s) chunkSize x + 1) % 2 ^ max w 64 : ℕ)), hcounts, hrun1,
    ok_bind, write_eq (Nat.cast_zero (R := ℤ)).symm (hlen1 ▸ Nat.succ_pos _), ok_bind, hbase,
    foldlM_read hv (fun s' x => place s'.1 s'.2 (digit (BitVec.ofNat 64 s) chunkSize x) x), hrun2, ok_bind]

-- The low digits and the next one
theorem low_digits (s chunkSize : ℕ) (x : BitVec w) :
    x.toNat % 2 ^ s + 2 ^ s * digitAt s chunkSize x = x.toNat % 2 ^ (s + chunkSize) := by
  rw [digitAt, Nat.pow_add, Nat.mod_mul]

-- The elements by their low `s` bits
def byLow (xs : List (BitVec w)) (s : ℕ) : List (BitVec w) := distributed (fun x => x.toNat % 2 ^ s) xs (2 ^ s)

theorem byLow_zero (xs : List (BitVec w)) : byLow xs 0 = xs := by
  rw [byLow, Nat.pow_zero, distributed_succ, bucket]
  refine (List.nil_append _).trans (List.filter_eq_self.2 fun x _ => ?_)
  rw [Nat.mod_one, decide_eq_true_eq]

theorem distributed_byLow (xs : List (BitVec w)) (s chunkSize : ℕ) :
    distributed (digitAt s chunkSize) (byLow xs s) (2 ^ chunkSize) = byLow xs (s + chunkSize) := by
  rw [byLow, distributed_distributed fun x _ => Nat.mod_lt _ (Nat.two_pow_pos s), byLow, ← Nat.pow_add]
  congr 1
  funext x
  exact low_digits s chunkSize x

theorem stablySorted_byLow {xs : List (BitVec w)} {s : ℕ} (h : ∀ x ∈ xs, x.toNat < 2 ^ s) :
    StablySorted BitVec.toNat xs (byLow xs s) := by
  have hmod : ∀ x ∈ xs, x.toNat % 2 ^ s = x.toNat := fun x hx => Nat.mod_eq_of_lt (h x hx)
  rw [byLow, distributed_congr hmod]
  exact stablySorted_distributed h

-- Where the elements are after the passes
def sortedIn (inPlace : Bool) (lo base n : ℕ) (v t : List (BitVec w)) : List (BitVec w) := if inPlace then seg v lo n else seg t base n

theorem radixSortLoop_spec {bits fuel s : ℕ} {xs : List (BitVec w)} (hchunk : 0 < chunkSize) (hmax : chunkSize < 64)
    (hbits : bits + chunkSize ≤ 2 ^ 63) (hcounts : counts.length = 2 ^ chunkSize + 1) (hv : lo + n ≤ v.length)
    (ht : base + n ≤ t.length) (hbase : (lo : ℤ) + offset = base) (hs : s = 0 ∨ s < bits) (hfuel : bits < fuel + s)
    (hseg : seg v lo n = byLow xs s) :
    ∃ inPlace v' t', radixSortLoop lo (lo + n - 1) bits offset chunkSize fuel v t counts (BitVec.ofNat 64 s) = .ok (inPlace, v', t') ∧
      SameOutside lo n v v' ∧ SameOutside base n t t' ∧ ∃ s' ≥ bits, sortedIn inPlace lo base n v' t' = byLow xs s' := by
  induction fuel generalizing v t counts s with
  | zero => omega
  | succ fuel ih =>
      obtain ⟨t1, c1, hrun1, hcounts1, hout1, hseg1⟩ := radixSortPass_spec (s := s) (by omega) hmax hcounts hv ht hbase
      rw [hseg, distributed_byLow] at hseg1
      rw [radixSortLoop, hrun1, ok_bind]
      dsimp only
      rw [← BitVec.ofNat_add, toInt_shift (by omega)]
      by_cases hlt : s + chunkSize < bits
      · obtain ⟨v1, c2, hrun2, hcounts2, hout2, hseg2⟩ := radixSortPass_spec (t := v) (s := s + chunkSize) (by omega) hmax hcounts1
          (by rw [hout1.length]; exact ht) hv (by omega : (base : ℤ) + -offset = lo)
        rw [hseg1, distributed_byLow] at hseg2
        rw [if_pos (by omega), show (lo : ℤ) + n - 1 + offset = base + n - 1 by omega, hbase, hrun2, ok_bind]
        dsimp only
        rw [← BitVec.ofNat_add, toInt_shift (by omega)]
        by_cases hlt' : s + chunkSize + chunkSize < bits
        · rw [if_pos (by omega)]
          obtain ⟨inPlace, v', t', hrun, houtv, houtt, hdone⟩ := ih (v := v1) (t := t1) (s := s + chunkSize + chunkSize) hcounts2
            (by rw [hout2.length]; exact hv) (by rw [hout1.length]; exact ht) (.inr hlt') (by omega) hseg2
          exact ⟨inPlace, v', t', hrun, hout2.trans houtv, hout1.trans houtt, hdone⟩
        · rw [if_neg (by omega)]
          exact ⟨true, v1, t1, rfl, hout2, hout1, _, Nat.not_lt.1 hlt', hseg2⟩
      · rw [if_neg (by omega)]
        exact ⟨false, v, t1, rfl, .refl _ _ _, hout1, _, Nat.not_lt.1 hlt, hseg1⟩

theorem toInt_counts (hchunk : chunkSize < 60) : (1#64 <<< chunkSize + 1#64).toInt = (2 ^ chunkSize + 1 : ℕ) := by
  have hlt : 2 ^ chunkSize < 2 ^ 60 := Nat.pow_lt_pow_right (by omega) hchunk
  have hnat : (1#64 <<< chunkSize + 1#64).toNat = 2 ^ chunkSize + 1 := by
    rw [BitVec.toNat_add, BitVec.toNat_shiftLeft, BitVec.toNat_ofNat, Nat.shiftLeft_eq]
    omega
  rw [BitVec.toInt_eq_toNat_of_lt (by omega), hnat]

theorem radixSort_spec {bits : ℕ} (undef : ℕ → ℤ) (hchunk : 0 < chunkSize) (hmax : chunkSize < 60) (hbits : bits + chunkSize ≤ 2 ^ 63)
    (hv : lo + n ≤ v.length) (ht : base + n ≤ t.length) (hbase : (lo : ℤ) + offset = base)
    (hcover : ∀ x ∈ seg v lo n, x.toNat < 2 ^ bits) :
    ∃ inPlace v' t', radixSort undef v lo (lo + n - 1) bits t offset chunkSize = .ok (inPlace, v', t') ∧
      SameOutside lo n v v' ∧ SameOutside base n t t' ∧ StablySorted BitVec.toNat (seg v lo n) (sortedIn inPlace lo base n v' t') := by
  have hlt : 2 ^ chunkSize ≤ 2 ^ 59 := Nat.pow_le_pow_right (by omega) (by omega)
  have hcounts : newCounts undef (1#64 <<< chunkSize + 1#64).toInt = .ok ((List.range (2 ^ chunkSize + 1)).map undef) := by
    rw [toInt_counts hmax, newCounts, if_pos ⟨Int.natCast_nonneg _, by omega⟩, Int.toNat_natCast]
  obtain ⟨inPlace, v', t', hrun, houtv, houtt, s', hs', hdone⟩ := @radixSortLoop_spec _ _ _ ((List.range (2 ^ chunkSize + 1)).map undef) _
      _ _ _ _ _ (bits + 1) _ _ hchunk (by omega) hbits (by simp) hv ht hbase (.inl rfl) (by omega) (byLow_zero _).symm
  refine ⟨inPlace, v', t', by rw [radixSort, hcounts, ok_bind]; exact hrun, houtv, houtt, ?_⟩
  rw [hdone]
  exact stablySorted_byLow fun x hx => Nat.lt_of_lt_of_le (hcover x hx) (Nat.pow_le_pow_right (by omega) hs')

end Passes

section Mapping

variable {f : BitVec w → BitVec w} {v u : List (BitVec w)} {lo n base : ℕ} {offset : ℤ}

theorem mapFrom_spec (hu : base + n ≤ u.length) (hv : lo + n ≤ v.length) (hbase : (lo : ℤ) + offset = base) :
    ∃ v', mapFrom f u v lo (lo + n - 1) offset = .ok v' ∧ SameOutside lo n v v' ∧ seg v' lo n = (seg u base n).map f := by
  rw [mapFrom, positions_eq, List.foldlM_map]
  obtain ⟨v', hrun, hout, hget⟩ := foldlM_up (f := fun (v : List (BitVec w)) (i : ℕ) => do write v (lo + i : ℤ) (f (← read u (lo + i + offset : ℤ))))
    (fun k v' => SameOutside lo n v v' ∧ ∀ i < k, v'[lo + i]? = (u[base + i]?).map f) (Nat.zero_le n) (s := v) ⟨.refl _ _ _, by simp⟩
    fun k v' _ hk hP => by
      obtain ⟨hout, hget⟩ := hP
      have hlen := hout.length
      rw [read_eq (n := base + k) (by omega) (by omega), ok_bind, write_eq (n := lo + k) (by omega) (by omega)]
      refine ⟨_, rfl, hout.trans (.set (by omega) (by omega) _), fun i hi => ?_⟩
      rcases Nat.lt_or_eq_of_le (Nat.le_of_lt_succ hi) with hlt | rfl
      · rw [List.getElem?_set_ne (by omega), hget i hlt]
      · rw [List.getElem?_set_self (by omega), List.getElem?_eq_getElem (by omega), Option.map_some]
  refine ⟨v', hrun, hout, List.ext_getElem? fun i => ?_⟩
  have hlen := hout.length
  by_cases hi : i < n
  · rw [getElem?_seg hi, hget i hi, List.getElem?_map, getElem?_seg hi]
  · rw [List.getElem?_eq_none (by rw [length_seg (by omega)]; omega),
      List.getElem?_eq_none (by rw [List.length_map, length_seg hu]; omega)]

theorem mapAt_spec (hv : lo + n ≤ v.length) :
    ∃ v', mapAt f v lo (lo + n - 1) = .ok v' ∧ SameOutside lo n v v' ∧ seg v' lo n = (seg v lo n).map f := by
  rw [mapAt, positions_eq, List.foldlM_map]
  obtain ⟨v', hrun, hout, hget⟩ := foldlM_up (f := fun (v : List (BitVec w)) (i : ℕ) => do write v (lo + i : ℤ) (f (← read v (lo + i : ℤ))))
    (fun k v' => SameOutside lo n v v' ∧ ∀ i < n, v'[lo + i]? = if i < k then (v[lo + i]?).map f else v[lo + i]?) (Nat.zero_le n) (s := v)
    ⟨.refl _ _ _, by simp⟩ fun k v' _ hk hP => by
      obtain ⟨hout, hget⟩ := hP
      have hlen := hout.length
      have hk' := hget k hk
      rw [if_neg (Nat.lt_irrefl k), List.getElem?_eq_getElem (by omega : lo + k < v.length)] at hk'
      rw [read_eq_of_getElem? (n := lo + k) (by omega) hk', ok_bind, write_eq (n := lo + k) (by omega) (by omega)]
      refine ⟨_, rfl, hout.trans (.set (by omega) (by omega) _), fun i hi => ?_⟩
      by_cases hik : k = i
      · subst hik
        rw [List.getElem?_set_self (by omega), if_pos (Nat.lt_succ_self k), List.getElem?_eq_getElem (by omega), Option.map_some]
      · rw [List.getElem?_set_ne (by omega), hget i hi]
        by_cases hlt : i < k
        · rw [if_pos hlt, if_pos (by omega)]
        · rw [if_neg hlt, if_neg (by omega)]
  refine ⟨v', hrun, hout, List.ext_getElem? fun i => ?_⟩
  have hlen := hout.length
  by_cases hi : i < n
  · rw [getElem?_seg hi, hget i hi, if_pos hi, List.getElem?_map, getElem?_seg hi]
  · rw [List.getElem?_eq_none (by rw [length_seg (by omega)]; omega),
      List.getElem?_eq_none (by rw [List.length_map, length_seg hv]; omega)]

end Mapping

section Orders

variable {T : Element} {rev : Bool} {x y : BitVec T.bits}

theorem bits_pos (T : Element) : 0 < T.bits ∧ T.bits ≤ 128 := by
  cases T with
  | unsigned width => cases width <;> decide
  | signed width => cases width <;> decide
  | char => decide

-- The highest bit decides about the sign.
theorem toNat_xor_intMin (hw : 0 < w) (x : BitVec w) : ((x ^^^ BitVec.intMin w).toNat : ℤ) = x.toInt + (2 ^ (w - 1) : ℕ) := by
  obtain ⟨k, rfl⟩ : ∃ k, w = k + 1 := ⟨w - 1, by omega⟩
  have hx := x.isLt
  have hpos : 0 < 2 ^ k := Nat.two_pow_pos k
  have hhigh := Nat.xor_div_two_pow (a := x.toNat) (b := 2 ^ k) (n := k)
  have hlow := Nat.xor_mod_two_pow (a := x.toNat) (b := 2 ^ k) (n := k)
  rw [Nat.div_self hpos] at hhigh
  rw [Nat.mod_self, Nat.xor_zero] at hlow
  rw [BitVec.toNat_xor, BitVec.toNat_intMin_of_pos (Nat.succ_pos k), Nat.succ_sub_one, BitVec.toInt_eq_toNat_cond]
  have hsplit := Nat.div_add_mod (x.toNat ^^^ 2 ^ k) (2 ^ k)
  have hsplit' := Nat.div_add_mod x.toNat (2 ^ k)
  rw [hhigh, hlow] at hsplit
  rw [Nat.pow_succ] at hx ⊢
  rcases Nat.lt_or_ge x.toNat (2 ^ k) with hlt | hge
  · rw [Nat.div_eq_of_lt hlt, Nat.zero_xor, Nat.mul_one] at hsplit
    rw [Nat.mod_eq_of_lt hlt] at hsplit
    rw [if_pos (by omega)]
    omega
  · have hone : x.toNat / 2 ^ k = 1 := by
      rw [Nat.div_eq_iff hpos]
      omega
    rw [hone, Nat.xor_self, Nat.mul_zero] at hsplit
    rw [hone, Nat.mul_one] at hsplit'
    rw [if_neg (by omega)]
    omega

theorem flipSign_flipSign (T : Element) (x : BitVec T.bits) : flipSign T (flipSign T x) = x := by
  cases T with
  | signed width => rw [flipSign, flipSign, BitVec.xor_assoc, BitVec.xor_self, BitVec.xor_zero]
  | unsigned width => rfl
  | char => rfl

theorem uintUnmap_uintMap (T : Element) (rev : Bool) (x : BitVec T.bits) : uintUnmap T rev (uintMap T rev x) = x := by
  cases rev with
  | true => rw [uintUnmap, uintMap, if_pos rfl, if_pos rfl, BitVec.not_not, flipSign_flipSign]
  | false => rw [uintUnmap, uintMap, if_neg Bool.false_ne_true, if_neg Bool.false_ne_true, flipSign_flipSign]

theorem isless_eq (T : Element) (x y : BitVec T.bits) : T.isless x y = decide ((flipSign T x).toNat < (flipSign T y).toNat) := by
  cases T with
  | signed width =>
      have hpos := (bits_pos (.signed width)).1
      have hx := toNat_xor_intMin hpos x
      have hy := toNat_xor_intMin hpos y
      rw [Element.isless, BitVec.slt, flipSign, flipSign, decide_eq_decide]
      omega
  | unsigned width => rfl
  | char => rfl

-- The numbers stand in the order of the elements.
theorem lt_eq (T : Element) (rev : Bool) (x y : BitVec T.bits) : T.lt rev x y = decide ((uintMap T rev x).toNat < (uintMap T rev y).toNat) := by
  cases rev with
  | false => rw [Element.lt, if_neg Bool.false_ne_true, isless_eq, uintMap, uintMap, if_neg Bool.false_ne_true, if_neg Bool.false_ne_true]
  | true =>
      have hx := (flipSign T x).isLt
      have hy := (flipSign T y).isLt
      rw [Element.lt, if_pos rfl, isless_eq, uintMap, uintMap, if_pos rfl, if_pos rfl, BitVec.toNat_not, BitVec.toNat_not, decide_eq_decide]
      omega

end Orders

section Mapped

variable {T : Element} {rev : Bool} {v t : List (BitVec T.bits)} {lo n chunkSize : ℕ} {mn mx : BitVec T.bits}

-- No element comes before `mn`, and none after `mx`.
def Extrema (T : Element) (rev : Bool) (xs : List (BitVec T.bits)) (mn mx : BitVec T.bits) : Prop :=
  ∀ x ∈ xs, T.lt rev x mn = false ∧ T.lt rev mx x = false

-- Subtracting the minimum does not wrap around.
theorem Extrema.distance {xs : List (BitVec T.bits)} (h : Extrema T rev xs mn mx) {x : BitVec T.bits} (hx : x ∈ xs) :
    (uintMap T rev x - uintMap T rev mn).toNat + (uintMap T rev mn).toNat = (uintMap T rev x).toNat ∧
      (uintMap T rev x - uintMap T rev mn).toNat ≤ (uintMap T rev mx - uintMap T rev mn).toNat := by
  obtain ⟨hmin, hmax⟩ := h x hx
  rw [lt_eq, decide_eq_false_iff_not, Nat.not_lt] at hmin hmax
  have hle : uintMap T rev mn ≤ uintMap T rev mx := BitVec.le_def.2 (hmin.trans hmax)
  rw [BitVec.toNat_sub_of_le (BitVec.le_def.2 hmin), BitVec.toNat_sub_of_le hle]
  omega

theorem Extrema.cover {xs : List (BitVec T.bits)} (h : Extrema T rev xs mn mx) :
    ∀ y ∈ xs.map fun x => uintMap T rev x - uintMap T rev mn, y.toNat < 2 ^ topSetBit (uintMap T rev mx - uintMap T rev mn) := by
  intro y hy
  obtain ⟨x, hx, rfl⟩ := List.mem_map.1 hy
  exact Nat.lt_of_le_of_lt (h.distance hx).2 BitVec.toNat_lt_two_pow_sub_clz

-- Sorted numbers are the numbers of a sorted permutation.
theorem Extrema.unmapped {xs : List (BitVec T.bits)} (h : Extrema T rev xs mn mx) {ys : List (BitVec T.bits)}
    (hsorted : StablySorted BitVec.toNat (xs.map fun x => uintMap T rev x - uintMap T rev mn) ys) :
    (ys.map fun u => uintUnmap T rev (u + uintMap T rev mn)).Perm xs ∧
      Sorted (T.lt rev) (ys.map fun u => uintUnmap T rev (u + uintMap T rev mn)) := by
  have hback : ∀ x : BitVec T.bits, uintUnmap T rev (uintMap T rev x - uintMap T rev mn + uintMap T rev mn) = x := fun x => by
    rw [BitVec.sub_add_cancel, uintUnmap_uintMap]
  constructor
  · have hperm := hsorted.perm.map fun u => uintUnmap T rev (u + uintMap T rev mn)
    have hid : ((fun u => uintUnmap T rev (u + uintMap T rev mn)) ∘ fun x => uintMap T rev x - uintMap T rev mn) = id := funext hback
    rwa [List.map_map, hid, List.map_id] at hperm
  · refine List.pairwise_map.2 (hsorted.sorted.imp_of_mem fun {a b} ha hb hab => ?_)
    obtain ⟨x, hx, rfl⟩ := List.mem_map.1 (hsorted.perm.mem_iff.1 ha)
    obtain ⟨y, hy, rfl⟩ := List.mem_map.1 (hsorted.perm.mem_iff.1 hb)
    have hx := h.distance hx
    have hy := h.distance hy
    rw [hback, hback, lt_eq, decide_eq_false_iff_not]
    omega

theorem radixSortMapped_spec (undef : ℕ → ℤ) (hchunk : 0 < chunkSize) (hmax : chunkSize < 60) (hv : lo + n ≤ v.length)
    (ht : n ≤ t.length) (h : Extrema T rev (seg v lo n) mn mx) :
    ∃ w, radixSortMapped T rev undef chunkSize v lo (lo + n - 1) mn mx t = .ok w ∧ Rearranged lo n v w ∧
      Sorted (T.lt rev) (seg w lo n) := by
  have hbits := bits_pos T
  obtain ⟨u1, hrun1, hout1, hseg1⟩ := mapAt_spec (f := uintMap T rev) hv
  obtain ⟨u2, hrun2, hout2, hseg2⟩ := @mapAt_spec _ (fun u => u - uintMap T rev mn) u1 lo n (by rw [hout1.length]; exact hv)
  rw [hseg1, List.map_map] at hseg2
  have hlen2 : u2.length = v.length := hout2.length.trans hout1.length
  have htop : topSetBit (uintMap T rev mx - uintMap T rev mn) ≤ T.bits := Nat.sub_le _ _
  obtain ⟨inPlace, u3, t3, hrun3, hout3, houtt, hsorted⟩ := @radixSort_spec _ u2 t lo n 0 _ (0 - lo) (topSetBit (uintMap T rev mx - uintMap
      T rev mn)) undef hchunk hmax (by omega) (by omega) (by omega) (by omega) (by rw [hseg2]; exact h.cover)
  rw [hseg2] at hsorted
  obtain ⟨hperm, hsort⟩ := h.unmapped hsorted
  have hlen3 := hout3.length
  have hlent := houtt.length
  have hstart : radixSortMapped T rev undef chunkSize v lo (lo + n - 1) mn mx t =
      if inPlace then mapAt (fun u => uintUnmap T rev (u + uintMap T rev mn)) u3 lo (lo + n - 1)
      else mapFrom (fun u => uintUnmap T rev (u + uintMap T rev mn)) t3 u3 lo (lo + n - 1) (0 - lo) := by
    rw [radixSortMapped]
    dsimp only
    rw [hrun1, ok_bind, hrun2, ok_bind, hrun3, ok_bind]
  have hout := (hout1.trans hout2).trans hout3
  rw [hstart]
  cases inPlace with
  | true =>
      obtain ⟨w, hrun, hout4, hseg⟩ := @mapAt_spec _ (fun u => uintUnmap T rev (u + uintMap T rev mn)) u3 lo n (by omega)
      rw [sortedIn, if_pos rfl, ← hseg] at hperm hsort
      exact ⟨w, hrun, ⟨hout.trans hout4, hperm⟩, hsort⟩
  | false =>
      obtain ⟨w, hrun, hout4, hseg⟩ := @mapFrom_spec _ (fun u => uintUnmap T rev (u + uintMap T rev mn)) u3 t3 lo n 0 (0 - lo) (by omega)
          (by omega) (by omega)
      rw [sortedIn, if_neg Bool.false_ne_true, ← hseg] at hperm hsort
      exact ⟨w, hrun, ⟨hout.trans hout4, hperm⟩, hsort⟩

end Mapped

section Theorems

-- What the radix sorts do: `radix_sort!` for chunks of `chunkSize` bits, and the sort of elements that it is part of.
theorem radixSort_stable (undef : ℕ → ℤ) (chunkSize : ℕ) (hchunk : 1 ≤ chunkSize) (hmax : chunkSize ≤ 59) :
    (∀ (w : ℕ) (v t : List (BitVec w)) (lo n base bits : ℕ), lo + n ≤ v.length → base + n ≤ t.length → bits + chunkSize ≤ 2 ^ 63 →
      (∀ x ∈ seg v lo n, x.toNat < 2 ^ bits) →
        ∃ inPlace v' t', radixSort undef v lo (lo + n - 1) bits t (base - lo) chunkSize = .ok (inPlace, v', t') ∧
          SameOutside lo n v v' ∧ SameOutside base n t t' ∧
          StablySorted BitVec.toNat (seg v lo n) (if inPlace then seg v' lo n else seg t' base n)) ∧
      ∀ (T : Element) (rev : Bool) (v t : List (BitVec T.bits)) (lo n : ℕ) (mn mx : BitVec T.bits), lo + n ≤ v.length → n ≤ t.length →
        (∀ x ∈ seg v lo n, T.lt rev x mn = false ∧ T.lt rev mx x = false) →
          ∃ w, radixSortMapped T rev undef chunkSize v lo (lo + n - 1) mn mx t = .ok w ∧ SameOutside lo n v w ∧
            (seg w lo n).Perm (seg v lo n) ∧ Sorted (T.lt rev) (seg w lo n) := by
  refine ⟨fun w v t lo n base bits hv ht hbits hcover => ?_, fun T rev v t lo n mn mx hv ht hextrema => ?_⟩
  · exact radixSort_spec undef hchunk (by omega) hbits hv ht (by omega) hcover
  · obtain ⟨w, hrun, hre, hsorted⟩ := radixSortMapped_spec undef hchunk (by omega) hv ht hextrema
    exact ⟨w, hrun, hre.outside, hre.perm, hsorted⟩

theorem radixSort_stable_int8 :
    ∃ w, radixSortMapped (.signed .w8) true (fun _ => 0) 3 [5, 200, 17, 100, 255] 1 (1 + (3 : ℕ) - 1) 100 200 [0, 0, 0, 0] = .ok w ∧
      SameOutside 1 3 [5, 200, 17, 100, 255] w ∧ (seg w 1 3).Perm (seg [5, 200, 17, 100, 255] 1 3) ∧
      Sorted ((Element.signed .w8).lt true) (seg w 1 3) :=
  (radixSort_stable (fun _ => 0) 3 (by decide) (by decide)).2 (.signed .w8) true [5, 200, 17, 100, 255] [0, 0, 0, 0] 1 3 100 200
    (by decide) (by decide) (by decide)

-- The counters of 60 bits are too many.
theorem radixSort_counterexample :
    radixSort (fun _ => 0) [(0 : BitVec 8)] 0 0 8 [0] 0 60 = .error .ArgumentError := by
  decide

end Theorems

end Joolia.Sort
