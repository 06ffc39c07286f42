import Joolia.Base.BitArray.Find
import Joolia.Library.Words

namespace Joolia.BitArray

open Words MixedRadix
open Bitset (bitcount blsr)

section Model

-- `I[k] = ind; k += 1`
def putIndex (st : List (List ℤ) × ℕ) (ind : List ℤ) : Except BitError (List (List ℤ) × ℕ) :=
  if st.2 < st.1.length then .ok (st.1.set st.2 ind, st.2 + 1) else .error .Outside

-- `__inc` for axes that begin at 0
def inc : List ℤ → List ℕ → List ℤ
  | i :: [], _ => [i + 1]
  | i :: state, d :: ds => if i ≠ d - 1 then (i + 1) :: state else 0 :: inc state ds
  | _, _ => []

-- `allindices!`, whose methods for vectors and matrices do without `nextind`
def allindices (I : List (List ℤ)) (B : BitArrayN) : Except BitError (List (List ℤ)) :=
  match B.dims with
  | [_] => .ok ((List.range B.len).map fun (k : ℕ) => [(k : ℤ)])
  | [rows, cols] =>
    (List.range cols).foldlM (fun st (c : ℕ) =>
      (List.range rows).foldlM (fun st (r : ℕ) => putIndex st [r, c]) st) (I, 0) >>= fun st => .ok st.1
  | dims =>
    (List.range B.len).foldlM (fun st (_ : ℕ) => do
      let I ← putIndex st.1 st.2
      pure (I, inc st.2 dims)) ((I, 0), List.replicate dims.length (0 : ℤ)) >>= fun st => .ok st.1.1

-- The `while i1 >= size[0]` loop of `_overflowind`, whose size is positive where there are elements.
def carry (s : ℕ) : ℕ → ℤ → ℤ → ℤ × ℤ
  | 0, i1, i2 => (i1, i2)
  | fuel + 1, i1, i2 => if i1 ≥ s then carry s fuel (i1 - s) (i2 + 1) else (i1, i2)

def overflowind : ℤ → List ℤ → List ℕ → ℤ × List ℤ
  | i1, i2 :: irest, s :: size =>
    let (i1, i2) := carry s i1.toNat i1 i2
    let (i2, irest) := overflowind i2 irest size
    (i1, i2 :: irest)
  | i1, irest, _ => (i1, irest)

-- The `while c == 0` loop, entered `fuel` chunks before the end; `none` is `return I`.
def skipZeros (Bc : List Word) : ℕ → ℕ → ℤ → Word → Option (ℕ × ℤ × Word)
  | 0, Bi, i1, c => if c = 0 then none else some (Bi, i1, c)
  | fuel + 1, Bi, i1, c =>
    if c = 0 then skipZeros Bc fuel (Bi + 1) (i1 + 64) (word Bc (Bi + 1)) else some (Bi, i1, c)

-- The `while true` loop. There are `fuel` passes left, one for each index that is still to be stored and the last.
def findallLoop (Bc : List Word) (Bs : List ℕ) :
    ℕ → ℕ → ℤ → List ℤ → Word → List (List ℤ) × ℕ → Except BitError (Option (List (List ℤ)))
  | 0, _, _, _, _, _ => .ok none
  | fuel + 1, Bi, i1, irest, c, st =>
    match skipZeros Bc (Bc.length - 1 - Bi) Bi i1 c with
    | none => .ok (some st.1)
    | some (Bi, i1, c) => do
      let tz : ℤ := c.ctz.toNat
      let c := blsr c
      let (i1, irest) := overflowind (i1 + tz) irest Bs
      let st ← putIndex st (i1 :: irest)
      findallLoop Bc Bs fuel Bi (i1 - tz) irest c st

-- `findall(B)`: `mem` is what the new vector holds before.
def findall (mem : ℕ → List ℤ) (B : BitArrayN) : Except BitError (Option (List (List ℤ))) :=
  let nnzB := (count B).toInt
  let I := (List.range nnzB.toNat).map mem
  if nnzB = 0 then .ok (some I)
  else if nnzB = B.len then allindices I B >>= fun I => .ok (some I)
  else findallLoop B.chunks B.dims (nnzB.toNat + 1) 0 0 (List.replicate (B.dims.length - 1) 0) (word B.chunks 0) (I, 0)

end Model

section Count

-- The positions of the true elements.
def truePositions (bc : List Word) (n : ℕ) : List ℕ := (List.range n).filter (bitAt bc)

theorem filter_chunk (bc : List Word) (k : ℕ) :
    (List.range' (64 * k) 64).filter (bitAt bc) = (ones (word bc k)).map (64 * k + ·) := by
  rw [List.range'_eq_map_range, List.filter_map, ones]
  congr 1
  refine List.filter_congr fun p hp => ?_
  exact bitAt_word bc k (List.mem_range.1 hp)

theorem truePositions_succ (bc : List Word) (t : ℕ) :
    truePositions bc (64 * (t + 1)) = truePositions bc (64 * t) ++ (ones (word bc t)).map (64 * t + ·) := by
  have hrange := List.range'_append_1 (s := 0) (m := 64 * t) (n := 64)
  rw [Nat.zero_add] at hrange
  rw [← filter_chunk, truePositions, truePositions, ← List.filter_append, List.range_eq_range', List.range_eq_range',
    hrange, Nat.mul_succ]

theorem bitcount_eq (bc : List Word) : bitcount bc = Int64.ofNat (truePositions bc (64 * bc.length)).length := by
  refine Loop.up_invariant (fun t n => n = Int64.ofNat (truePositions bc (64 * t)).length) (Nat.zero_le _) rfl ?_
  intro t n _ _ hn
  rw [hn, truePositions_succ, List.length_append, List.length_map, length_ones, Int64.ofNat_add]

variable {B : BitArrayN}

-- Nothing is stored behind the end.
theorem truePositions_all (hB : WellFormed B.toBitVector) :
    truePositions B.chunks (64 * B.chunks.length) = truePositions B.chunks B.len := by
  have hle := numBitChunks_le B.len
  have hlen := hB.length_chunks
  obtain ⟨d, hd⟩ : ∃ d, 64 * B.chunks.length = B.len + d := ⟨64 * B.chunks.length - B.len, by omega⟩
  have hpast : ((List.range d).map (B.len + ·)).filter (bitAt B.chunks) = [] := by
    rw [List.filter_eq_nil_iff]
    intro i hi hbit
    obtain ⟨p, -, rfl⟩ := List.mem_map.1 hi
    have hlt := lt_len_of_bitAt hB hbit
    omega
  rw [truePositions, truePositions, hd, List.range_add, List.filter_append, hpast, List.append_nil]

theorem length_truePositions_le (bc : List Word) (n : ℕ) : (truePositions bc n).length ≤ n := by
  have h := List.length_filter_le (bitAt bc) (List.range n)
  rwa [List.length_range] at h

theorem count_spec (hB : Shaped B) : (count B).toInt = (truePositions B.chunks B.len).length := by
  have hle := length_truePositions_le B.chunks B.len
  have hlt := hB.len_lt
  rw [count, bitcount_eq, truePositions_all hB.packed, Int64.toInt_ofNat_of_lt (by omega)]

theorem any_spec (hB : WellFormed B.toBitVector) : any B = (List.range B.len).any (bitAt B.chunks) := by
  have hle := numBitChunks_le B.len
  have hlen := hB.length_chunks
  rw [any]
  split_ifs with h0
  · rw [h0]
    rfl
  · rw [Bool.eq_iff_iff, List.any_eq_true, List.any_eq_true]
    constructor
    · rintro ⟨k, -, hne⟩
      obtain ⟨p, hp⟩ := exists_mem_ones (w := word B.chunks k) (by simpa using hne)
      have hbit : bitAt B.chunks (64 * k + p) = true := by rw [bitAt_word _ _ (ones_lt hp), mem_ones.1 hp]
      exact ⟨64 * k + p, List.mem_range.2 (lt_len_of_bitAt hB hbit), hbit⟩
    · rintro ⟨i, hi, hbit⟩
      rw [List.mem_range] at hi
      refine ⟨i / 64, List.mem_range.2 (by omega), ?_⟩
      simpa using Bitset.word_ne_zero_of_bitAt hbit

-- All elements are true when none of the negated ones is.
theorem all_eq_not_any (hB : WellFormed B.toBitVector) (h0 : B.len ≠ 0) : all B = !any { B with chunks := flipped B } := by
  have hle := numBitChunks_le B.len
  have hlen := hB.length_chunks
  obtain ⟨n, hn⟩ : ∃ n, B.chunks.length = n + 1 := ⟨B.chunks.length - 1, by omega⟩
  have hfirst : ((List.range n).all fun i => word B.chunks i == msk64) = !(List.range n).any fun i => !(word (flipped B) i == 0) := by
    rw [List.not_any_eq_all_not, Bool.eq_iff_iff, List.all_eq_true, List.all_eq_true]
    refine forall₂_congr fun i hi => ?_
    have hne := word_flipped_ne (B := B) (i := i) (by rw [List.mem_range] at hi; omega)
    rw [bne, bne] at hne
    rw [hne, Bool.not_not]
  have hend : (word B.chunks n == mskEnd B.len) = (word (flipped B) n == 0) := by
    have hlast := word_flipped_last (B := B) (by omega)
    have hiff := ne_mskEnd_iff fun p (hp : p < 64) => last_bits hB hp
    rw [hn, Nat.add_sub_cancel] at hlast hiff
    rw [hlast, Bool.eq_iff_iff, beq_iff_eq, beq_iff_eq]
    exact not_iff_not.1 hiff
  rw [all, any, if_neg h0, if_neg h0]
  simp only [length_flipped, hn, Nat.add_sub_cancel, List.range_succ, List.any_append, List.any_cons, List.any_nil,
    Bool.or_false, Bool.not_or, Bool.not_not, hfirst, hend]
  split_ifs with h <;> simp_all

theorem all_spec (hB : WellFormed B.toBitVector) : all B = (List.range B.len).all (bitAt B.chunks) := by
  by_cases h0 : B.len = 0
  · rw [all, if_pos h0, h0]
    rfl
  · have hany := any_spec (B := { B with chunks := flipped B }) (flipped_wellFormed hB)
    rw [all_eq_not_any hB h0, hany, List.not_any_eq_all_not, Bool.eq_iff_iff, List.all_eq_true, List.all_eq_true]
    refine forall₂_congr fun i hi => ?_
    rw [bitAt_flipped hB, decide_eq_true (List.mem_range.1 hi), Bool.true_and, Bool.not_not]

end Count

section Indices

-- Indices stored one after the other
theorem putIndex_fold (ys : List (List ℤ)) {I : List (List ℤ)} {k : ℕ} (h : k + ys.length ≤ I.length) :
    ys.foldlM putIndex (I, k) = .ok (I.take k ++ ys ++ I.drop (k + ys.length), k + ys.length) := by
  induction ys generalizing I k with
  | nil => simp [pure, Except.pure]
  | cons y ys ih =>
      rw [List.length_cons] at h
      have hput : putIndex (I, k) y = .ok (I.set k y, k + 1) := if_pos (by dsimp only; omega)
      have htake : (I.set k y).take (k + 1) = I.take k ++ [y] := by
        have hlen : (I.take k).length = k := List.length_take_of_le (by omega)
        rw [List.set_eq_take_append_cons_drop, if_pos (by omega), List.take_append, hlen, Nat.add_sub_cancel_left,
          List.take_of_length_le (by omega)]
        rfl
      have hdrop : (I.set k y).drop (k + 1 + ys.length) = I.drop (k + 1 + ys.length) := by
        rw [List.drop_set_of_lt (by omega)]
      rw [List.foldlM_cons, hput, Fallible.ok_bind, ih (by rw [List.length_set]; omega), htake, hdrop, List.length_cons]
      simp [Nat.add_assoc, Nat.add_comm 1]

theorem putIndex_all {ys I : List (List ℤ)} (h : I.length = ys.length) : ys.foldlM putIndex (I, 0) = .ok (ys, ys.length) := by
  rw [putIndex_fold ys (by omega), Nat.zero_add, List.drop_of_length_le (by omega)]
  simp

theorem inc_digits {dims : List ℕ} {k : ℕ} (hk : k + 1 < dims.prod) :
    inc ((digits dims k).map Nat.cast) dims = (digits dims (k + 1)).map Nat.cast := by
  induction dims generalizing k with
  | nil => simp at hk
  | cons d ds ih =>
      have hpos := pos_of_lt_prod hk
      cases ds with
      | nil =>
          have hd : k + 1 < d := by simpa using hk
          simp [digits, inc, Nat.mod_eq_of_lt hd, Nat.mod_eq_of_lt (Nat.lt_of_succ_lt hd)]
      | cons d' ds =>
          have hlt := Nat.mod_lt k hpos
          have hcons : ∀ m : ℕ, inc (((m : ℕ) : ℤ) :: (digits (d' :: ds) (k / d)).map Nat.cast) (d :: d' :: ds) =
              if (m : ℤ) ≠ d - 1 then ((m : ℤ) + 1) :: (digits (d' :: ds) (k / d)).map Nat.cast
              else 0 :: inc ((digits (d' :: ds) (k / d)).map Nat.cast) (d' :: ds) := fun _ => rfl
          rw [digits, List.map_cons, hcons]
          split_ifs with hlast
          · rw [digits_succ_of_lt (by omega)]
            simp
          · have heq : k % d + 1 = d := by omega
            have hdiv := div_lt_prod hk
            have hk' := Nat.mod_add_div k d
            have hsucc : (k + 1) / d = k / d + 1 := by
              rw [show k + 1 = d * (k / d + 1) by rw [Nat.mul_add]; omega, Nat.mul_div_cancel_left _ hpos]
            rw [hsucc] at hdiv
            rw [ih hdiv, digits_succ_of_eq heq]
            rfl

variable {B : BitArrayN}

def cartesian (dims : List ℕ) (k : ℕ) : List ℤ := (key dims k).map Nat.cast

theorem key_of_ne {dims : List ℕ} (h : dims.length ≠ 1) (k : ℕ) : key dims k = digits dims k := by
  match dims, h with
  | [], _ => rfl
  | _ :: _ :: _, _ => rfl

theorem key_eq {dims : List ℕ} {k : ℕ} (hk : k < dims.prod) : key dims k = digits dims k := by
  match dims, hk with
  | [], _ => rfl
  | [d], hk =>
    have hd : k < d := by simpa using hk
    simp [key, digits, Nat.mod_eq_of_lt hd]
  | _ :: _ :: _, _ => rfl

-- The loop over two dimensions is one over the positions.
theorem foldlM_columns (rows cols : ℕ) (st : List (List ℤ) × ℕ) :
    (List.range cols).foldlM (fun st (c : ℕ) =>
      (List.range rows).foldlM (fun st (r : ℕ) => putIndex st [(r : ℤ), (c : ℤ)]) st) st =
    ((List.range (rows * cols)).map (cartesian [rows, cols])).foldlM putIndex st := by
  rw [range_mul, List.map_flatMap]
  have hcols : ∀ cs : List ℕ, (∀ c ∈ cs, c < cols) → cs.foldlM (fun st (c : ℕ) =>
      (List.range rows).foldlM (fun st (r : ℕ) => putIndex st [(r : ℤ), (c : ℤ)]) st) st =
      (cs.flatMap fun c => ((List.range rows).map (· + rows * c)).map (cartesian [rows, cols])).foldlM putIndex st := by
    intro cs hcs
    induction cs generalizing st with
    | nil => rfl
    | cons c cs ih =>
        have hcol : ((List.range rows).map (· + rows * c)).map (cartesian [rows, cols]) =
            (List.range rows).map fun (r : ℕ) => [(r : ℤ), (c : ℤ)] := by
          rw [List.map_map]
          refine List.map_congr_left fun r hr => ?_
          rw [List.mem_range] at hr
          have hc := hcs c List.mem_cons_self
          have hdiv : (r + rows * c) / rows = c := by
            rw [Nat.add_mul_div_left _ _ (by omega), Nat.div_eq_of_lt hr, Nat.zero_add]
          simp [cartesian, key, digits, hdiv, Nat.mod_eq_of_lt hr, Nat.mod_eq_of_lt hc]
        rw [List.foldlM_cons, List.flatMap_cons, List.foldlM_append, hcol, List.foldlM_map]
        congr 1
        funext st
        exact ih st fun c hc => hcs c (List.mem_cons_of_mem _ hc)
  exact hcols _ fun c hc => List.mem_range.1 hc

theorem digits_zero (dims : List ℕ) : (digits dims 0).map Nat.cast = List.replicate dims.length (0 : ℤ) := by
  induction dims with
  | nil => rfl
  | cons d ds ih => rw [digits, Nat.zero_mod, Nat.zero_div, List.map_cons, ih]; rfl

theorem foldlM_nextind {dims : List ℕ} {I : List (List ℤ)} {n : ℕ} (hn : n ≤ dims.prod) (hI : n ≤ I.length) :
    ∃ ind, (List.range n).foldlM (fun st (_ : ℕ) => do
        let I ← putIndex st.1 st.2
        pure (I, inc st.2 dims)) ((I, 0), List.replicate dims.length (0 : ℤ)) =
      .ok (((List.range n).map (fun k => (digits dims k).map Nat.cast) ++ I.drop n, n), ind) ∧
      (n < dims.prod → ind = (digits dims n).map Nat.cast) := by
  induction n with
  | zero => exact ⟨_, rfl, fun _ => (digits_zero dims).symm⟩
  | succ n ih =>
      obtain ⟨ind, hfold, hind⟩ := ih (by omega) (by omega)
      obtain rfl := hind (by omega)
      have hget : n < ((List.range n).map (fun k => (digits dims k).map (Nat.cast : ℕ → ℤ)) ++ I.drop n).length := by
        simp
        omega
      have hdrop : (I.drop n).set 0 ((digits dims n).map Nat.cast) = (digits dims n).map Nat.cast :: I.drop (n + 1) := by
        rw [List.drop_eq_getElem_cons (by omega), List.set_cons_zero]
      refine ⟨inc ((digits dims n).map Nat.cast) dims, ?_, inc_digits⟩
      rw [List.range_succ, List.foldlM_append, hfold, Fallible.ok_bind, List.foldlM_cons, putIndex, if_pos hget,
        Fallible.ok_bind, List.map_append]
      simp [pure, Except.pure, List.set_append_right, hdrop]

theorem allindices_spec (hlen : B.len = B.dims.prod) {I : List (List ℤ)} (hI : I.length = B.len) :
    allindices I B = .ok ((List.range B.len).map (cartesian B.dims)) := by
  have hdigits : B.dims.length ≠ 1 → ∃ ind, (List.range B.len).foldlM (fun st (_ : ℕ) => do
        let I ← putIndex st.1 st.2
        pure (I, inc st.2 B.dims)) ((I, 0), List.replicate B.dims.length (0 : ℤ)) =
      .ok (((List.range B.len).map (cartesian B.dims), B.len), ind) := by
    intro hne
    obtain ⟨ind, hfold, -⟩ := foldlM_nextind hlen.le hI.ge
    have hfun : (fun k => (digits B.dims k).map (Nat.cast : ℕ → ℤ)) = cartesian B.dims := by
      funext k
      rw [cartesian, key_of_ne hne]
    rw [List.drop_of_length_le hI.le, List.append_nil, hfun] at hfold
    exact ⟨ind, hfold⟩
  rcases B with ⟨B, dims⟩
  dsimp only at hlen hI hdigits ⊢
  match dims, hlen, hdigits with
  | [d], _, _ => rfl
  | [rows, cols], hlen, _ =>
    have hprod : rows * cols = B.len := by simpa using hlen.symm
    have hfold := foldlM_columns rows cols (I, 0)
    rw [putIndex_all (by rw [List.length_map, List.length_range, hI, hprod]), hprod] at hfold
    rw [allindices]
    simp only [hfold, Fallible.ok_bind]
  | [], _, hdigits =>
    obtain ⟨ind, hfold⟩ := hdigits (by simp)
    rw [allindices]
    dsimp only
    rw [hfold, Fallible.ok_bind]
  | a :: b :: c :: ds, _, hdigits =>
    obtain ⟨ind, hfold⟩ := hdigits (by simp)
    rw [allindices]
    dsimp only
    rw [hfold, Fallible.ok_bind]

end Indices

section Search

theorem carry_spec {s : ℕ} (hs : 0 < s) (fuel n : ℕ) (i2 : ℤ) (hn : n ≤ fuel) :
    carry s fuel n i2 = (((n % s : ℕ) : ℤ), i2 + (n / s : ℕ)) := by
  induction fuel generalizing n i2 with
  | zero =>
      obtain rfl := Nat.le_zero.1 hn
      simp [carry]
  | succ fuel ih =>
      rw [carry]
      split_ifs with hge
      · have hsub : (n : ℤ) - s = ((n - s : ℕ) : ℤ) := by omega
        have hdiv : n / s = (n - s) / s + 1 := Nat.div_eq_sub_div hs (by omega)
        rw [hsub, ih _ _ (by omega), Nat.mod_eq_sub_mod (by omega : n ≥ s), hdiv, Nat.cast_add, Nat.cast_one,
          Int.add_assoc, Int.add_comm 1]
      · rw [Nat.mod_eq_of_lt (by omega), Nat.div_eq_of_lt (by omega)]
        simp

-- The carries leave the digits of the position.
theorem overflowind_spec {d : ℕ} {ds is : List ℕ} (hlen : is.length = ds.length) (n : ℕ)
    (hlt : value (d :: ds) (n :: is) < (d :: ds).prod) :
    (overflowind n (is.map Nat.cast) (d :: ds)).1 :: (overflowind n (is.map Nat.cast) (d :: ds)).2 =
      (digits (d :: ds) (value (d :: ds) (n :: is))).map Nat.cast := by
  induction is generalizing d ds n with
  | nil =>
      obtain rfl := List.length_eq_zero_iff.1 hlen.symm
      have hn : n < d := by simpa [value] using hlt
      simp [overflowind, digits, value, Nat.mod_eq_of_lt hn]
  | cons i is ih =>
      cases ds with
      | nil => cases hlen
      | cons d' ds =>
          have hd := pos_of_lt_prod hlt
          have hvalue : value (d :: d' :: ds) (n :: i :: is) = n + d * value (d' :: ds) (i :: is) := rfl
          have hmod : value (d :: d' :: ds) (n :: i :: is) % d = n % d := by rw [hvalue, Nat.add_mul_mod_self_left]
          have hdiv : value (d :: d' :: ds) (n :: i :: is) / d = value (d' :: ds) ((i + n / d) :: is) := by
            rw [hvalue, Nat.add_mul_div_left _ _ hd]
            simp only [value]
            omega
          have hlt' := div_lt_prod hlt
          rw [hdiv] at hlt'
          have hih := ih (by simpa using hlen) (i + n / d) hlt'
          have hcarry : carry d ((n : ℤ).toNat) n i = (((n % d : ℕ) : ℤ), ((i + n / d : ℕ) : ℤ)) := by
            rw [Int.toNat_natCast, carry_spec hd _ _ _ le_rfl, Nat.cast_add]
          rw [digits, hmod, hdiv, List.map_cons, List.map_cons, overflowind, hcarry, ← hih]

-- The true positions that are left when the chunk `Bi` still has the bits `c`.
def restOf (bc : List Word) (Bi : ℕ) (c : Word) : List ℕ :=
  (ones c).map (64 * Bi + ·) ++
    (List.range' (Bi + 1) (bc.length - (Bi + 1))).flatMap fun j => (ones (word bc j)).map (64 * j + ·)

theorem restOf_zero (bc : List Word) {Bi : ℕ} (hBi : Bi + 1 < bc.length) :
    restOf bc Bi 0 = restOf bc (Bi + 1) (word bc (Bi + 1)) := by
  have hcount : bc.length - (Bi + 1) = bc.length - (Bi + 1 + 1) + 1 := by omega
  rw [restOf, hcount, List.range'_succ, List.flatMap_cons]
  simp [restOf]

theorem truePositions_eq (bc : List Word) (n : ℕ) :
    truePositions bc (64 * n) = (List.range n).flatMap fun j => (ones (word bc j)).map (64 * j + ·) := by
  induction n with
  | zero => rfl
  | succ n ih => rw [truePositions_succ, ih, List.range_succ, List.flatMap_append, List.flatMap_singleton]

theorem restOf_first {bc : List Word} (hne : 0 < bc.length) : restOf bc 0 (word bc 0) = truePositions bc (64 * bc.length) := by
  obtain ⟨n, hn⟩ : ∃ n, bc.length = n + 1 := ⟨bc.length - 1, by omega⟩
  rw [truePositions_eq, restOf, hn, List.range_eq_range', List.range'_succ, List.flatMap_cons]
  rfl

theorem skipZeros_spec (bc : List Word) {fuel Bi : ℕ} (hfuel : fuel = bc.length - 1 - Bi) (hBi : Bi < bc.length) {i1 : ℤ}
    {c : Word} (hlo : -64 ≤ i1) (hpos : ∀ t ∈ ones c, 0 ≤ i1 + t) :
    match skipZeros bc fuel Bi i1 c with
    | none => restOf bc Bi c = []
    | some (Bi', i1', c') => c' ≠ 0 ∧ Bi' < bc.length ∧ restOf bc Bi' c' = restOf bc Bi c ∧
        i1' - 64 * Bi' = i1 - 64 * Bi ∧ ∀ t ∈ ones c', 0 ≤ i1' + t := by
  induction fuel generalizing Bi i1 c with
  | zero =>
      rw [skipZeros]
      split_ifs with hc
      · have hcount : bc.length - (Bi + 1) = 0 := by omega
        simp [restOf, hc, hcount]
      · exact ⟨hc, hBi, rfl, rfl, hpos⟩
  | succ fuel ih =>
      rw [skipZeros]
      split_ifs with hc
      · have hpos' : ∀ t ∈ ones (word bc (Bi + 1)), 0 ≤ i1 + 64 + t := fun t _ => by omega
        have hih := ih (show fuel = bc.length - 1 - (Bi + 1) by omega) (by omega) (by omega) hpos'
        rw [hc, restOf_zero bc (by omega)]
        split at hih
        · exact hih
        · obtain ⟨hne, hlt, hrest, hdiff, hpos'⟩ := hih
          exact ⟨hne, hlt, hrest, by omega, hpos'⟩
      · exact ⟨hc, hBi, rfl, rfl, hpos⟩

theorem findallLoop_some (bc : List Word) (Bs : List ℕ) (fuel : ℕ) {Bi Bi' : ℕ} {i1 i1' : ℤ} (irest : List ℤ) {c c' : Word}
    (st : List (List ℤ) × ℕ) {r : ℤ × List ℤ} (hskip : skipZeros bc (bc.length - 1 - Bi) Bi i1 c = some (Bi', i1', c'))
    (hover : overflowind (i1' + c'.ctz.toNat) irest Bs = r) :
    findallLoop bc Bs (fuel + 1) Bi i1 irest c st =
      putIndex st (r.1 :: r.2) >>= findallLoop bc Bs fuel Bi' (r.1 - c'.ctz.toNat) r.2 (blsr c') := by
  rw [findallLoop, hskip, ← hover]

theorem findallLoop_spec (bc : List Word) {d : ℕ} {ds : List ℕ} {fuel Bi : ℕ} {i1 : ℤ} {is : List ℕ} {c : Word}
    {st : List (List ℤ) × ℕ} (hfuel : (restOf bc Bi c).length < fuel) (hBi : Bi < bc.length) (hlen : is.length = ds.length)
    (hoff : i1 + d * value ds is = 64 * Bi) (hlo : -64 ≤ i1) (hpos : ∀ t ∈ ones c, 0 ≤ i1 + t)
    (hin : ∀ p ∈ restOf bc Bi c, p < (d :: ds).prod) :
    findallLoop bc (d :: ds) fuel Bi i1 (is.map Nat.cast) c st =
      ((restOf bc Bi c).map fun p => (digits (d :: ds) p).map (Nat.cast : ℕ → ℤ)).foldlM putIndex st >>= fun st => .ok (some st.1) := by
  induction fuel generalizing Bi i1 is c st with
  | zero => omega
  | succ fuel ih =>
      have hskip := skipZeros_spec bc rfl hBi hlo hpos
      cases hres : skipZeros bc (bc.length - 1 - Bi) Bi i1 c with
      | none =>
          rw [hres] at hskip
          dsimp only at hskip
          rw [findallLoop, hres, hskip]
          rfl
      | some res =>
          obtain ⟨Bi', i1', c'⟩ := res
          rw [hres] at hskip
          obtain ⟨hne, hBi', hrest, hdiff, hpos'⟩ := hskip
          rw [← hrest] at hin hfuel ⊢
          have hones := ones_cons hne
          have hsplit : restOf bc Bi' c' = (64 * Bi' + c'.ctz.toNat) :: restOf bc Bi' (blsr c') := by
            rw [restOf, hones]
            rfl
          have htz := hpos' c'.ctz.toNat (by rw [hones]; exact List.mem_cons_self)
          obtain ⟨n, hn⟩ : ∃ n : ℕ, i1' + c'.ctz.toNat = n := ⟨(i1' + c'.ctz.toNat).toNat, by omega⟩
          have hstep := fun r => findallLoop_some bc (d :: ds) fuel (is.map Nat.cast) st (r := r) hres
          have hlow : ∀ t ∈ ones (blsr c'), c'.ctz.toNat < t := by
            have hpair := pairwise_ones c'
            rw [hones, List.pairwise_cons] at hpair
            exact hpair.1
          have htz64 := ones_lt (hones ▸ List.mem_cons_self : c'.ctz.toNat ∈ ones c')
          generalize c'.ctz.toNat = tz at hsplit htz hn hstep hlow htz64
          -- the position of the bit, and its digits
          have hvalue : value (d :: ds) (n :: is) = 64 * Bi' + tz := by
            have hcons : value (d :: ds) (n :: is) = n + d * value ds is := rfl
            have hcast : ((d * value ds is : ℕ) : ℤ) = d * value ds is := Nat.cast_mul _ _
            rw [hcons]
            omega
          rw [hsplit] at hin hfuel ⊢
          have hlt : 64 * Bi' + tz < (d :: ds).prod := hin _ List.mem_cons_self
          have hlt' := div_lt_prod hlt
          have hdigits := overflowind_spec hlen n (by rwa [hvalue])
          rw [hvalue, digits, List.map_cons, List.cons.injEq] at hdigits
          have hover : overflowind n (is.map Nat.cast) (d :: ds) =
              ((((64 * Bi' + tz) % d : ℕ) : ℤ), (digits ds ((64 * Bi' + tz) / d)).map Nat.cast) := Prod.ext hdigits.1 hdigits.2
          rw [hstep _ (by rw [hn, hover]), List.map_cons, List.foldlM_cons, digits, List.map_cons, bind_assoc]
          dsimp only
          congr 1
          funext st
          have hmod := Nat.mod_add_div (64 * Bi' + tz) d
          refine ih (by simpa using hfuel) hBi' (length_digits _ _) ?_ (by omega) (fun t ht => ?_) fun p hp =>
            hin p (List.mem_cons_of_mem _ hp)
          · have hcast : ((d * ((64 * Bi' + tz) / d) : ℕ) : ℤ) = d * ((64 * Bi' + tz) / d : ℕ) := Nat.cast_mul _ _
            rw [value_digits hlt']
            omega
          · have hlt := hlow t ht
            omega

end Search

section Findall

variable {B : BitArrayN}

-- `findall` returns, and with the positions of the true elements.
theorem findall_spec (hB : Shaped B) (mem : ℕ → List ℤ) :
    findall mem B = .ok (some ((truePositions B.chunks B.len).map (cartesian B.dims))) := by
  have hcount := count_spec hB
  have hle := length_truePositions_le B.chunks B.len
  have hlen := hB.packed.length_chunks
  have hnum := numBitChunks_le B.len
  rw [findall, hcount, Int.toNat_natCast]
  split_ifs with h0 hall
  · have hnil : (truePositions B.chunks B.len).length = 0 := by omega
    rw [List.length_eq_zero_iff.1 hnil]
    rfl
  · have hfull : truePositions B.chunks B.len = List.range B.len := by
      refine (List.filter_sublist).eq_of_length ?_
      rw [List.length_range]
      exact_mod_cast hall
    rw [hfull, allindices_spec hB.len_eq (by simp), Fallible.ok_bind]
  · -- a 0-dimensional array has one element
    match hdims : B.dims with
    | [] =>
      have hone := hB.len_eq
      rw [hdims, List.prod_nil] at hone
      omega
    | d :: ds =>
      have hrest := restOf_first (show 0 < B.chunks.length by omega)
      rw [truePositions_all hB.packed] at hrest
      have hzero : List.replicate ((d :: ds).length - 1) (0 : ℤ) = (List.replicate ds.length 0).map Nat.cast := by simp
      have hin : ∀ p ∈ truePositions B.chunks B.len, p < (d :: ds).prod := by
        intro p hp
        have hp' := List.mem_range.1 (List.mem_of_mem_filter hp)
        rwa [hB.len_eq, hdims] at hp'
      rw [hzero, findallLoop_spec B.chunks (by rw [hrest]; omega) (by omega) (by simp) ?_ (by omega)
        (fun t _ => by omega) (by rwa [hrest]), hrest, putIndex_all (by simp), Fallible.ok_bind]
      · refine congrArg (fun l => Except.ok (some l)) (List.map_congr_left fun p hp => ?_)
        rw [cartesian, key_eq (hin p hp)]
      · have hvalue : ∀ ds : List ℕ, value ds (List.replicate ds.length 0) = 0 := by
          intro ds
          induction ds with
          | nil => rfl
          | cons d ds ih => rw [List.length_cons, List.replicate_succ, value, ih, Nat.mul_zero]
        rw [hvalue]
        simp

theorem point_id (ds : List ℕ) (k : ℕ) : point (ds.map fun _ => (id : ℕ → ℕ)) ds k = digits ds k := by
  induction ds generalizing k with
  | nil => rfl
  | cons d ds ih => rw [List.map_cons, point, digits, ih, id]

-- The Cartesian positions of the true elements, in column-major order.
theorem cartesian_positions (hB : Shaped B) : (truePositions B.chunks B.len).map (cartesian B.dims) =
    ((columnMajor (B.dims.map List.range)).filter B.at).map fun is => is.map Nat.cast := by
  have hall : columnMajor (B.dims.map List.range) = (List.range B.len).map (digits B.dims) := by
    have h := columnMajor_eq (B.dims.map fun _ => (id : ℕ → ℕ)) B.dims (List.length_map _)
    have hzip : List.zipWith (fun (f : ℕ → ℕ) d => (List.range d).map f) (B.dims.map fun _ => id) B.dims =
        B.dims.map List.range := by
      rw [List.zipWith_map_left, List.zipWith_self]
      simp
    rw [hzip] at h
    rw [h, hB.len_eq]
    exact List.map_congr_left fun k _ => point_id B.dims k
  have hat : ∀ k ∈ List.range B.len, (B.at ∘ digits B.dims) k = bitAt B.chunks k := by
    intro k hk
    rw [List.mem_range, hB.len_eq] at hk
    rw [Function.comp_apply, BitArrayN.at, value_digits hk]
  rw [hall, List.filter_map, List.filter_congr hat, List.map_map]
  refine List.map_congr_left fun k hk => ?_
  have hk' := List.mem_range.1 (List.mem_of_mem_filter hk)
  rw [hB.len_eq] at hk'
  rw [cartesian, key_eq hk']
  rfl

theorem searches_scan (B : BitArrayN) (hB : Shaped B) (mem : ℕ → List ℤ) :
    (∀ start < B.len,
      findnext B start = .ok ((List.range' start (B.len - start)).find? (bitAt B.chunks)) ∧
      findnextnot B start = .ok ((List.range' start (B.len - start)).find? fun i => !bitAt B.chunks i) ∧
      findprev B start = .ok ((List.range (start + 1)).reverse.find? (bitAt B.chunks)) ∧
      findprevnot B start = .ok ((List.range (start + 1)).reverse.find? fun i => !bitAt B.chunks i)) ∧
    (∀ best : Bool, (if best then findmax B else findmin B) =
      if B.len = 0 then .error (.ArgumentError "BitArray must be non-empty")
      else .ok ((scanExtreme best (bitAt B.chunks) B.len).1, key B.dims (scanExtreme best (bitAt B.chunks) B.len).2)) ∧
    (count B).toInt = (List.range B.len).countP (bitAt B.chunks) ∧
    all B = (List.range B.len).all (bitAt B.chunks) ∧
    any B = (List.range B.len).any (bitAt B.chunks) ∧
    findall mem B = .ok (some (((columnMajor (B.dims.map List.range)).filter B.at).map fun is => is.map Nat.cast)) := by
  refine ⟨fun start hstart => ?_, fun best => ?_, ?_, all_spec hB.packed, any_spec hB.packed, ?_⟩
  · exact ⟨findnext_spec hB.packed start, findnextnot_spec hB.packed start, findprev_spec hstart,
      findprevnot_spec hB.packed hstart⟩
  · by_cases h0 : B.len = 0
    · cases best <;> simp [findmax, findmin, h0]
    · rw [if_neg h0]
      cases best with
      | false => exact findmin_spec hB.packed (Nat.pos_of_ne_zero h0)
      | true => exact findmax_spec hB.packed (Nat.pos_of_ne_zero h0)
  · rw [count_spec hB, truePositions, List.countP_eq_length_filter]
  · rw [findall_spec hB, cartesian_positions hB]

theorem searches_scan_matrix :
    findall (fun _ => []) ⟨⟨[41], 6⟩, [2, 3]⟩ =
      .ok (some (((columnMajor [List.range 2, List.range 3]).filter (BitArrayN.at ⟨⟨[41], 6⟩, [2, 3]⟩)).map fun is => is.map Nat.cast)) :=
  (searches_scan ⟨⟨[41], 6⟩, [2, 3]⟩ ⟨wellFormed_chunk (by decide) (by decide), rfl, by decide, by decide⟩ fun _ => []).2.2.2.2.2

example : ((columnMajor [List.range 2, List.range 3]).filter (BitArrayN.at ⟨⟨[41], 6⟩, [2, 3]⟩)) = [[0, 0], [1, 1], [1, 2]] := by
  decide

end Findall

end Joolia.BitArray
