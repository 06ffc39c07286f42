import Joolia.Base.BitArray.ReverseAlong
import Joolia.Base.BitSet.Members
import Mathlib.Data.List.Find

namespace Joolia.BitArray

open Words MixedRadix
open Bitset (unsafeBitfindnext unsafeBitfindprev topSetBit bitcount)

section Model

def trailingOnes (w : Word) : ℕ := (~~~w).ctz.toNat

def leadingOnes (w : Word) : ℕ := (~~~w).clz.toNat

-- `findnext(B, start)`
def findnext (B : BitArrayN) (start : ℤ) : Except BitError (Option ℕ) :=
  if ¬start ≥ 0 then .error (.BoundsError start)
  else if start ≥ B.len then .ok none
  else .ok (unsafeBitfindnext B.chunks start.toNat)

def findnextnot (B : BitArrayN) (start : ℤ) : Except BitError (Option ℕ) :=
  if ¬start ≥ 0 then .error (.BoundsError start)
  else if start ≥ B.len then .ok none
  else
    let bc := B.chunks
    let l := bc.length
    if l = 0 then .ok none
    else
      let chunk_start := start.toNat / 64
      let within_chunk_start := start.toNat % 64
      let mask := ~~~(msk64 <<< within_chunk_start)
      if chunk_start < l - 1 then
        if word bc chunk_start ||| mask ≠ msk64 then
          .ok (some (chunk_start * 64 + trailingOnes (word bc chunk_start ||| mask)))
        else
          match (List.range' (chunk_start + 1) (l - 1 - (chunk_start + 1))).find? fun i => word bc i != msk64 with
          | some i => .ok (some (i * 64 + trailingOnes (word bc i)))
          | none =>
            if word bc (l - 1) ≠ mskEnd B.len then .ok (some ((l - 1) * 64 + trailingOnes (word bc (l - 1)))) else .ok none
      else if word bc (l - 1) ||| mask ≠ mskEnd B.len then
        .ok (some ((l - 1) * 64 + trailingOnes (word bc (l - 1) ||| mask)))
      else .ok none

def findprev (B : BitArrayN) (start : ℤ) : Except BitError (Option ℕ) :=
  if ¬start ≥ 0 then .ok none
  else if start ≥ B.len then .error (.BoundsError start)
  else .ok (unsafeBitfindprev B.chunks start.toNat)

def findprevnot (B : BitArrayN) (start : ℤ) : Except BitError (Option ℕ) :=
  if ¬start ≥ 0 then .ok none
  else if start ≥ B.len then .error (.BoundsError start)
  else
    let bc := B.chunks
    let chunk_start := start.toNat / 64
    let mask := ~~~(mskEnd (start.toNat + 1))
    if word bc chunk_start ||| mask ≠ msk64 then
      .ok (some (chunk_start * 64 + (64 - leadingOnes (word bc chunk_start ||| mask)) - 1))
    else
      .ok (((List.range chunk_start).reverse.find? fun i => word bc i != msk64).map fun i =>
        i * 64 + (64 - leadingOnes (word bc i)) - 1)

-- `keys(a)[k]`: for a vector `k` itself, else the Cartesian index.
def key : List ℕ → ℕ → List ℕ
  | [_], k => [k]
  | dims, k => digits dims k

-- The loops of `findmax` and `findmin`: where they return, or `ti` behind all chunks.
def findLoop (count : Word → ℕ) : List Word → ℕ → ℕ ⊕ ℕ
  | [], ti => .inr ti
  | c :: ac, ti =>
    let k := count c
    let ti := ti + k
    if k = 64 then findLoop count ac ti else .inl ti

def findmax (a : BitArrayN) : Except BitError (Bool × List ℕ) :=
  if a.len = 0 then .error (.ArgumentError "BitArray must be non-empty")
  else
    match findLoop (fun c => c.ctz.toNat) a.chunks 0 with
    | .inl ti => .ok (true, key a.dims ti)
    | .inr _ => .ok (false, key a.dims 0)

def findmin (a : BitArrayN) : Except BitError (Bool × List ℕ) :=
  if a.len = 0 then .error (.ArgumentError "BitArray must be non-empty")
  else
    match findLoop trailingOnes a.chunks.dropLast 0 with
    | .inl ti => .ok (false, key a.dims ti)
    | .inr ti =>
      let l := (a.len - 1) % 64 + 1
      let k := trailingOnes (word a.chunks (a.chunks.length - 1) &&& mskEnd l)
      let ti := ti + k
      if k = l then .ok (true, key a.dims 0) else .ok (false, key a.dims ti)

-- `count(B)`
def count (B : BitArrayN) : Int64 := bitcount B.chunks

def all (B : BitArrayN) : Bool :=
  if B.len = 0 then true
  else if !(List.range (B.chunks.length - 1)).all fun i => word B.chunks i == msk64 then false
  else word B.chunks (B.chunks.length - 1) == mskEnd B.len

def any (B : BitArrayN) : Bool :=
  if B.len = 0 then false else (List.range B.chunks.length).any fun i => !(word B.chunks i == 0)

end Model

section Scans

variable {P : ℕ → Bool} {a b : ℕ}

-- The first position of a scan upwards, and of one downwards.
theorem scan_some {x : ℕ} (hx : P x = true) (ha : a ≤ x) (hb : x < b) (hmin : ∀ y, a ≤ y → P y = true → x ≤ y) :
    (List.range' a (b - a)).find? P = some x := by
  rw [List.find?_range'_eq_some]
  refine ⟨hx, List.mem_range'_1.2 ⟨ha, by omega⟩, fun y hy hyx => ?_⟩
  rw [Bool.not_eq_true', Bool.eq_false_iff]
  intro hPy
  have hle := hmin y hy hPy
  omega

theorem scan_none (hnone : ∀ y, a ≤ y → y < b → P y = false) : (List.range' a (b - a)).find? P = none := by
  rw [List.find?_eq_none]
  intro y hy
  rw [List.mem_range'_1] at hy
  rw [hnone y hy.1 (by omega)]
  exact Bool.false_ne_true

theorem scanDown_some {n x : ℕ} (hx : P x = true) (hn : x < n) (hmax : ∀ y < n, P y = true → y ≤ x) :
    (List.range n).reverse.find? P = some x := by
  induction n with
  | zero => omega
  | succ n ih =>
      rw [List.range_succ, List.reverse_append, List.reverse_singleton, List.singleton_append, List.find?_cons]
      by_cases hlast : x = n
      · rw [hlast] at hx
        rw [hx, hlast]
      · have hPn : P n = false := by
          rw [Bool.eq_false_iff]
          intro hPn
          have hle := hmax n (Nat.lt_succ_self n) hPn
          omega
        rw [hPn]
        exact ih (by omega) fun y hy => hmax y (by omega)

theorem scanDown_none {n : ℕ} (hnone : ∀ y < n, P y = false) : (List.range n).reverse.find? P = none := by
  rw [List.find?_eq_none]
  intro y hy
  rw [List.mem_reverse, List.mem_range] at hy
  rw [hnone y hy]
  exact Bool.false_ne_true

end Scans

section Next

variable {B : BitArrayN}

theorem lt_len_of_bitAt (hB : WellFormed B.toBitVector) {i : ℕ} (hi : bitAt B.chunks i = true) : i < B.len := by
  by_contra hge
  rw [hB.past_end i (by omega)] at hi
  cases hi

theorem findnext_spec (hB : WellFormed B.toBitVector) (start : ℕ) :
    findnext B start = .ok ((List.range' start (B.len - start)).find? (bitAt B.chunks)) := by
  rw [findnext, if_neg (by omega)]
  split_ifs with hlen
  · rw [scan_none fun y hy hlt => by omega]
  · rw [Int.toNat_natCast]
    congr 1
    cases hfind : unsafeBitfindnext B.chunks start with
    | some x =>
        obtain ⟨hx, hge, hmin⟩ := Bitset.unsafeBitfindnext_some hfind
        exact (scan_some hx hge (lt_len_of_bitAt hB hx) hmin).symm
    | none => exact (scan_none fun y hy _ => Bitset.unsafeBitfindnext_none hfind hy).symm

theorem findprev_spec {start : ℕ} (hstart : start < B.len) :
    findprev B start = .ok ((List.range (start + 1)).reverse.find? (bitAt B.chunks)) := by
  rw [findprev, if_neg (by omega), if_neg (by omega), Int.toNat_natCast]
  congr 1
  cases hfind : unsafeBitfindprev B.chunks start with
  | some x =>
      obtain ⟨hx, hle, hmax⟩ := Bitset.unsafeBitfindprev_some hfind
      exact (scanDown_some hx (by omega) fun y hy => hmax y (by omega)).symm
  | none => exact (scanDown_none fun y hy => Bitset.unsafeBitfindprev_none hfind (by omega)).symm

end Next

section Flipped

-- The chunks of the negated elements.
def flipped (B : BitArrayN) : List Word :=
  (List.range B.chunks.length).map fun i =>
    if i + 1 = B.chunks.length then ~~~(word B.chunks i) &&& mskEnd B.len else ~~~(word B.chunks i)

variable {B : BitArrayN}

theorem length_flipped : (flipped B).length = B.chunks.length := by simp [flipped]

theorem word_flipped {i : ℕ} (hi : i < B.chunks.length) : word (flipped B) i =
    if i + 1 = B.chunks.length then ~~~(word B.chunks i) &&& mskEnd B.len else ~~~(word B.chunks i) := by
  rw [flipped, word_map_range, if_pos hi]

theorem word_flipped_of_lt {i : ℕ} (hi : i + 1 < B.chunks.length) : word (flipped B) i = ~~~(word B.chunks i) := by
  rw [word_flipped (by omega), if_neg (by omega)]

theorem word_flipped_last (hne : B.chunks.length ≠ 0) :
    word (flipped B) (B.chunks.length - 1) = ~~~(word B.chunks (B.chunks.length - 1)) &&& mskEnd B.len := by
  rw [word_flipped (by omega), if_pos (by omega)]

theorem bitAt_flipped (hB : WellFormed B.toBitVector) (i : ℕ) :
    bitAt (flipped B) i = (decide (i < B.len) && !bitAt B.chunks i) := by
  have hlen := hB.length_chunks
  have hle := numBitChunks_le B.len
  have hpred := numBitChunks_pred_le B.len
  have hp : i % 64 < 64 := Nat.mod_lt i (by omega)
  by_cases hi : i / 64 < B.chunks.length
  · have hbit : bitAt (flipped B) i = (word (flipped B) (i / 64)).getLsbD (i % 64) := rfl
    rw [hbit, word_flipped hi]
    split_ifs with hlast
    · rw [BitVec.getLsbD_and, BitVec.getLsbD_not, getLsbD_mskEnd _ hp, decide_eq_true hp, Bool.true_and, Bool.and_comm]
      congr 1
      rw [decide_eq_decide]
      have hchunks : B.chunks.length = B.len / 64 + if B.len % 64 = 0 then 0 else 1 := hlen
      split_ifs at hchunks <;> omega
    · rw [BitVec.getLsbD_not, decide_eq_true hp, Bool.true_and, decide_eq_true (by omega : i < B.len), Bool.true_and]
      rfl
  · rw [bitAt_of_length_le (by rw [length_flipped]; omega), decide_eq_false (by omega)]
    rfl

theorem flipped_wellFormed (hB : WellFormed B.toBitVector) : WellFormed (⟨flipped B, B.len⟩ : BitVector) := by
  refine ⟨length_flipped.trans hB.length_chunks, fun i hi => ?_⟩
  rw [bitAt_flipped hB, decide_eq_false (Nat.not_lt.2 hi)]
  rfl

-- `trailing_ones` and `leading_ones` of a chunk, found in the negated one.
theorem or_not_ne_iff (w m : Word) : w ||| ~~~m ≠ msk64 ↔ ~~~w &&& m ≠ 0 := by
  have hnot : ~~~(w ||| ~~~m) = ~~~w &&& m := by rw [BitVec.not_or, BitVec.not_not]
  rw [← hnot, not_iff_not]
  constructor
  · intro h
    rw [h]
    rfl
  · intro h
    rw [← BitVec.not_not (b := w ||| ~~~m), h]
    rfl

theorem ne_msk64_iff (w : Word) : w ≠ msk64 ↔ ~~~w ≠ 0 := by
  have h := or_not_ne_iff w msk64
  have hall : ~~~w &&& msk64 = ~~~w := BitVec.and_allOnes
  rwa [show (~~~msk64 : Word) = 0#64 from rfl, BitVec.or_zero, hall] at h

theorem trailingOnes_or_not (w m : Word) : trailingOnes (w ||| ~~~m) = (~~~w &&& m).ctz.toNat := by
  rw [trailingOnes, BitVec.not_or, BitVec.not_not]

theorem ctz_eq {w : Word} {p : ℕ} (hp : w.getLsbD p = true) (hmin : ∀ q < p, w.getLsbD q = false) : w.ctz.toNat = p := by
  have hctz := BitVec.getLsbD_true_ctz_of_ne_zero (Bitset.ne_zero_of_getLsbD hp)
  rcases Nat.lt_trichotomy w.ctz.toNat p with hlt | heq | hgt
  · rw [hmin _ hlt] at hctz
    cases hctz
  · exact heq
  · have hle := Bitset.ctz_le hp
    omega

-- A chunk without bits behind the first `n` positions.
theorem ne_mskEnd_iff {v : Word} {n : ℕ} (hv : ∀ p < 64, v.getLsbD p = true → n % 64 = 0 ∨ p < n % 64) :
    v ≠ mskEnd n ↔ ~~~v &&& mskEnd n ≠ 0 := by
  rw [not_iff_not]
  constructor
  · intro h
    rw [h, BitVec.not_and_self]
  · intro h
    apply BitVec.eq_of_getLsbD_eq
    intro p hp
    have hzero : (~~~v &&& mskEnd n).getLsbD p = false := by rw [h]; simp
    rw [BitVec.getLsbD_and, BitVec.getLsbD_not, decide_eq_true hp, Bool.true_and] at hzero
    rw [getLsbD_mskEnd _ hp] at hzero ⊢
    cases hbit : v.getLsbD p with
    | false =>
        rw [hbit] at hzero
        simpa using hzero.symm
    | true => exact (decide_eq_true (hv p hp hbit)).symm

theorem trailingOnes_of_ne {v : Word} {n : ℕ} (h : ~~~v &&& mskEnd n ≠ 0) :
    trailingOnes v = (~~~v &&& mskEnd n).ctz.toNat := by
  have hctz := BitVec.getLsbD_true_ctz_of_ne_zero h
  have hlt := BitVec.lt_of_getLsbD hctz
  generalize hp : (~~~v &&& mskEnd n).ctz.toNat = p at hctz hlt
  rw [BitVec.getLsbD_and, getLsbD_mskEnd _ hlt, Bool.and_eq_true, decide_eq_true_eq] at hctz
  refine ctz_eq hctz.1 fun q hq => ?_
  have hbefore : (~~~v &&& mskEnd n).getLsbD q = false := BitVec.getLsbD_false_of_lt_ctz (by omega)
  rw [BitVec.getLsbD_and, getLsbD_mskEnd _ (by omega), decide_eq_true (by omega), Bool.and_true] at hbefore
  exact hbefore

theorem last_bits (hB : WellFormed B.toBitVector) {p : ℕ} (hp : p < 64)
    (hbit : (word B.chunks (B.chunks.length - 1)).getLsbD p = true) : B.len % 64 = 0 ∨ p < B.len % 64 := by
  have hlen := hB.length_chunks
  have hchunks : B.chunks.length = B.len / 64 + if B.len % 64 = 0 then 0 else 1 := hlen
  have hat : bitAt B.chunks (64 * (B.chunks.length - 1) + p) = true := by rwa [bitAt_word _ _ hp]
  have hlt := lt_len_of_bitAt hB hat
  split_ifs at hchunks <;> omega

theorem word_flipped_ne {i : ℕ} (hi : i + 1 < B.chunks.length) : (word (flipped B) i != 0) = (word B.chunks i != msk64) := by
  rw [word_flipped_of_lt hi, Bool.eq_iff_iff, bne_iff_ne, bne_iff_ne, ne_msk64_iff]

theorem findnextnot_eq (hB : WellFormed B.toBitVector) {start : ℕ} (hstart : start < B.len) :
    findnextnot B start = .ok (unsafeBitfindnext (flipped B) start) := by
  have hlen := hB.length_chunks
  have hle := numBitChunks_le B.len
  have hne : B.chunks.length ≠ 0 := by omega
  have hlast := word_flipped_last hne
  have hin : ¬start / 64 ≥ B.chunks.length := by omega
  rw [findnextnot, if_neg (by omega), if_neg (by omega)]
  simp only [Int.toNat_natCast, if_neg hne, unsafeBitfindnext, length_flipped, if_neg hin]
  by_cases hk : start / 64 < B.chunks.length - 1
  · rw [if_pos hk]
    have hword := word_flipped_of_lt (B := B) (i := start / 64) (by omega)
    have hiff := or_not_ne_iff (word B.chunks (start / 64)) (msk64 <<< (start % 64))
    rw [← hword] at hiff
    by_cases hfirst : word B.chunks (start / 64) ||| ~~~(msk64 <<< (start % 64)) ≠ msk64
    · rw [if_pos hfirst, if_pos (hiff.1 hfirst), trailingOnes_or_not, hword]
    · rw [if_neg hfirst, if_neg (mt hiff.2 hfirst)]
      -- the chunks between, and the last one
      have hcount : B.chunks.length - (start / 64 + 1) = B.chunks.length - 1 - (start / 64 + 1) + 1 := by omega
      have hend : start / 64 + 1 + 1 * (B.chunks.length - 1 - (start / 64 + 1)) = B.chunks.length - 1 := by omega
      rw [hcount, List.range'_concat, hend, List.find?_append]
      have hbetween : (List.range' (start / 64 + 1) (B.chunks.length - 1 - (start / 64 + 1))).find?
          (fun i => word (flipped B) i != 0) = (List.range' (start / 64 + 1) (B.chunks.length - 1 - (start / 64 + 1))).find?
          (fun i => word B.chunks i != msk64) := by
        refine List.find?_congr fun i hi => word_flipped_ne ?_
        have hi' := List.mem_range'_1.1 hi
        omega
      rw [hbetween]
      cases hfind : (List.range' (start / 64 + 1) (B.chunks.length - 1 - (start / 64 + 1))).find?
          (fun i => word B.chunks i != msk64) with
      | some i =>
          have hi := List.mem_range'_1.1 (List.mem_of_find?_eq_some hfind)
          simp only [Option.some_or, Option.map_some]
          rw [word_flipped_of_lt (by omega)]
          rfl
      | none =>
          have hbits : ∀ p < 64, (word B.chunks (B.chunks.length - 1)).getLsbD p = true → B.len % 64 = 0 ∨ p < B.len % 64 :=
            fun p => last_bits hB
          simp only [Option.none_or, List.find?_singleton]
          by_cases hl : word B.chunks (B.chunks.length - 1) ≠ mskEnd B.len
          · have hflip := (ne_mskEnd_iff hbits).1 hl
            rw [if_pos hl, hlast, if_pos (by simpa using hflip), trailingOnes_of_ne hflip]
            simp [hlast]
          · have hflip := mt (ne_mskEnd_iff hbits).2 hl
            rw [if_neg hl, hlast, if_neg (by simpa using hflip)]
            rfl
  · have hk' : start / 64 = B.chunks.length - 1 := by omega
    have hchunks : B.chunks.length = B.len / 64 + if B.len % 64 = 0 then 0 else 1 := hlen
    have hbits : ∀ p < 64, (word B.chunks (B.chunks.length - 1) ||| ~~~(msk64 <<< (start % 64))).getLsbD p = true →
        B.len % 64 = 0 ∨ p < B.len % 64 := by
      intro p hp hbit
      rw [BitVec.getLsbD_or, BitVec.getLsbD_not, getLsbD_msk64_shiftLeft _ hp, decide_eq_true hp, Bool.true_and,
        Bool.or_eq_true, Bool.not_eq_true', decide_eq_false_iff_not] at hbit
      rcases hbit with hbit | hbit
      · exact last_bits hB hp hbit
      · split_ifs at hchunks <;> omega
    have hnot : ~~~(word B.chunks (B.chunks.length - 1) ||| ~~~(msk64 <<< (start % 64))) &&& mskEnd B.len =
        word (flipped B) (start / 64) &&& msk64 <<< (start % 64) := by
      rw [hk', hlast, BitVec.not_or, BitVec.not_not, BitVec.and_assoc, BitVec.and_assoc, BitVec.and_comm (mskEnd B.len)]
    have hiff := ne_mskEnd_iff hbits
    rw [hnot] at hiff
    rw [if_neg hk]
    by_cases hl : word B.chunks (B.chunks.length - 1) ||| ~~~(msk64 <<< (start % 64)) ≠ mskEnd B.len
    · have hflip := hiff.1 hl
      have hones := trailingOnes_of_ne (hnot ▸ hflip)
      rw [if_pos hl, if_pos hflip, hones, hnot, hk']
    · have hnone : B.chunks.length - (start / 64 + 1) = 0 := by omega
      rw [if_neg hl, if_neg (mt hiff.2 hl), hnone]
      rfl

theorem topSetBit_not (w : Word) : 64 - leadingOnes w = topSetBit (~~~w) := rfl

theorem findprevnot_eq (hB : WellFormed B.toBitVector) {start : ℕ} (hstart : start < B.len) :
    findprevnot B start = .ok (unsafeBitfindprev (flipped B) start) := by
  have hlen := hB.length_chunks
  have hle := numBitChunks_le B.len
  have hchunks : B.chunks.length = B.len / 64 + if B.len % 64 = 0 then 0 else 1 := hlen
  rw [findprevnot, if_neg (by omega), if_neg (by omega)]
  simp only [Int.toNat_natCast, unsafeBitfindprev]
  -- the mask of the start leaves no bit behind the end
  have hword : word (flipped B) (start / 64) &&& mskEnd (start + 1) =
      ~~~(word B.chunks (start / 64)) &&& mskEnd (start + 1) := by
    apply BitVec.eq_of_getLsbD_eq
    intro p hp
    rw [word_flipped (by omega)]
    split_ifs with hlast
    · rw [BitVec.getLsbD_and, BitVec.getLsbD_and, BitVec.getLsbD_and, getLsbD_mskEnd _ hp, getLsbD_mskEnd _ hp, Bool.and_assoc]
      congr 1
      rw [← Bool.decide_and, decide_eq_decide]
      split_ifs at hchunks <;> omega
    · rfl
  have hiff := or_not_ne_iff (word B.chunks (start / 64)) (mskEnd (start + 1))
  rw [← hword] at hiff
  by_cases hfirst : word B.chunks (start / 64) ||| ~~~mskEnd (start + 1) ≠ msk64
  · rw [if_pos hfirst, if_pos (hiff.1 hfirst), topSetBit_not, BitVec.not_or, BitVec.not_not, hword]
  · rw [if_neg hfirst, if_neg (mt hiff.2 hfirst)]
    have hbefore : (List.range (start / 64)).reverse.find? (fun i => word (flipped B) i != 0) =
        (List.range (start / 64)).reverse.find? (fun i => word B.chunks i != msk64) := by
      refine List.find?_congr fun i hi => word_flipped_ne ?_
      rw [List.mem_reverse, List.mem_range] at hi
      omega
    rw [hbefore]
    cases hfind : (List.range (start / 64)).reverse.find? (fun i => word B.chunks i != msk64) with
    | none => rfl
    | some i =>
        have hi := List.mem_of_find?_eq_some hfind
        rw [List.mem_reverse, List.mem_range] at hi
        rw [Option.map_some, Option.map_some, topSetBit_not, word_flipped_of_lt (by omega)]

theorem findnextnot_spec (hB : WellFormed B.toBitVector) (start : ℕ) :
    findnextnot B start = .ok ((List.range' start (B.len - start)).find? fun i => !bitAt B.chunks i) := by
  by_cases hstart : start < B.len
  · have hscan := findnext_spec (B := { B with chunks := flipped B }) (flipped_wellFormed hB) start
    rw [findnext, if_neg (by omega), if_neg (by simpa using hstart), Int.toNat_natCast] at hscan
    rw [findnextnot_eq hB hstart, hscan]
    dsimp only
    refine congrArg _ (List.find?_congr fun i hi => ?_)
    have hi' := List.mem_range'_1.1 hi
    rw [bitAt_flipped hB, decide_eq_true (by omega), Bool.true_and]
  · rw [findnextnot, if_neg (by omega), if_pos (by omega), Nat.sub_eq_zero_of_le (by omega)]
    rfl

theorem findprevnot_spec (hB : WellFormed B.toBitVector) {start : ℕ} (hstart : start < B.len) :
    findprevnot B start = .ok ((List.range (start + 1)).reverse.find? fun i => !bitAt B.chunks i) := by
  have hscan := findprev_spec (B := { B with chunks := flipped B }) hstart
  rw [findprev, if_neg (by omega), if_neg (by simpa using hstart), Int.toNat_natCast] at hscan
  rw [findprevnot_eq hB hstart, hscan]
  dsimp only
  refine congrArg _ (List.find?_congr fun i hi => ?_)
  rw [List.mem_reverse, List.mem_range] at hi
  rw [bitAt_flipped hB, decide_eq_true (by omega), Bool.true_and]

end Flipped

section Extremes

-- A scan for the largest element (`best = true`) or the smallest one, which keeps the first of several.
def scanExtreme (best : Bool) (x : ℕ → Bool) (n : ℕ) : Bool × ℕ :=
  (List.range' 1 (n - 1)).foldl (fun m k => if m.1 ≠ best ∧ x k = best then (x k, k) else m) (x 0, 0)

-- What a search for the first such element finds.
def firstExtreme (best : Bool) : Option ℕ → Bool × ℕ
  | some k => (best, k)
  | none => (!best, 0)

theorem scanExtreme_eq (best : Bool) (x : ℕ → Bool) {n : ℕ} (hn : 0 < n) :
    scanExtreme best x n = firstExtreme best ((List.range n).find? fun k => x k == best) := by
  obtain ⟨n, rfl⟩ := Nat.exists_eq_succ_of_ne_zero hn.ne'
  induction n with
  | zero =>
      by_cases h0 : x 0 = best
      · simp [scanExtreme, firstExtreme, List.range_succ, h0]
      · have hnot : x 0 = !best := by cases hx : x 0 <;> cases best <;> simp_all
        simp [scanExtreme, firstExtreme, List.range_succ, hnot]
  | succ n ih =>
      have hscan : scanExtreme best x (n + 2) = if (scanExtreme best x (n + 1)).1 ≠ best ∧ x (n + 1) = best
          then (x (n + 1), n + 1) else scanExtreme best x (n + 1) := by
        rw [scanExtreme, show n + 2 - 1 = n + 1 from rfl, List.range'_concat, List.foldl_append, Nat.one_mul, Nat.add_comm 1 n]
        rfl
      rw [hscan, ih (Nat.succ_pos n), List.range_succ (n := n + 1), List.find?_append]
      cases hfind : (List.range (n + 1)).find? fun k => x k == best with
      | some k => simp [firstExtreme]
      | none =>
          by_cases hlast : x (n + 1) = best
          · simp [firstExtreme, hlast]
          · have hne : (x (n + 1) == best) = false := beq_eq_false_iff_ne.2 hlast
            simp [firstExtreme, hlast, hne]

variable {ac : List Word}

theorem bitAt_cons_of_lt (c : Word) {p : ℕ} (hp : p < 64) : bitAt (c :: ac) p = c.getLsbD p := by
  have h := bitAt_word (c :: ac) 0 hp
  rwa [Nat.mul_zero, Nat.zero_add] at h

theorem bitAt_cons_add (c : Word) (p : ℕ) : bitAt (c :: ac) (64 + p) = bitAt ac p := by
  rw [Bitset.bitAt_eq_getLsbD, Bitset.bitAt_eq_getLsbD, Nat.add_mod_left, Nat.add_div_left _ (by omega)]
  rfl

theorem ctz_eq_width_iff (w : Word) : w.ctz.toNat = 64 ↔ w = 0 := by
  constructor
  · intro h
    by_contra hw
    have hlt := BitVec.lt_of_getLsbD (BitVec.getLsbD_true_ctz_of_ne_zero hw)
    omega
  · rintro rfl
    set_option maxRecDepth 20000 in decide

theorem findLoop_cons (count : Word → ℕ) (c : Word) (ac : List Word) (ti : ℕ) : findLoop count (c :: ac) ti =
    if count c = 64 then findLoop count ac (ti + count c) else .inl (ti + count c) := rfl

-- The loop over the chunks stops at the first set bit.
theorem findLoop_inl {ti t : ℕ} (h : findLoop (fun c => c.ctz.toNat) ac ti = .inl t) :
    ∃ p, t = ti + p ∧ bitAt ac p = true ∧ ∀ q < p, bitAt ac q = false := by
  induction ac generalizing ti with
  | nil => cases h
  | cons c ac ih =>
      rw [findLoop_cons] at h
      split_ifs at h with hc
      · obtain rfl := (ctz_eq_width_iff c).1 hc
        obtain ⟨p, rfl, hp, hmin⟩ := ih h
        rw [hc]
        refine ⟨64 + p, by omega, by rw [bitAt_cons_add, hp], fun q hq => ?_⟩
        by_cases hq64 : q < 64
        · rw [bitAt_cons_of_lt _ hq64]
          simp
        · obtain ⟨r, rfl⟩ : ∃ r, q = 64 + r := ⟨q - 64, by omega⟩
          rw [bitAt_cons_add, hmin r (by omega)]
      · have hne : c ≠ 0 := fun h0 => hc ((ctz_eq_width_iff c).2 h0)
        have hctz := BitVec.getLsbD_true_ctz_of_ne_zero hne
        have hlt := BitVec.lt_of_getLsbD hctz
        obtain rfl := Sum.inl.inj h
        refine ⟨_, rfl, by rw [bitAt_cons_of_lt _ hlt, hctz], fun q hq => ?_⟩
        rw [bitAt_cons_of_lt _ (by omega)]
        exact BitVec.getLsbD_false_of_lt_ctz hq

theorem findLoop_inr {ti t : ℕ} (h : findLoop (fun c => c.ctz.toNat) ac ti = .inr t) :
    t = ti + 64 * ac.length ∧ ∀ q, bitAt ac q = false := by
  induction ac generalizing ti with
  | nil =>
      obtain rfl := Sum.inr.inj h
      exact ⟨rfl, fun q => bitAt_of_length_le (Nat.zero_le _)⟩
  | cons c ac ih =>
      rw [findLoop_cons] at h
      split_ifs at h with hc
      · obtain rfl := (ctz_eq_width_iff c).1 hc
        obtain ⟨rfl, hzero⟩ := ih h
        rw [hc]
        refine ⟨by rw [List.length_cons]; omega, fun q => ?_⟩
        by_cases hq : q < 64
        · rw [bitAt_cons_of_lt _ hq]
          simp
        · obtain ⟨r, rfl⟩ : ∃ r, q = 64 + r := ⟨q - 64, by omega⟩
          rw [bitAt_cons_add, hzero]

-- The loop of `findmin` reads the negated chunks.
theorem findLoop_trailingOnes (ac : List Word) (ti : ℕ) :
    findLoop trailingOnes ac ti = findLoop (fun c => c.ctz.toNat) (ac.map (~~~·)) ti := by
  induction ac generalizing ti with
  | nil => rw [List.map_nil, findLoop, findLoop]
  | cons c ac ih =>
      rw [List.map_cons, findLoop_cons, findLoop_cons, ih, trailingOnes]

variable {a : BitArrayN}

theorem findmax_spec (ha : WellFormed a.toBitVector) (hlen : 0 < a.len) :
    findmax a = .ok ((scanExtreme true (bitAt a.chunks) a.len).1, key a.dims (scanExtreme true (bitAt a.chunks) a.len).2) := by
  have hbeq : (fun k => bitAt a.chunks k == true) = bitAt a.chunks := by
    funext k
    simp
  rw [findmax, if_neg (by omega), scanExtreme_eq true _ hlen, hbeq]
  cases hloop : findLoop (fun c => c.ctz.toNat) a.chunks 0 with
  | inl t =>
      obtain ⟨p, rfl, hp, hmin⟩ := findLoop_inl hloop
      rw [Nat.zero_add, List.find?_range_eq_some.2 ⟨hp, List.mem_range.2 (lt_len_of_bitAt ha hp), fun q hq => by simp [hmin q hq]⟩]
      rfl
  | inr t =>
      obtain ⟨-, hzero⟩ := findLoop_inr hloop
      rw [List.find?_eq_none.2 fun q _ => by simp [hzero q]]
      rfl

-- The last chunk, where only `l` bits are elements.
theorem trailingOnes_last (ha : WellFormed a.toBitVector) (hlen : 0 < a.len) :
    trailingOnes (word a.chunks (a.chunks.length - 1) &&& mskEnd ((a.len - 1) % 64 + 1)) =
      trailingOnes (word a.chunks (a.chunks.length - 1)) := by
  congr 1
  apply BitVec.eq_of_getLsbD_eq
  intro p hp
  rw [BitVec.getLsbD_and, getLsbD_mskEnd _ hp]
  cases hbit : (word a.chunks (a.chunks.length - 1)).getLsbD p with
  | false => rfl
  | true =>
      have hin := last_bits ha hp hbit
      rw [Bool.true_and, decide_eq_true_eq]
      omega

theorem bitAt_negated {q : ℕ} (hq : q < 64 * (a.chunks.length - 1)) :
    bitAt (a.chunks.dropLast.map (~~~·)) q = !bitAt a.chunks q := by
  have hin : q / 64 < a.chunks.dropLast.length := by
    rw [List.length_dropLast]
    omega
  have hword : word (a.chunks.dropLast.map (~~~·)) (q / 64) = ~~~(word a.chunks (q / 64)) := by
    have hget : q / 64 < a.chunks.length := by omega
    have hlast : q / 64 < a.chunks.length - 1 := by omega
    rw [word, word, List.getD_eq_getElem?_getD, List.getD_eq_getElem?_getD, List.getElem?_map, List.getElem?_dropLast,
      if_pos hlast, List.getElem?_eq_getElem hget]
    rfl
  rw [Bitset.bitAt_eq_getLsbD, hword, BitVec.getLsbD_not, decide_eq_true (Nat.mod_lt q (by omega)), Bool.true_and]
  rfl

theorem findmin_spec (ha : WellFormed a.toBitVector) (hlen : 0 < a.len) :
    findmin a = .ok ((scanExtreme false (bitAt a.chunks) a.len).1, key a.dims (scanExtreme false (bitAt a.chunks) a.len).2) := by
  have hnum := ha.length_chunks
  have hchunks : a.chunks.length = a.len / 64 + if a.len % 64 = 0 then 0 else 1 := hnum
  have hsplit : a.len = 64 * (a.chunks.length - 1) + ((a.len - 1) % 64 + 1) := by split_ifs at hchunks <;> omega
  rw [findmin, if_neg (by omega), scanExtreme_eq false _ hlen, findLoop_trailingOnes]
  cases hloop : findLoop (fun c => c.ctz.toNat) (a.chunks.dropLast.map (~~~·)) 0 with
  | inl t =>
      obtain ⟨p, rfl, hp, hmin⟩ := findLoop_inl hloop
      have hlt := Bitset.lt_of_bitAt hp
      rw [List.length_map, List.length_dropLast] at hlt
      rw [bitAt_negated hlt, Bool.not_eq_true'] at hp
      have hfind : (List.range a.len).find? (fun k => bitAt a.chunks k == false) = some p := by
        refine List.find?_range_eq_some.2 ⟨by simp [hp], List.mem_range.2 (by omega), fun q hq => ?_⟩
        have hbit := hmin q hq
        rw [bitAt_negated (by omega), Bool.not_eq_false'] at hbit
        simp [hbit]
      rw [hfind, Nat.zero_add]
      rfl
  | inr t =>
      obtain ⟨rfl, hones⟩ := findLoop_inr hloop
      rw [List.length_map, List.length_dropLast, Nat.zero_add]
      have hbefore : ∀ q < 64 * (a.chunks.length - 1), bitAt a.chunks q = true := by
        intro q hq
        have hbit := hones q
        rwa [bitAt_negated hq, Bool.not_eq_false'] at hbit
      dsimp only
      rw [trailingOnes_last ha hlen]
      generalize hk : trailingOnes (word a.chunks (a.chunks.length - 1)) = k
      have hlow : ∀ p < 64, p < k → bitAt a.chunks (64 * (a.chunks.length - 1) + p) = true := by
        intro p hp hpk
        have hzero : (~~~(word a.chunks (a.chunks.length - 1))).getLsbD p = false := 
          BitVec.getLsbD_false_of_lt_ctz (hpk.trans_eq hk.symm)
        rw [bitAt_word _ _ hp]
        simpa [hp] using hzero
      have hbelow : ∀ q < a.len, q < 64 * (a.chunks.length - 1) + k → bitAt a.chunks q = true := by
        intro q hq hqk
        by_cases hq' : q < 64 * (a.chunks.length - 1)
        · exact hbefore q hq'
        · have h := hlow (q - 64 * (a.chunks.length - 1)) (by omega) (by omega)
          rwa [Nat.add_sub_cancel' (by omega)] at h
      split_ifs with hkl
      · have hfind : (List.range a.len).find? (fun k => bitAt a.chunks k == false) = none := by
          refine List.find?_eq_none.2 fun q hq => ?_
          rw [List.mem_range] at hq
          simp [hbelow q hq (by omega)]
        rw [hfind]
        rfl
      · -- the first zero of the last chunk is that of an element
        have hne : ~~~(word a.chunks (a.chunks.length - 1)) ≠ 0 := by
          intro h0
          have h64 : k = 64 := by rw [← hk, trailingOnes, h0]; exact (ctz_eq_width_iff 0).2 rfl
          have hbit := hlow 63 (by omega) (by omega)
          have hlt := lt_len_of_bitAt ha hbit
          omega
        have hctz := BitVec.getLsbD_true_ctz_of_ne_zero hne
        rw [show (~~~(word a.chunks (a.chunks.length - 1))).ctz.toNat = k from hk] at hctz
        have hk64 := BitVec.lt_of_getLsbD hctz
        have hzero : bitAt a.chunks (64 * (a.chunks.length - 1) + k) = false := by
          rw [bitAt_word _ _ hk64]
          simpa [hk64] using hctz
        have hkl' : k < (a.len - 1) % 64 + 1 := by
          by_contra hge
          have hbit := hlow ((a.len - 1) % 64 + 1) (by omega) (by omega)
          have hlt := lt_len_of_bitAt ha hbit
          omega
        have hfind : (List.range a.len).find? (fun k => bitAt a.chunks k == false) = some (64 * (a.chunks.length - 1) + k) := by
          refine List.find?_range_eq_some.2 ⟨by simp [hzero], List.mem_range.2 (by omega), fun q hq => ?_⟩
          simp [hbelow q (by omega) hq]
        rw [hfind]
        rfl

end Extremes

end Joolia.BitArray
