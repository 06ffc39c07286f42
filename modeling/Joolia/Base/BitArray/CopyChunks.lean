import Joolia.Base.BitArray.Chunks

namespace Joolia.BitArray

open Words

theorem getLsbD_msk64_shiftLeft (n : ℕ) {p : ℕ} (hp : p < 64) :
    (msk64 <<< n).getLsbD p = decide (n ≤ p) := by
  simp only [msk64, BitVec.getLsbD_shiftLeft, BitVec.getLsbD_not, hp,
    decide_true, Bool.true_and]
  by_cases h : n ≤ p
  · simp [h]
    omega
  · simp [h]

-- The same mask complemented keeps the bits below `n`.
theorem getLsbD_not_msk64_shiftLeft (n : ℕ) {p : ℕ} (hp : p < 64) :
    (~~~(msk64 <<< n)).getLsbD p = decide (p < n) := by
  rw [BitVec.getLsbD_not, getLsbD_msk64_shiftLeft n hp, decide_eq_true hp, Bool.true_and,
    ← decide_not, decide_eq_decide, not_le]

theorem getLsbD_merge (old new msk : Word) {p : ℕ} (hp : p < 64) :
    ((old &&& msk) ||| (new &&& ~~~msk)).getLsbD p =
      if msk.getLsbD p then old.getLsbD p else new.getLsbD p := by
  simp only [BitVec.getLsbD_or, BitVec.getLsbD_and, BitVec.getLsbD_not, hp, decide_true,
    Bool.true_and]
  cases msk.getLsbD p <;> simp

theorem getLsbD_mskD0 (ld0 ld1 delta_kd : ℕ) {p : ℕ} (hp : p < 64) :
    (mskD0 ld0 ld1 delta_kd).getLsbD p = decide (p < ld0 ∨ delta_kd = 0 ∧ ld1 < p) := by
  unfold mskD0
  split
  · rename_i hk
    simp only [BitVec.getLsbD_or, getLsbD_not_msk64_shiftLeft _ hp, getLsbD_msk64_shiftLeft _ hp,
      hk, true_and, Nat.succ_le_iff, Bool.decide_or]
  · rename_i hk
    simp only [getLsbD_not_msk64_shiftLeft _ hp, hk, false_and, or_false]

theorem getLsbD_mskD1 (ld1 : ℕ) {p : ℕ} (hp : p < 64) :
    (mskD1 ld1).getLsbD p = decide (ld1 < p) :=
  getLsbD_msk64_shiftLeft (ld1 + 1) hp

theorem getLsbD_mskS0 (ls0 ls1 delta_ks : ℕ) {p : ℕ} (hp : p < 64) :
    (mskS0 ls0 ls1 delta_ks).getLsbD p = decide (ls0 ≤ p ∧ (delta_ks = 0 → p ≤ ls1)) := by
  unfold mskS0
  split
  · rename_i hk
    simp only [BitVec.getLsbD_and, getLsbD_not_msk64_shiftLeft _ hp, getLsbD_msk64_shiftLeft _ hp,
      hk, forall_const, Nat.lt_succ_iff, Bool.decide_and]
  · rename_i hk
    simp only [getLsbD_msk64_shiftLeft _ hp, hk, IsEmpty.forall_iff, and_true]

section Glue

variable (src : List Word) (pos_s numbits : ℕ)

-- The chunk glued from source chunks `ks0 + i` and `ks0 + i + 1`.
def glued (i : ℕ) : Word :=
  glueSrcBitchunks src (pos_s / 64 + i) ((pos_s + numbits - 1) / 64)
    (mskS0 (pos_s % 64) ((pos_s + numbits - 1) % 64) ((pos_s + numbits - 1) / 64 - pos_s / 64))
    (pos_s % 64)

-- Up to the last requested bit, a glued chunk holds the source bits in order.
theorem getLsbD_glued {i j : ℕ} (hj : j < 64) (hpos : 64 * i + j < numbits) :
    (glued src pos_s numbits i).getLsbD j = bitAt src (pos_s + (64 * i + j)) := by
  have hlow : ∀ p, p < 64 → 64 * (pos_s / 64 + i) + p ≤ pos_s + numbits - 1 →
      pos_s % 64 ≤ p →
      (word src (pos_s / 64 + i) &&& mskS0 (pos_s % 64) ((pos_s + numbits - 1) % 64)
        ((pos_s + numbits - 1) / 64 - pos_s / 64)).getLsbD p =
        bitAt src (64 * (pos_s / 64 + i) + p) := by
    intro p hp hle hge
    rw [BitVec.getLsbD_and, getLsbD_mskS0 _ _ _ hp, decide_eq_true (by omega), Bool.and_true,
      bitAt_word _ _ hp]
  by_cases hsplit : pos_s % 64 + j < 64
  · -- the bit comes from the first chunk
    have hfirst : ((word src (pos_s / 64 + i) &&& mskS0 (pos_s % 64) ((pos_s + numbits - 1) % 64)
        ((pos_s + numbits - 1) / 64 - pos_s / 64)) >>> (pos_s % 64)).getLsbD j =
        bitAt src (pos_s + (64 * i + j)) := by
      rw [BitVec.getLsbD_ushiftRight, hlow _ hsplit (by omega) (by omega)]
      congr 1
      omega
    simp only [glued, glueSrcBitchunks]
    split
    · rw [BitVec.getLsbD_or, hfirst, BitVec.getLsbD_shiftLeft,
        decide_eq_true (show j < 64 - pos_s % 64 by omega)]
      simp
    · exact hfirst
  · -- the bit comes from the second chunk
    have hcond : (pos_s + numbits - 1) / 64 > pos_s / 64 + i ∧ pos_s % 64 > 0 := by omega
    simp only [glued, glueSrcBitchunks]
    rw [if_pos hcond, BitVec.getLsbD_or, BitVec.getLsbD_ushiftRight,
      BitVec.getLsbD_of_ge _ _ (by omega), Bool.false_or, BitVec.getLsbD_shiftLeft,
      decide_eq_true hj, decide_eq_false (show ¬j < 64 - pos_s % 64 by omega),
      BitVec.getLsbD_and, BitVec.getLsbD_not,
      getLsbD_mskS0 _ _ _ (show j - (64 - pos_s % 64) < 64 by omega),
      decide_eq_true (show j - (64 - pos_s % 64) < 64 by omega), decide_eq_false (by omega),
      ← bitAt_word _ _ (show j - (64 - pos_s % 64) < 64 by omega)]
    simp only [Bool.not_false, Bool.and_true, Bool.true_and]
    congr 1
    omega

theorem glued_congr {a b : List Word} {i : ℕ}
    (h0 : word a (pos_s / 64 + i) = word b (pos_s / 64 + i))
    (h1 : word a (pos_s / 64 + i + 1) = word b (pos_s / 64 + i + 1)) :
    glued a pos_s numbits i = glued b pos_s numbits i := by
  simp only [glued, glueSrcBitchunks, h0, h1]

end Glue

-- `result` is `dest` with `numbits` bits from `pos_d` on replaced by those of `src`
-- from `pos_s` on.
structure Copied (dest : List Word) (pos_d : ℕ) (src : List Word) (pos_s numbits : ℕ)
    (result : List Word) : Prop where
  length_eq : result.length = dest.length
  bitAt_eq : ∀ i, bitAt result i =
    if pos_d ≤ i ∧ i < pos_d + numbits then bitAt src (pos_s + (i - pos_d)) else bitAt dest i

section Forward

variable {dest : List Word} {pos_d : ℕ} {src : Source} {pos_s numbits : ℕ}

variable (pos_d pos_s numbits) in
-- A destination chunk assembled from two neighbouring glued chunks.
theorem getLsbD_assembled (words : List Word) {i p : ℕ} (hp : p < 64)
    (hpos : 64 * (i + 1) + p < pos_d % 64 + numbits) :
    ((glued words pos_s numbits i >>> (64 - pos_d % 64)) |||
      (glued words pos_s numbits (i + 1) <<< (pos_d % 64))).getLsbD p =
      bitAt words (pos_s + (64 * (i + 1) + p - pos_d % 64)) := by
  rw [BitVec.getLsbD_or, BitVec.getLsbD_ushiftRight, BitVec.getLsbD_shiftLeft, decide_eq_true hp]
  by_cases hlow : p < pos_d % 64
  · rw [getLsbD_glued _ _ _ (by omega) (by omega), decide_eq_true hlow]
    simp only [Bool.not_true, Bool.and_false, Bool.false_and, Bool.or_false]
    congr 1
    omega
  · rw [BitVec.getLsbD_of_ge _ _ (by omega), decide_eq_false hlow,
      getLsbD_glued _ _ _ (by omega) (by omega)]
    simp only [Bool.not_false, Bool.and_true, Bool.true_and, Bool.false_or]
    congr 1
    omega

-- After the chunks below `kd0 + i` are written, those bits are copied and the rest
-- of the destination is untouched.
def CopiedUpTo (dest : List Word) (pos_d : ℕ) (words : List Word) (pos_s numbits : ℕ) (i : ℕ)
    (state : List Word × Word) : Prop :=
  state.1.length = dest.length ∧
  (∀ j, bitAt state.1 j = if pos_d ≤ j ∧ j < 64 * (pos_d / 64 + i)
    then bitAt words (pos_s + (j - pos_d)) else bitAt dest j) ∧
  state.2 = glued words pos_s numbits (i - 1)

-- Reading from the destination itself still finds the original source chunks,
-- since the writes stay behind the reads.
theorem CopiedUpTo.glued_read {i : ℕ} {state : List Word × Word}
    (h : CopiedUpTo dest pos_d (src.read dest) pos_s numbits i state)
    (hself : src = .self → pos_d ≤ pos_s) :
    glued (src.read state.1) pos_s numbits i = glued (src.read dest) pos_s numbits i := by
  cases src with
  | other words => rfl
  | self =>
      have hle := hself rfl
      have hword : ∀ k, pos_d / 64 + i ≤ k → word state.1 k = word dest k := by
        intro k hk
        apply word_eq_of_bitAt
        intro j hj _
        rw [h.2.1, if_neg (by omega)]
      exact glued_congr _ _ (hword _ (by omega)) (hword _ (by omega))

variable (dest) in
-- The first destination chunk: bits outside the target range are kept.
theorem bitAt_set_first {words : List Word} {chunk : Word}
    (hchunk : ∀ p, p < 64 → p < numbits → chunk.getLsbD p = bitAt words (pos_s + p))
    (hnum : 0 < numbits) (hdest : pos_d + numbits ≤ 64 * dest.length) (j : ℕ) :
    bitAt (dest.set (pos_d / 64) ((word dest (pos_d / 64) &&&
        mskD0 (pos_d % 64) ((pos_d + numbits - 1) % 64)
          ((pos_d + numbits - 1) / 64 - pos_d / 64)) |||
        ((chunk <<< (pos_d % 64)) &&&
          ~~~mskD0 (pos_d % 64) ((pos_d + numbits - 1) % 64)
            ((pos_d + numbits - 1) / 64 - pos_d / 64)))) j =
      if pos_d ≤ j ∧ j < 64 * (pos_d / 64 + 1) ∧ j < pos_d + numbits
        then bitAt words (pos_s + (j - pos_d)) else bitAt dest j := by
  rw [bitAt_set _ (by omega)]
  split
  · rename_i hj
    have hp : j % 64 < 64 := Nat.mod_lt j (by omega)
    rw [getLsbD_merge _ _ _ hp, getLsbD_mskD0 _ _ _ hp]
    by_cases hcopy : pos_d ≤ j ∧ j < 64 * (pos_d / 64 + 1) ∧ j < pos_d + numbits
    · rw [if_pos hcopy, decide_eq_false (by omega), if_neg Bool.false_ne_true,
        BitVec.getLsbD_shiftLeft, decide_eq_true hp, decide_eq_false (by omega),
        hchunk _ (by omega) (by omega)]
      simp only [Bool.not_false, Bool.true_and]
      congr 1
      omega
    · rw [if_neg hcopy, decide_eq_true (by omega), if_pos rfl, bitAt, hj]
  · rw [if_neg (by omega)]

theorem copiedUpTo_loop (hself : src = .self → pos_d ≤ pos_s)
    (hdest : pos_d + numbits ≤ 64 * dest.length) {n : ℕ} (hn : 1 ≤ n)
    (hlast : 64 * (pos_d / 64 + n) ≤ pos_d + numbits) {init : List Word × Word}
    (hinit : CopiedUpTo dest pos_d (src.read dest) pos_s numbits 1 init) :
    CopiedUpTo dest pos_d (src.read dest) pos_s numbits n
      (Loop.up 1 n (fun i (state : List Word × Word) =>
        let chunk_s1 := glued (src.read state.1) pos_s numbits i
        let chunk_s := (state.2 >>> (64 - pos_d % 64)) ||| (chunk_s1 <<< (pos_d % 64))
        (state.1.set (pos_d / 64 + i) chunk_s, chunk_s1)) init) := by
  apply Loop.up_invariant (CopiedUpTo dest pos_d (src.read dest) pos_s numbits) hn hinit
  intro i state hi hin hstate
  obtain ⟨hlen, hbits, hprev⟩ := hstate
  have hread := CopiedUpTo.glued_read ⟨hlen, hbits, hprev⟩ hself
  refine ⟨by simpa using hlen, ?_, by simpa using hread⟩
  intro j
  rw [bitAt_set _ (by omega), hread, hprev]
  split
  · rename_i hj
    have h := getLsbD_assembled pos_d pos_s numbits
      (src.read dest) (i := i - 1) (Nat.mod_lt j (show 0 < 64 by omega)) (by omega)
    rw [Nat.sub_add_cancel hi] at h
    rw [h, if_pos (by omega)]
    congr 1
    omega
  · rw [hbits]
    by_cases hj : pos_d ≤ j ∧ j < 64 * (pos_d / 64 + i)
    · rw [if_pos hj, if_pos (by omega)]
    · rw [if_neg hj, if_neg (by omega)]

-- The last destination chunk. No source chunk is left when its bits all come from
-- the chunk glued before.
theorem copied_of_set_last (hself : src = .self → pos_d ≤ pos_s)
    (hdest : pos_d + numbits ≤ 64 * dest.length) {n : ℕ} (hn : 1 ≤ n)
    (hkd : (pos_d + numbits - 1) / 64 = pos_d / 64 + n) {state : List Word × Word}
    (hstate : CopiedUpTo dest pos_d (src.read dest) pos_s numbits n state) :
    Copied dest pos_d (src.read dest) pos_s numbits
      (state.1.set ((pos_d + numbits - 1) / 64)
        ((word state.1 ((pos_d + numbits - 1) / 64) &&& mskD1 ((pos_d + numbits - 1) % 64)) |||
          (((state.2 >>> (64 - pos_d % 64)) |||
            ((if (pos_s + numbits - 1) / 64 ≥ pos_s / 64 + n
              then glued (src.read state.1) pos_s numbits n else 0) <<< (pos_d % 64))) &&&
            ~~~mskD1 ((pos_d + numbits - 1) % 64)))) := by
  obtain ⟨hlen, hbits, hprev⟩ := hstate
  have hread := CopiedUpTo.glued_read ⟨hlen, hbits, hprev⟩ hself
  refine ⟨by simpa using hlen, ?_⟩
  intro j
  rw [bitAt_set _ (by omega), hread, hprev]
  split
  · rename_i hj
    have hp : j % 64 < 64 := Nat.mod_lt j (by omega)
    rw [getLsbD_merge _ _ _ hp, getLsbD_mskD1 _ hp]
    by_cases hin : j < pos_d + numbits
    · rw [decide_eq_false (by omega), if_neg Bool.false_ne_true,
        if_pos (show pos_d ≤ j ∧ j < pos_d + numbits by omega)]
      have h := getLsbD_assembled pos_d pos_s numbits
        (src.read dest) (i := n - 1) hp (by omega)
      rw [Nat.sub_add_cancel hn] at h
      have hpos : pos_s + (64 * n + j % 64 - pos_d % 64) = pos_s + (j - pos_d) := by omega
      rw [hpos] at h
      rw [← h]
      split
      · rfl
      · -- every remaining bit lies below `ld0`
        have hlow : j % 64 < pos_d % 64 := by omega
        simp [hlow]
    · rw [decide_eq_true (by omega), if_pos rfl, if_neg (by omega)]
      have h := hbits j
      rwa [if_neg (by omega), bitAt, hj] at h
  · rw [hbits]
    by_cases hj : pos_d ≤ j ∧ j < 64 * (pos_d / 64 + n)
    · rw [if_pos hj, if_pos (by omega)]
    · rw [if_neg hj, if_neg (by omega)]

theorem copyChunksForward_spec (hself : src = .self → pos_d ≤ pos_s) (hnum : 0 < numbits)
    (hdest : pos_d + numbits ≤ 64 * dest.length) :
    Copied dest pos_d (src.read dest) pos_s numbits
      (copyChunksForward dest pos_d src pos_s numbits) := by
  have hfirst := bitAt_set_first dest (fun p hp hpn => by
    simpa using getLsbD_glued (src.read dest) pos_s numbits (i := 0) hp (by omega)) hnum hdest
  unfold copyChunksForward
  by_cases hone : (pos_d + numbits - 1) / 64 - pos_d / 64 = 0
  · -- the target range lies in one chunk
    simp only [if_pos hone]
    refine ⟨List.length_set .., fun j => (hfirst j).trans ?_⟩
    by_cases hj : pos_d ≤ j ∧ j < pos_d + numbits
    · rw [if_pos hj, if_pos (by omega)]
    · rw [if_neg hj, if_neg (by omega)]
  · simp only [if_neg hone]
    have hinit : CopiedUpTo dest pos_d (src.read dest) pos_s numbits 1
        (_, glued (src.read dest) pos_s numbits 0) :=
      ⟨List.length_set .., fun j => (hfirst j).trans (by
        by_cases hj : pos_d ≤ j ∧ j < 64 * (pos_d / 64 + 1)
        · rw [if_pos hj, if_pos (by omega)]
        · rw [if_neg hj, if_neg (by omega)]), rfl⟩
    have hloop := copiedUpTo_loop hself hdest
      (n := (pos_d + numbits - 1) / 64 - pos_d / 64) (by omega) (by omega) hinit
    exact copied_of_set_last hself hdest (by omega) (by omega) hloop

end Forward

-- One block moves right: it is read before it is written, and no longer than a word.
theorem copyBlockRtol_spec (chunks : List Word) (pd ps s : ℕ) (hs : 0 < s) (hs64 : s ≤ 64)
    (hdest : pd + s ≤ 64 * chunks.length) :
    Copied chunks pd chunks ps s (copyBlockRtol chunks pd ps s) := by
  have hchunk : ∀ p, p < 64 → p < s →
      (glued chunks ps s 0 &&& ~~~(msk64 <<< s)).getLsbD p = bitAt chunks (ps + p) := by
    intro p hp hps
    rw [BitVec.getLsbD_and, getLsbD_not_msk64_shiftLeft _ hp, decide_eq_true hps, Bool.and_true,
      getLsbD_glued _ _ _ hp (by omega)]
    simp
  have hfirst := bitAt_set_first chunks hchunk hs hdest
  unfold copyBlockRtol
  by_cases hone : (pd + s - 1) / 64 - pd / 64 = 0
  · simp only [hone, ne_eq, not_true_eq_false, if_false]
    rw [hone] at hfirst
    refine ⟨List.length_set .., fun j => (hfirst j).trans ?_⟩
    by_cases hj : pd ≤ j ∧ j < pd + s
    · rw [if_pos hj, if_pos (by omega)]
    · rw [if_neg hj, if_neg (by omega)]
  · simp only [ne_eq, hone, not_false_eq_true, if_true]
    refine ⟨by simp, ?_⟩
    intro j
    rw [bitAt_set _ (by rw [List.length_set]; omega)]
    split
    · rename_i hj
      have hp : j % 64 < 64 := Nat.mod_lt j (by omega)
      rw [getLsbD_merge _ _ _ hp, getLsbD_mskD1 _ hp]
      by_cases hin : j < pd + s
      · rw [decide_eq_false (by omega), if_neg Bool.false_ne_true, if_pos (by omega),
          BitVec.getLsbD_ushiftRight]
        refine (hchunk _ (by omega) (by omega)).trans ?_
        congr 1
        omega
      · rw [decide_eq_true (by omega), if_pos rfl, if_neg (by omega), word_set, if_neg (by omega),
          bitAt, hj]
    · refine (hfirst j).trans ?_
      by_cases hj : pd ≤ j ∧ j < 64 * (pd / 64 + 1)
      · rw [if_pos (by omega), if_pos (by omega)]
      · rw [if_neg (by omega), if_neg (by omega)]

theorem copyChunksRtolLoop_spec {dest : List Word} {pos_d pos_s numbits : ℕ} (hlt : pos_s < pos_d)
    (hdest : pos_d + numbits ≤ 64 * dest.length) (left : ℕ) (chunks : List Word)
    (hlen : chunks.length = dest.length) (hleft : left ≤ numbits)
    (hbits : ∀ i, bitAt chunks i = if pos_d + left ≤ i ∧ i < pos_d + numbits
      then bitAt dest (pos_s + (i - pos_d)) else bitAt dest i) :
    Copied dest pos_d dest pos_s numbits (copyChunksRtolLoop chunks pos_d pos_s left) := by
  induction left using Nat.strong_induction_on generalizing chunks with
  | h left ih =>
      unfold copyChunksRtolLoop
      split
      · have hblock := copyBlockRtol_spec chunks (pos_d + (left - min left 64))
          (pos_s + (left - min left 64)) (min left 64) (by omega) (by omega) (by omega)
        apply ih _ (by omega) _ (hblock.length_eq.trans hlen) (by omega)
        intro i
        rw [hblock.bitAt_eq]
        -- the bits the block reads have not been overwritten by the blocks before it
        by_cases hin : pos_d + (left - min left 64) ≤ i ∧
            i < pos_d + (left - min left 64) + min left 64
        · rw [if_pos hin, hbits, if_neg (by omega), if_pos (by omega)]
          congr 1
          omega
        · rw [if_neg hin, hbits]
          by_cases hdone : pos_d + left ≤ i ∧ i < pos_d + numbits
          · rw [if_pos hdone, if_pos (by omega)]
          · rw [if_neg hdone, if_neg (by omega)]
      · have hz : left = 0 := by omega
        subst hz
        exact ⟨hlen, hbits⟩

-- `copy_chunks!` between any two vectors, or within one vector in either direction.
theorem copyChunks_spec (dest : List Word) (pos_d : ℕ) (src : Source) (pos_s numbits : ℕ)
    (hdest : pos_d + numbits ≤ 64 * dest.length) :
    Copied dest pos_d (src.read dest) pos_s numbits (copyChunks dest pos_d src pos_s numbits) := by
  unfold copyChunks
  split
  · rename_i hz
    exact ⟨rfl, fun i => by rw [if_neg (by omega)]⟩
  · rename_i hnum
    cases src with
    | other words => exact copyChunksForward_spec (by simp) (by omega) hdest
    | self =>
        simp only
        split
        · rename_i hlt
          rw [copyChunksRtol, if_neg (by omega), if_neg (by omega)]
          exact copyChunksRtolLoop_spec hlt hdest numbits dest rfl (Nat.le_refl _)
            (fun i => by rw [if_neg (by omega)])
        · exact copyChunksForward_spec (fun _ => by omega) (by omega) hdest

-- A bit-level move: the bits of the destination range are the bits the source range had before, and the others stay.
theorem copy_chunks_moves_bits (dest : List Word) (pos_d : ℕ) (src : Source) (pos_s numbits : ℕ)
    (hdest : pos_d + numbits ≤ 64 * dest.length) (_hsrc : pos_s + numbits ≤ 64 * (src.read dest).length) :
    (copyChunks dest pos_d src pos_s numbits).length = dest.length ∧
      (∀ k < numbits, bitAt (copyChunks dest pos_d src pos_s numbits) (pos_d + k) = bitAt (src.read dest) (pos_s + k)) ∧
      ∀ i, i < pos_d ∨ pos_d + numbits ≤ i → bitAt (copyChunks dest pos_d src pos_s numbits) i = bitAt dest i := by
  have hcopied := copyChunks_spec dest pos_d src pos_s numbits hdest
  refine ⟨hcopied.length_eq, fun k hk => ?_, fun i hi => ?_⟩
  · rw [hcopied.bitAt_eq, if_pos ⟨Nat.le_add_right _ _, by omega⟩, Nat.add_sub_cancel_left]
  · rw [hcopied.bitAt_eq, if_neg (by omega)]

-- Seventy bits of one vector moved up by three positions.
theorem copy_chunks_moves_bits_overlap :
    (copyChunks [5, 9, 0] 3 .self 0 70).length = 3 ∧
      (∀ k < 70, bitAt (copyChunks [5, 9, 0] 3 .self 0 70) (3 + k) = bitAt [5, 9, 0] (0 + k)) ∧
      ∀ i, i < 3 ∨ 3 + 70 ≤ i → bitAt (copyChunks [5, 9, 0] 3 .self 0 70) i = bitAt [5, 9, 0] i :=
  copy_chunks_moves_bits [5, 9, 0] 3 .self 0 70 (by decide) (by decide)

end Joolia.BitArray
