import Joolia.Base.BitArray
import Joolia.Base.BitArray.CopyChunks
import Mathlib.Data.List.GetD

namespace Joolia.BitArray

open Words

-- What the primitive chunk operations do to the sequence of bits.

theorem getLsbD_shl_or (w v : Word) {p : ℕ} (hp : p < 64) :
    ((w <<< 1) ||| (v >>> 63)).getLsbD p = if p = 0 then v.getLsbD 63 else w.getLsbD (p - 1) := by
  rw [BitVec.getLsbD_or, BitVec.getLsbD_shiftLeft, BitVec.getLsbD_ushiftRight, decide_eq_true hp]
  split
  · subst p
    simp
  · rw [BitVec.getLsbD_of_ge v _ (by omega), decide_eq_false (by omega)]
    simp

theorem getLsbD_shr_or (w v : Word) {p : ℕ} (hp : p < 64) :
    ((w >>> 1) ||| (v <<< 63)).getLsbD p = if p = 63 then v.getLsbD 0 else w.getLsbD (p + 1) := by
  rw [BitVec.getLsbD_or, BitVec.getLsbD_shiftLeft, BitVec.getLsbD_ushiftRight, decide_eq_true hp,
    Nat.add_comm 1]
  split
  · subst p
    simp
  · rw [decide_eq_true (by omega)]
    simp

-- The single-bit mask `UInt64(1) << p`.
theorem getLsbD_one_shiftLeft (q : ℕ) {p : ℕ} (hp : p < 64) :
    ((1 : Word) <<< q).getLsbD p = decide (p = q) := by
  rw [BitVec.getLsbD_shiftLeft, decide_eq_true hp, Bool.true_and, BitVec.ofNat_eq_ofNat,
    BitVec.getLsbD_one]
  by_cases h : p < q
  · simp [h, show p ≠ q by omega]
  · simp only [h, decide_false, Bool.not_false, Bool.true_and]
    rw [← Bool.decide_and, decide_eq_decide]
    omega

theorem unsafeBitgetindex_eq (bc : List Word) (i : ℕ) :
    unsafeBitgetindex bc i = bitAt bc i := by
  have hp : i % 64 < 64 := Nat.mod_lt i (by omega)
  have hbit : ∀ p, p < 64 → (word bc (i / 64) &&& ((1 : Word) <<< (i % 64))).getLsbD p =
      (bitAt bc i && decide (p = i % 64)) := by
    intro p hp
    rw [BitVec.getLsbD_and, getLsbD_one_shiftLeft _ hp]
    by_cases h : p = i % 64
    · subst h
      rfl
    · simp [h]
  unfold unsafeBitgetindex
  cases hb : bitAt bc i with
  | true =>
      rw [bne_iff_ne]
      intro hz
      have h := hbit _ hp
      rw [hz, hb] at h
      simp at h
  | false =>
      rw [bne_eq_false_iff_eq]
      apply BitVec.eq_of_getLsbD_eq
      intro p hp
      rw [hbit p hp, hb]
      simp

theorem bitAt_setindex (bc : List Word) (x : Bool) {i : ℕ} (hi : i < 64 * bc.length) (j : ℕ) :
    bitAt (setindex bc x i) j = if j = i then x else bitAt bc j := by
  have hp : j % 64 < 64 := Nat.mod_lt j (by omega)
  rw [setindex, unsafeBitsetindex, bitAt_set _ (by omega)]
  split
  · rename_i hk
    have hone := getLsbD_one_shiftLeft (i % 64) hp
    by_cases hj : j = i
    · subst hj
      cases x <;> simp only [if_true, Bool.false_eq_true, if_false, BitVec.getLsbD_or,
        BitVec.getLsbD_and, BitVec.getLsbD_not, hone] <;> simp
    · have hne : ¬j % 64 = i % 64 := by omega
      rw [if_neg hj, bitAt, hk]
      cases x <;> simp only [if_true, Bool.false_eq_true, if_false, BitVec.getLsbD_or,
        BitVec.getLsbD_and, BitVec.getLsbD_not, hone, hne, decide_false, hp, decide_true] <;> simp
  · rename_i hk
    rw [if_neg (by rintro rfl; exact hk rfl)]

@[simp] theorem length_setindex (bc : List Word) (x : Bool) (i : ℕ) :
    (setindex bc x i).length = bc.length := by
  simp [setindex, unsafeBitsetindex]

@[simp] theorem length_growend (mem : ℕ → Word) (a : List Word) (n : ℕ) :
    (growend mem a n).length = a.length + n := by
  simp [growend]

theorem bitAt_growend (mem : ℕ → Word) (a : List Word) (n : ℕ) {i : ℕ} (hi : i < 64 * a.length) :
    bitAt (growend mem a n) i = bitAt a i := by
  rw [bitAt, growend, word_append, if_pos (by omega), bitAt]

@[simp] theorem length_setLast (a : List Word) (w : Word) : (setLast a w).length = a.length := by
  simp [setLast]

theorem bitAt_setLast {a : List Word} (ha : a ≠ []) (w : Word) (i : ℕ) :
    bitAt (setLast a w) i =
      if i / 64 = a.length - 1 then w.getLsbD (i % 64) else bitAt a i := by
  have := List.length_pos_of_ne_nil ha
  rw [setLast, bitAt_set _ (by omega)]

@[simp] theorem length_deleteend (a : List Word) (n : ℕ) :
    (deleteend a n).length = a.length - n := by
  simp [deleteend]

theorem bitAt_deleteend (a : List Word) (n i : ℕ) :
    bitAt (deleteend a n) i = if i < 64 * (a.length - n) then bitAt a i else false := by
  rw [bitAt, deleteend, word_take]
  split
  · rw [if_pos (by omega), bitAt]
  · rw [if_neg (by omega)]
    simp

theorem getLsbD_mskEnd (n : ℕ) {p : ℕ} (hp : p < 64) :
    (mskEnd n).getLsbD p = decide (n % 64 = 0 ∨ p < n % 64) := by
  rw [mskEnd, BitVec.getLsbD_ushiftRight, msk64, BitVec.getLsbD_not, BitVec.ofNat_eq_ofNat,
    BitVec.getLsbD_zero, Bool.not_false, Bool.and_true, decide_eq_decide]
  omega

-- One left shift of all chunks from `lo` on: each chunk takes the top bit of the
-- chunk below, which the descending loop has not changed yet.
theorem bitAt_shiftUp (bc : List Word) (lo : ℕ) (hlo : 1 ≤ lo) (hle : lo ≤ bc.length) :
    (shiftUp lo bc).length = bc.length ∧ ∀ i, i < 64 * bc.length →
      bitAt (shiftUp lo bc) i = if 64 * lo ≤ i then bitAt bc (i - 1) else bitAt bc i := by
  apply Loop.down_invariant (fun t (cur : List Word) => cur.length = bc.length ∧
    ∀ i, i < 64 * bc.length → bitAt cur i = if 64 * t ≤ i then bitAt bc (i - 1) else bitAt bc i) hle
  · refine ⟨rfl, fun i hi => by rw [if_neg (by omega)]⟩
  · intro t cur ht htl hcur
    obtain ⟨hlen, hbits⟩ := hcur
    refine ⟨by simpa using hlen, fun i hi => ?_⟩
    rw [bitAt_set _ (by omega)]
    split
    · rename_i hk
      have hp : i % 64 < 64 := Nat.mod_lt i (by omega)
      rw [getLsbD_shl_or _ _ hp, if_pos (show 64 * t ≤ i by omega)]
      split
      · rw [← bitAt_word _ _ (by omega), hbits _ (by omega), if_neg (by omega)]
        congr 1
        omega
      · rw [← bitAt_word _ _ (by omega), hbits _ (by omega), if_neg (by omega)]
        congr 1
        omega
    · rw [hbits i hi]
      by_cases h : 64 * (t + 1) ≤ i
      · rw [if_pos h, if_pos (by omega)]
      · rw [if_neg h, if_neg (by omega)]

-- One right shift of the chunks from `lo` up to the last but one.
theorem bitAt_shiftDown (bc : List Word) (lo : ℕ) (hle : lo < bc.length) :
    (shiftDown lo bc).length = bc.length ∧ ∀ i, bitAt (shiftDown lo bc) i =
      if 64 * lo ≤ i ∧ i < 64 * (bc.length - 1) then bitAt bc (i + 1) else bitAt bc i := by
  apply Loop.up_invariant (fun t (cur : List Word) => cur.length = bc.length ∧
    ∀ i, bitAt cur i = if 64 * lo ≤ i ∧ i < 64 * t then bitAt bc (i + 1) else bitAt bc i)
    (show lo ≤ bc.length - 1 by omega)
  · refine ⟨rfl, fun i => by rw [if_neg (by omega)]⟩
  · intro t cur ht hth hcur
    obtain ⟨hlen, hbits⟩ := hcur
    refine ⟨by simpa using hlen, fun i => ?_⟩
    rw [bitAt_set _ (by omega)]
    split
    · rename_i hk
      have hp : i % 64 < 64 := Nat.mod_lt i (by omega)
      rw [getLsbD_shr_or _ _ hp, if_pos (show 64 * lo ≤ i ∧ i < 64 * (t + 1) by omega)]
      split
      · rw [← bitAt_word _ _ (by omega), hbits, if_neg (by omega)]
        congr 1
        omega
      · rw [← bitAt_word _ _ (by omega), hbits, if_neg (by omega)]
        congr 1
        omega
    · rw [hbits]
      by_cases h : 64 * lo ≤ i ∧ i < 64 * t
      · rw [if_pos h, if_pos (by omega)]
      · rw [if_neg h, if_neg (by omega)]

end Joolia.BitArray
