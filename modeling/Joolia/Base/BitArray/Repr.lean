import Joolia.Base.BitArray.Bits

namespace Joolia.BitArray

open Words

-- `B` stores the list `l`: the chunk count fits the length, and every bit, also past
-- the end, is the list's.
structure Represents (B : BitVector) (l : List Bool) : Prop where
  length_chunks : B.chunks.length = numBitChunks B.len
  len_eq : B.len = l.length
  bitAt_eq : ∀ i, bitAt B.chunks i = l.getD i false

-- The chunks hold no set bit past the end.
structure WellFormed (B : BitVector) : Prop where
  length_chunks : B.chunks.length = numBitChunks B.len
  past_end : ∀ i, B.len ≤ i → bitAt B.chunks i = false

def BitVector.toList (B : BitVector) : List Bool := (List.range B.len).map (bitAt B.chunks)

theorem getD_map_range (f : ℕ → Bool) (n i : ℕ) :
    ((List.range n).map f).getD i false = if i < n then f i else false := by
  simp only [List.getD, List.getElem?_map]
  by_cases h : i < n <;> simp [h]

theorem WellFormed.repr {B : BitVector} (h : WellFormed B) : Represents B B.toList := by
  refine ⟨h.length_chunks, by simp [BitVector.toList], fun i => ?_⟩
  rw [BitVector.toList, getD_map_range]
  split
  · rfl
  · exact h.past_end i (by omega)

theorem Represents.wellFormed {B : BitVector} {l : List Bool} (h : Represents B l) : WellFormed B := by
  refine ⟨h.length_chunks, fun i hi => ?_⟩
  rw [h.bitAt_eq, List.getD_eq_default _ _ (by rw [← h.len_eq]; exact hi)]

theorem Represents.toList_eq {B : BitVector} {l : List Bool} (h : Represents B l) : B.toList = l := by
  apply List.ext_getElem
  · simp [BitVector.toList, h.len_eq]
  · intro i hi hl
    have hb := h.bitAt_eq i
    rw [List.getD_eq_getElem _ _ hl] at hb
    simpa [BitVector.toList] using hb

-- One chunk without bits past the end.
theorem wellFormed_chunk {w : Word} {n : ℕ} (hn : 0 < n ∧ n ≤ 64) (hw : ∀ p < 64, n ≤ p → w.getLsbD p = false) :
    WellFormed ⟨[w], n⟩ := by
  refine ⟨?_, fun i hi => ?_⟩
  · simp only [List.length_singleton, numBitChunks]
    split <;> omega
  · by_cases hlast : i < 64
    · have hbit := bitAt_word [w] 0 hlast
      rw [Nat.mul_zero, Nat.zero_add] at hbit
      rw [hbit]
      exact hw i hlast hi
    · exact bitAt_of_length_le (by simp; omega)

theorem new_repr : Represents BitVector.new [] := by
  refine ⟨rfl, rfl, fun i => ?_⟩
  rw [bitAt_of_length_le (by simp [BitVector.new])]
  rfl

theorem numBitChunks_le (n : ℕ) : n ≤ 64 * numBitChunks n := by
  unfold numBitChunks
  split <;> omega

theorem numBitChunks_pred_le (n : ℕ) : 64 * (numBitChunks n - 1) ≤ n := by
  unfold numBitChunks
  split <;> omega

theorem numBitChunks_mono {m n : ℕ} (h : m ≤ n) : numBitChunks m ≤ numBitChunks n := by
  unfold numBitChunks
  split <;> split <;> omega

theorem numBitChunks_succ (n : ℕ) :
    numBitChunks (n + 1) = if n % 64 = 0 then numBitChunks n + 1 else numBitChunks n := by
  unfold numBitChunks
  split <;> split <;> omega

section GetD

variable (l m : List Bool) (i : ℕ)

theorem getD_append_ite :
    (l ++ m).getD i false = if i < l.length then l.getD i false else m.getD (i - l.length) false := by
  split
  · rw [List.getD_append _ _ _ _ (by assumption)]
  · rw [List.getD_append_right _ _ _ _ (by omega)]

theorem getD_take (n : ℕ) : (l.take n).getD i false = if i < n then l.getD i false else false := by
  simp only [List.getD, List.getElem?_take]
  split <;> rfl

theorem getD_drop (n : ℕ) : (l.drop n).getD i false = l.getD (n + i) false := by
  simp [List.getD]

theorem getD_insertIdx {n : ℕ} (hn : n ≤ l.length) (x : Bool) : (l.insertIdx n x).getD i false =
    if i < n then l.getD i false else if i = n then x else l.getD (i - 1) false := by
  simp only [List.getD, List.getElem?_insertIdx]
  split
  · rfl
  · split
    · rw [if_pos (by omega)]
      rfl
    · rfl

theorem getD_eraseIdx (n : ℕ) : (l.eraseIdx n).getD i false =
    if i < n then l.getD i false else l.getD (i + 1) false := by
  simp only [List.getD, List.getElem?_eraseIdx]
  split <;> rfl

end GetD

section Grow

variable {B : BitVector} {l : List Bool} (mem : ℕ → Word)

-- The added chunk is cleared, so no bit changes.
theorem growForOne_spec (h : Represents B l) :
    (growForOne mem B).length = numBitChunks (B.len + 1) ∧
      ∀ i, bitAt (growForOne mem B) i = l.getD i false := by
  rw [numBitChunks_succ, growForOne]
  split
  · refine ⟨by simp [h.length_chunks], fun i => ?_⟩
    rw [bitAt_setLast (by simp [growend])]
    simp only [length_growend, Nat.add_sub_cancel]
    split
    · rename_i hi
      rw [← h.bitAt_eq, bitAt_of_length_le (by omega)]
      simp
    · by_cases hi : i < 64 * B.chunks.length
      · rw [bitAt_growend _ _ _ hi, h.bitAt_eq]
      · rw [← h.bitAt_eq, bitAt_of_length_le (a := B.chunks) (by omega),
          bitAt_of_length_le (by rw [length_growend]; omega)]
  · exact ⟨h.length_chunks, h.bitAt_eq⟩

-- Only the last added chunk is cleared: the bits below the old length are kept and
-- those past the new one are zero.
theorem growTo_spec (h : Represents B l) {n : ℕ} (hn : B.len ≤ n) :
    (growTo mem B n).length = numBitChunks n ∧
      (∀ i, i < B.len → bitAt (growTo mem B n) i = l.getD i false) ∧
      ∀ i, n ≤ i → bitAt (growTo mem B n) i = false := by
  have hmono := numBitChunks_mono hn
  have hlen := h.length_chunks
  have hcap := numBitChunks_le B.len
  have hcapn := numBitChunks_le n
  simp only [growTo]
  split
  · have hne : growend mem B.chunks (numBitChunks n - B.chunks.length) ≠ [] := by
      intro he
      have := congrArg List.length he
      simp at this
      omega
    have hlast : (growend mem B.chunks (numBitChunks n - B.chunks.length)).length =
        numBitChunks n := by
      rw [length_growend]
      omega
    refine ⟨by rw [length_setLast, hlast], fun i hi => ?_, fun i hi => ?_⟩
    · have hbelow : ¬i / 64 = numBitChunks n - 1 := by omega
      have hold : i < 64 * B.chunks.length := by omega
      rw [bitAt_setLast hne, hlast, if_neg hbelow, bitAt_growend _ _ _ hold, h.bitAt_eq]
    · have hlt := numBitChunks_pred_le n
      rw [bitAt_setLast hne, hlast]
      split
      · simp
      · exact bitAt_of_length_le (by omega)
  · refine ⟨by omega, fun i _ => h.bitAt_eq i, fun i hi => ?_⟩
    exact h.wellFormed.past_end i (by omega)

-- `trim` cuts to the new length and clears the rest of the last chunk.
theorem trim_spec (bc : List Word) (k new_l : ℕ) (hlen : bc.length = max k (numBitChunks new_l)) :
    (trim bc (numBitChunks new_l - k) new_l).chunks.length = numBitChunks new_l ∧
      ∀ i, bitAt (trim bc (numBitChunks new_l - k) new_l).chunks i =
        if i < new_l then bitAt bc i else false := by
  let cut := if (numBitChunks new_l - k : ℤ) < 0
    then deleteend bc (-(numBitChunks new_l - k : ℤ)).toNat else bc
  have hcut : cut.length = numBitChunks new_l ∧
      ∀ i, i < 64 * numBitChunks new_l → bitAt cut i = bitAt bc i := by
    simp only [cut]
    split
    · refine ⟨by rw [length_deleteend]; omega, fun i hi => ?_⟩
      rw [bitAt_deleteend, if_pos (by omega)]
    · exact ⟨by omega, fun i _ => rfl⟩
  obtain ⟨hcutlen, hcutbits⟩ := hcut
  have htrim : trim bc (numBitChunks new_l - k) new_l =
      ⟨if new_l > 0 then setLast cut (word cut (cut.length - 1) &&& mskEnd new_l) else cut, new_l⟩ :=
    rfl
  have hcap := numBitChunks_le new_l
  rw [htrim]
  split
  · rename_i hpos
    have hlt := numBitChunks_pred_le new_l
    refine ⟨by rw [length_setLast, hcutlen], fun i => ?_⟩
    rw [bitAt_setLast (List.ne_nil_of_length_pos (by omega)), hcutlen]
    split
    · rename_i hi
      rw [BitVec.getLsbD_and, getLsbD_mskEnd _ (Nat.mod_lt i (by omega)), ← hi]
      change (bitAt cut i && _) = _
      rw [hcutbits _ (by omega)]
      by_cases hin : i < new_l
      · rw [if_pos hin, decide_eq_true (by omega), Bool.and_true]
      · have hout : ¬(new_l % 64 = 0 ∨ i % 64 < new_l % 64) := by
          unfold numBitChunks at hi
          split at hi <;> omega
        rw [if_neg hin, decide_eq_false hout, Bool.and_false]
    · by_cases hin : i < new_l
      · rw [if_pos hin, hcutbits _ (by omega)]
      · rw [if_neg hin, bitAt_of_length_le (by omega)]
  · refine ⟨hcutlen, fun i => ?_⟩
    have hz : numBitChunks new_l = 0 := by
      rw [show new_l = 0 by omega]
      rfl
    rw [if_neg (by omega)]
    exact bitAt_of_length_le (a := cut) (by omega)

end Grow

end Joolia.BitArray
