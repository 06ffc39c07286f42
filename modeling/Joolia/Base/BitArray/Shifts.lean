import Joolia.Base.BitArray.Repr

namespace Joolia.BitArray

open Words

section Operations

variable {B : BitVector} {l : List Bool} (h : Represents B l) (mem : ℕ → Word)
include h

theorem push_repr (item : Bool) : Represents (push mem B item) (l ++ [item]) := by
  obtain ⟨hlen, hbits⟩ := growForOne_spec mem h
  have hcap := numBitChunks_le (B.len + 1)
  refine ⟨?_, by simp [push, h.len_eq], fun i => ?_⟩
  · cases item <;> simp [push, hlen]
  · rw [getD_append_ite, ← h.len_eq]
    cases item with
    | false =>
        refine (hbits i).trans ?_
        split
        · rfl
        · rw [List.getD_eq_default _ _ (by rw [← h.len_eq]; omega)]
          cases i - B.len <;> simp
    | true =>
        simp only [push, if_true, Nat.add_sub_cancel]
        rw [bitAt_setindex _ _ (by omega), hbits]
        by_cases hi : i = B.len
        · simp [hi]
        · rw [if_neg hi]
          split
          · rfl
          · rw [List.getD_eq_default _ _ (by rw [← h.len_eq]; omega),
              List.getD_eq_default _ _ (by simp; omega)]

theorem pop_repr (hne : l ≠ []) : ∃ B', pop B = .ok (B', l.getD (l.length - 1) false) ∧
    Represents B' l.dropLast := by
  have hpos := List.length_pos_of_ne_nil hne
  have hlen := h.len_eq
  have hcap := numBitChunks_le B.len
  have hchunks := h.length_chunks
  have hsucc := numBitChunks_succ (B.len - 1)
  rw [show B.len - 1 + 1 = B.len by omega] at hsucc
  refine ⟨_, by rw [pop, if_neg (by omega), unsafeBitgetindex_eq, h.bitAt_eq, hlen], ?_⟩
  have hbits : ∀ i, bitAt (setindex B.chunks false (B.len - 1)) i =
      if i < B.len - 1 then l.getD i false else false := by
    intro i
    rw [bitAt_setindex _ _ (by omega), h.bitAt_eq]
    by_cases hi : i = B.len - 1
    · rw [if_pos hi, if_neg (by omega)]
    · rw [if_neg hi]
      split
      · rfl
      · exact List.getD_eq_default _ _ (by omega)
  rw [List.dropLast_eq_take]
  refine ⟨?_, by simp, fun i => ?_⟩
  · simp only
    split
    · rw [length_deleteend, length_setindex, hchunks, hsucc, if_pos (by omega), hlen]
      rfl
    · rw [length_setindex, hchunks, hsucc, if_neg (by omega), hlen]
  · rw [getD_take, ← hlen]
    simp only
    split
    · have hcap' := numBitChunks_le (B.len - 1)
      rw [if_pos (by omega)] at hsucc
      rw [bitAt_deleteend, hbits, length_setindex]
      by_cases hi : i < B.len - 1
      · rw [if_pos hi, if_pos (by omega)]
      · rw [if_neg hi]
        split <;> rfl
    · exact hbits i

theorem pushfirst_repr (item : Bool) : Represents (pushfirst mem B item) (item :: l) := by
  obtain ⟨hlen, hbits⟩ := growForOne_spec mem h
  have hcap := numBitChunks_le (B.len + 1)
  have hitem : ∀ p, p < 64 → (if item then (1 : Word) else 0).getLsbD p = (decide (p = 0) && item) := by
    intro p hp
    cases item
    · simp
    · simp
  have hcons : ∀ i, (item :: l).getD i false = if i = 0 then item else l.getD (i - 1) false := by
    intro i
    cases i <;> simp
  have hlenl := h.len_eq
  by_cases hz : B.len = 0
  · -- the first element of all
    have hdef : pushfirst mem B item =
        ⟨(growForOne mem B).set 0 (if item then 1 else 0), B.len + 1⟩ := by
      simp only [pushfirst, hz, if_true]
    have hone : numBitChunks (B.len + 1) = 1 := by rw [hz]; rfl
    rw [hdef]
    refine ⟨by simp [hlen], by simp [hlenl], fun i => ?_⟩
    rw [hcons, bitAt_set _ (by omega), hbits]
    split
    · rw [hitem _ (Nat.mod_lt i (by omega))]
      by_cases hi : i = 0
      · simp [hi]
      · rw [if_neg hi, List.getD_eq_default _ _ (by omega), decide_eq_false (by omega)]
        rfl
    · rw [List.getD_eq_default _ _ (by omega), if_neg (by omega),
        List.getD_eq_default _ _ (by omega)]
  · obtain ⟨hshlen, hshbits⟩ := bitAt_shiftUp (growForOne mem B) 1 (by omega) (by omega)
    have hdef : pushfirst mem B item = ⟨(shiftUp 1 (growForOne mem B)).set 0
        ((if item then 1 else 0 : Word) ||| (word (shiftUp 1 (growForOne mem B)) 0 <<< 1)),
        B.len + 1⟩ := by
      simp only [pushfirst, Nat.add_eq_right, hz, if_false]
    rw [hdef]
    refine ⟨by rw [List.length_set, hshlen, hlen], by simp [hlenl], fun i => ?_⟩
    rw [hcons, bitAt_set _ (by omega)]
    split
    · rename_i hk
      have hp : i % 64 < 64 := Nat.mod_lt i (by omega)
      rw [BitVec.getLsbD_or, hitem _ hp, BitVec.getLsbD_shiftLeft, decide_eq_true hp]
      by_cases hi : i = 0
      · simp [hi]
      · rw [if_neg hi, decide_eq_false (by omega), decide_eq_false (by omega),
          ← bitAt_word _ 0 (by omega), hshbits _ (by omega), if_neg (by omega), hbits]
        simp only [Bool.false_and, Bool.not_false, Bool.true_and, Bool.false_or]
        congr 1
        omega
    · rw [if_neg (by omega)]
      by_cases hi : i < 64 * (growForOne mem B).length
      · rw [hshbits _ hi, if_pos (by omega), hbits]
      · rw [bitAt_of_length_le (by omega), List.getD_eq_default _ _ (by omega)]

-- The last step of `popfirst!` and `_deleteat!`: all chunks but the last are shifted
-- down by one bit from `start` on, and the last one is shifted or dropped.
theorem shiftLast_repr {cur : List Word} {start : ℕ} (hlen : cur.length = B.chunks.length)
    (hpos : 0 < B.len) (hstart : start ≤ 64 * (cur.length - 1))
    (hbits : ∀ i, bitAt cur i = if i < start then l.getD i false
      else if i < 64 * (cur.length - 1) then l.getD (i + 1) false else l.getD i false) :
    Represents ⟨if B.len % 64 = 1 then deleteend cur 1
      else setLast cur (word cur (cur.length - 1) >>> 1), B.len - 1⟩ (l.eraseIdx start) := by
  have hlenl := h.len_eq
  have hchunks := h.length_chunks
  have hcap := numBitChunks_le B.len
  have hpred := numBitChunks_pred_le B.len
  have hsucc := numBitChunks_succ (B.len - 1)
  rw [show B.len - 1 + 1 = B.len by omega] at hsucc
  have hin : start < l.length := by
    unfold numBitChunks at hchunks
    split at hchunks <;> omega
  refine ⟨?_, by simp [List.length_eraseIdx, hin, hlenl], fun i => ?_⟩
  · simp only
    split
    · rw [length_deleteend, hlen, hchunks, hsucc, if_pos (by omega)]
      rfl
    · rw [length_setLast, hlen, hchunks, hsucc, if_neg (by omega)]
  · rw [getD_eraseIdx]
    simp only
    split
    · -- the last chunk held a single bit, which moved into the chunk before
      have hcap' := numBitChunks_le (B.len - 1)
      rw [if_pos (by omega)] at hsucc
      rw [bitAt_deleteend, hbits]
      by_cases hi : i < 64 * (cur.length - 1)
      · rw [if_pos hi, if_pos hi]
      · rw [if_neg hi, if_neg (by omega), List.getD_eq_default _ _ (by omega)]
    · rw [bitAt_setLast (List.ne_nil_of_length_pos (by omega))]
      split
      · rename_i hk
        rw [BitVec.getLsbD_ushiftRight, if_neg (by omega)]
        by_cases hp : 1 + i % 64 < 64
        · rw [← bitAt_word _ _ hp, hbits, if_neg (by omega), if_neg (by omega)]
          congr 1
          omega
        · rw [BitVec.getLsbD_of_ge _ _ (by omega), List.getD_eq_default _ _ (by omega)]
      · rw [hbits]
        by_cases hi : i < start
        · rw [if_pos hi, if_pos hi]
        · rw [if_neg hi, if_neg hi]
          split
          · rfl
          · rw [List.getD_eq_default _ _ (by omega), List.getD_eq_default _ _ (by omega)]

theorem popfirst_repr (hne : l ≠ []) : ∃ B', popfirst B = .ok (B', l.getD 0 false) ∧
    Represents B' l.tail := by
  have hpos := List.length_pos_of_ne_nil hne
  have hlen := h.len_eq
  have hchunks := h.length_chunks
  have hcap := numBitChunks_le B.len
  obtain ⟨hshlen, hshbits⟩ := bitAt_shiftDown B.chunks 0 (by omega)
  refine ⟨_, by rw [popfirst, if_neg (by omega), unsafeBitgetindex_eq, h.bitAt_eq], ?_⟩
  rw [← List.eraseIdx_zero]
  apply shiftLast_repr h hshlen (by omega) (by omega)
  intro i
  rw [hshbits, hshlen, if_neg (show ¬i < 0 by omega), h.bitAt_eq, h.bitAt_eq]
  by_cases hi : i < 64 * (B.chunks.length - 1)
  · rw [if_pos (by omega), if_pos hi]
  · rw [if_neg (by omega), if_neg hi]

theorem insert_repr {i : ℤ} (hi : 0 ≤ i ∧ i ≤ l.length) (item : Bool) :
    ∃ B', insert mem B i item = .ok B' ∧ Represents B' (l.insertIdx i.toNat item) := by
  obtain ⟨n, rfl⟩ := Int.eq_ofNat_of_zero_le hi.1
  have hn : n ≤ l.length := by omega
  obtain ⟨hlen, hbits⟩ := growForOne_spec mem h
  have hcap := numBitChunks_le (B.len + 1)
  have hlenl := h.len_eq
  obtain ⟨hshlen, hshbits⟩ := bitAt_shiftUp (growForOne mem B) (n / 64 + 1) (by omega) (by omega)
  have hok : ¬¬((0 : ℤ) ≤ n ∧ (n : ℤ) ≤ B.len) := by omega
  refine ⟨_, by rw [insert, if_neg hok], ?_⟩
  simp only [Int.toNat_natCast]
  -- chunk `k` opens a gap at the insertion point
  have hgap : ∀ w : Word, ∀ p, p < 64 →
      ((~~~(msk64 <<< (n % 64)) &&& w) ||| ((msk64 <<< (n % 64) &&& w) <<< 1)).getLsbD p =
        if p < n % 64 then w.getLsbD p else if p = n % 64 then false else w.getLsbD (p - 1) := by
    intro w p hp
    rw [BitVec.getLsbD_or, BitVec.getLsbD_and, BitVec.getLsbD_shiftLeft, BitVec.getLsbD_and,
      getLsbD_not_msk64_shiftLeft _ hp, getLsbD_msk64_shiftLeft _ (by omega), decide_eq_true hp]
    by_cases h1 : p < n % 64
    · rw [if_pos h1, decide_eq_true h1, decide_eq_false (show ¬n % 64 ≤ p - 1 by omega)]
      simp
    · rw [if_neg h1, decide_eq_false h1]
      by_cases h2 : p = n % 64
      · rw [if_pos h2]
        by_cases h3 : p < 1
        · simp [h3]
        · rw [decide_eq_false (show ¬n % 64 ≤ p - 1 by omega)]
          simp
      · rw [if_neg h2, decide_eq_true (show n % 64 ≤ p - 1 by omega),
          decide_eq_false (show ¬p < 1 by omega)]
        simp
  refine ⟨by rw [length_setindex, List.length_set, hshlen, hlen],
    by simp [hlenl, List.length_insertIdx, hn], fun x => ?_⟩
  rw [bitAt_setindex _ _ (by rw [List.length_set]; omega), getD_insertIdx _ _ hn]
  by_cases hx : x = n
  · rw [if_pos hx, if_neg (by omega), if_pos hx]
  · rw [if_neg hx, if_neg hx, bitAt_set _ (by omega)]
    split
    · rename_i hk
      rw [hgap _ _ (Nat.mod_lt x (by omega))]
      by_cases hlt : x < n
      · rw [if_pos hlt, if_pos (by omega), ← bitAt_word _ _ (Nat.mod_lt x (by omega)),
          show 64 * (n / 64) + x % 64 = x by omega, hshbits _ (by omega), if_neg (by omega), hbits]
      · rw [if_neg hlt, if_neg (by omega), if_neg (by omega), ← bitAt_word _ _ (by omega),
          hshbits _ (by omega), if_neg (by omega), hbits]
        congr 1
        omega
    · by_cases hb : x < 64 * (growForOne mem B).length
      · rw [hshbits _ hb, hbits, hbits]
        by_cases hlt : x < n
        · rw [if_pos hlt, if_neg (by omega)]
        · rw [if_neg hlt, if_pos (by omega)]
      · rw [bitAt_of_length_le (by omega), if_neg (by omega), List.getD_eq_default _ _ (by omega)]

omit h in
theorem getLsbD_closeGap (w : Word) {j p : ℕ} (hj : j < 64) (hp : p < 64) :
    ((msk64 >>> (63 - j) >>> 1 &&& w) ||| ((~~~(msk64 >>> (63 - j)) &&& w) >>> 1)).getLsbD p =
      if p < j then w.getLsbD p else w.getLsbD (p + 1) := by
  have hmsk : ∀ q, (msk64 >>> (63 - j)).getLsbD q = decide (q ≤ j) := by
    intro q
    rw [BitVec.getLsbD_ushiftRight, msk64, BitVec.getLsbD_not, BitVec.ofNat_eq_ofNat,
      BitVec.getLsbD_zero, Bool.not_false, Bool.and_true, decide_eq_decide]
    omega
  have hbef : (msk64 >>> (63 - j) >>> 1).getLsbD p = decide (p + 1 ≤ j) := by
    rw [BitVec.getLsbD_ushiftRight, hmsk, Nat.add_comm]
  rw [BitVec.getLsbD_or, BitVec.getLsbD_and, hbef, BitVec.getLsbD_ushiftRight _ 1,
    BitVec.getLsbD_and, BitVec.getLsbD_not, hmsk, Nat.add_comm 1]
  by_cases hlt : p < j
  · rw [if_pos hlt, decide_eq_true (show p + 1 ≤ j by omega)]
    simp
  · rw [if_neg hlt, decide_eq_false (show ¬p + 1 ≤ j by omega)]
    by_cases htop : p + 1 < 64
    · simp [htop]
    · rw [BitVec.getLsbD_of_ge w (p + 1) (by omega)]
      simp

theorem deleteatInt_repr {i : ℕ} (hi : i < l.length) : Represents (deleteatInt B i) (l.eraseIdx i) := by
  have hlenl := h.len_eq
  have hchunks := h.length_chunks
  have hcap := numBitChunks_le B.len
  have hpred := numBitChunks_pred_le B.len
  -- chunk `k` closes the gap and takes the lowest bit of the next chunk
  let first := B.chunks.set (i / 64) ((msk64 >>> (63 - i % 64) >>> 1 &&& word B.chunks (i / 64)) |||
    ((~~~(msk64 >>> (63 - i % 64)) &&& word B.chunks (i / 64)) >>> 1))
  let second := if i / 64 + 1 < first.length
    then first.set (i / 64) (word first (i / 64) ||| (word first (i / 64 + 1) <<< 63)) else first
  have hsecond : second.length = B.chunks.length ∧ ∀ x, bitAt second x =
      if x / 64 = i / 64 ∧ i ≤ x then l.getD (x + 1) false else l.getD x false := by
    have hgap : ∀ x, bitAt first x = if x / 64 = i / 64
        then (if x % 64 < i % 64 then l.getD x false
          else (word B.chunks (i / 64)).getLsbD (x % 64 + 1)) else l.getD x false := by
      intro x
      have hp : x % 64 < 64 := Nat.mod_lt x (by omega)
      rw [bitAt_set _ (by omega), getLsbD_closeGap _ (Nat.mod_lt i (by omega)) hp, ← h.bitAt_eq x]
      split
      · rename_i hk
        rw [bitAt, hk]
      · rfl
    have hnext : ∀ x, x / 64 = i / 64 → x % 64 + 1 < 64 →
        (word B.chunks (i / 64)).getLsbD (x % 64 + 1) = l.getD (x + 1) false := by
      intro x hk hp
      rw [← bitAt_word _ _ hp, h.bitAt_eq]
      congr 1
      omega
    simp only [second]
    split
    · rename_i hmore
      refine ⟨by simp [first], fun x => ?_⟩
      have hp : x % 64 < 64 := Nat.mod_lt x (by omega)
      rw [bitAt_set _ (by omega)]
      split
      · rename_i hk
        have hxk := hgap x
        rw [if_pos hk, bitAt, hk] at hxk
        rw [BitVec.getLsbD_or, hxk, BitVec.getLsbD_shiftLeft, decide_eq_true hp]
        by_cases htop : x % 64 = 63
        · rw [if_neg (by omega), if_pos (by omega), BitVec.getLsbD_of_ge _ _ (by omega),
            decide_eq_false (by omega), ← bitAt_word _ _ (by omega), hgap, if_neg (by omega)]
          simp only [Bool.not_false, Bool.true_and, Bool.false_or]
          congr 1
          omega
        · rw [decide_eq_true (by omega), hnext x hk (by omega)]
          simp only [Bool.not_true, Bool.and_false, Bool.false_and, Bool.or_false]
          by_cases hx : x % 64 < i % 64
          · rw [if_pos hx, if_neg (by omega)]
          · rw [if_neg hx, if_pos (by omega)]
      · rename_i hk
        rw [hgap, if_neg hk, if_neg (by omega)]
    · rename_i hmore
      refine ⟨by simp [first], fun x => ?_⟩
      simp only [first, List.length_set] at hmore
      rw [hgap]
      by_cases hk : x / 64 = i / 64
      · rw [if_pos hk]
        by_cases hx : x % 64 < i % 64
        · rw [if_pos hx, if_neg (by omega)]
        · rw [if_neg hx, if_pos (by omega)]
          by_cases htop : x % 64 = 63
          · rw [BitVec.getLsbD_of_ge _ _ (by omega), List.getD_eq_default _ _ (by omega)]
          · exact hnext x hk (by omega)
      · rw [if_neg hk, if_neg (by omega)]
  have hdef : deleteatInt B i = ⟨if B.len % 64 = 1 then deleteend (shiftDown (i / 64 + 1) second) 1
    else if i / 64 + 1 < (shiftDown (i / 64 + 1) second).length
      then setLast (shiftDown (i / 64 + 1) second)
        (word (shiftDown (i / 64 + 1) second) ((shiftDown (i / 64 + 1) second).length - 1) >>> 1)
      else shiftDown (i / 64 + 1) second, B.len - 1⟩ := rfl
  obtain ⟨hlen2, hbits2⟩ := hsecond
  rw [hdef]
  by_cases hlast : i / 64 + 1 < second.length
  · obtain ⟨hshlen, hshbits⟩ := bitAt_shiftDown second _ hlast
    rw [if_pos (show i / 64 + 1 < (shiftDown (i / 64 + 1) second).length by omega)]
    apply shiftLast_repr h (hshlen.trans hlen2) (by omega) (by omega)
    intro x
    rw [hshbits, hshlen, hbits2, hbits2]
    by_cases hx : x < i
    · rw [if_pos hx, if_neg (by omega), if_neg (by omega)]
    · rw [if_neg hx]
      by_cases hb : x < 64 * (second.length - 1)
      · rw [if_pos hb]
        by_cases hk : 64 * (i / 64 + 1) ≤ x
        · rw [if_pos (by omega), if_neg (by omega)]
        · rw [if_neg (by omega), if_pos (by omega)]
      · rw [if_neg hb, if_neg (by omega), if_neg (by omega)]
  · -- the bit lies in the last chunk, which is already shifted
    have hshift : shiftDown (i / 64 + 1) second = second := Loop.up_of_le (by omega) _ _
    have hsucc := numBitChunks_succ (B.len - 1)
    rw [show B.len - 1 + 1 = B.len by omega] at hsucc
    rw [hshift, if_neg hlast]
    refine ⟨?_, by simp [List.length_eraseIdx, hi, hlenl], fun x => ?_⟩
    · simp only
      split
      · rw [length_deleteend, hlen2, hchunks, hsucc, if_pos (by omega)]
        rfl
      · rw [hlen2, hchunks, hsucc, if_neg (by omega)]
    · have hx : bitAt second x = if x < i then l.getD x false else l.getD (x + 1) false := by
        rw [hbits2]
        by_cases hx : x < i
        · rw [if_pos hx, if_neg (by omega)]
        · rw [if_neg hx]
          split
          · rfl
          · rw [List.getD_eq_default _ _ (by omega), List.getD_eq_default _ _ (by omega)]
      rw [getD_eraseIdx]
      simp only
      split
      · rw [bitAt_deleteend, hx]
        by_cases hb : x < 64 * (second.length - 1)
        · rw [if_pos hb]
        · rw [if_neg hb, if_neg (by omega), List.getD_eq_default _ _ (by omega)]
      · exact hx

end Operations

end Joolia.BitArray
