import Joolia.Base.BitArray.Repr

namespace Joolia.BitArray

open Words

-- `bitreverse`
def bitreverse (w : Word) : Word := w.reverse

-- The `while true` loop of `_reverse!`, entered with `i` already stepped; `none` if it
-- does not leave within the given number of turns.
def reverseLoop (k h : ℕ) : ℕ → List Word → ℕ → ℕ → Word → Word → Option (List Word × ℕ × Word × Word)
  | 0, _, _, _, _, _ => none
  | turns + 1, bc, i, j, u, v =>
    if i = j then some (bc, i, u, v)
    else
      let u := bitreverse (word bc i)
      let bc := bc.set i 0
      let bc := bc.set j (word bc j ||| u >>> h)
      let bc := bc.set i (word bc i ||| v >>> h)
      let j := j - 1
      if i = j then some (bc, i, u, v)
      else
        let v := bitreverse (word bc j)
        let bc := bc.set j 0
        let bc := bc.set i (word bc i ||| v <<< k)
        let bc := bc.set j (word bc j ||| u <<< k)
        reverseLoop k h turns bc (i + 1) j u v

-- The block left for the chunk where the two ends meet.
def reverseLast (k h : ℕ) (bc : List Word) (i : ℕ) (u v : Word) : List Word :=
  if bc.length % 2 = 1 then bc.set i (word bc i ||| v >>> h) else bc.set i (word bc i ||| u <<< k)

-- `_reverse!(B, :)`
def reverse (B : BitVector) : Option BitVector :=
  let n := B.len
  if n = 0 then some B
  else
    let k := (n + 63) % 64 + 1
    let h := 64 - k
    let j := B.chunks.length - 1
    let v := bitreverse (word B.chunks j)
    (reverseLoop k h B.chunks.length (B.chunks.set j 0) 0 j 0 v).map fun (bc, i, u, v) => ⟨reverseLast k h bc i u v, n⟩

section Chunks

variable (old : List Word) (k : ℕ)

-- The reversed chunk `m` counted from the end.
def turned (m : ℕ) : Word := bitreverse (word old (old.length - 1 - m))

-- Chunk `m` of the result: the block of `turned m` behind the `h` unused bits, and in
-- front of it the block of the next one.
def reversedChunk (m : ℕ) : Word :=
  turned old m >>> (64 - k) ||| (if m + 1 < old.length then turned old (m + 1) <<< k else 0)

-- The chunks at the top of the loop.
structure HalfReversed (bc : List Word) (i j : ℕ) (v : Word) : Prop where
  length_eq : bc.length = old.length
  meet : i + j + 1 = old.length
  le : i ≤ j
  outside : ∀ m, m < old.length → m < i ∨ j < m → word bc m = reversedChunk old k m
  middle : ∀ m, i ≤ m → m < j → word bc m = word old m
  last : word bc j = if j + 1 < old.length then turned old (j + 1) <<< k else 0
  read : v = turned old i

variable {old k}

theorem word_set_of_lt {bc : List Word} {i : ℕ} (hi : i < bc.length) (w : Word) (m : ℕ) :
    word (bc.set i w) m = if i = m then w else word bc m := by
  rw [word_set]
  simp [hi]

theorem HalfReversed.start (hold : old ≠ []) :
    HalfReversed old k (old.set (old.length - 1) 0) 0 (old.length - 1) (bitreverse (word old (old.length - 1))) := by
  have hlen := List.length_pos_of_ne_nil hold
  refine ⟨List.length_set, by omega, by omega, fun m hm hout => by omega, fun m _ hm => ?_, ?_, rfl⟩
  · rw [word_set_of_lt (by omega), if_neg (by omega)]
  · rw [word_set_of_lt (by omega), if_pos rfl, if_neg (by omega)]

-- Both ends meet in one chunk, which holds its front block only.
theorem HalfReversed.meets {bc : List Word} {i : ℕ} {v : Word} (h : HalfReversed old k bc i i v) {m : ℕ} (hm : m < old.length) (u : Word) :
    word (reverseLast k (64 - k) bc i u v) m = reversedChunk old k m := by
  have hmeet := h.meet
  have hi : i < bc.length := by
    rw [h.length_eq]
    omega
  rw [reverseLast, h.length_eq, if_pos (by omega), word_set_of_lt hi]
  split_ifs with heq
  · subst heq
    rw [h.last, h.read, reversedChunk, BitVec.or_comm]
  · exact h.outside m hm (by omega)

section Turn

variable {bc : List Word} {i j : ℕ} {v : Word} (h : HalfReversed old k bc i j v) (hlt : i < j)

include h hlt

theorem HalfReversed.read_low : bitreverse (word bc i) = turned old j := by
  have hmeet := h.meet
  rw [h.middle i (Nat.le_refl i) hlt, turned]
  congr 2
  omega

-- After the first half of a turn the chunk `j` is done, and `i` holds its front block.
theorem HalfReversed.half (m : ℕ) :
    word (((bc.set i 0).set j (word (bc.set i 0) j ||| turned old j >>> (64 - k))).set i
      (word ((bc.set i 0).set j (word (bc.set i 0) j ||| turned old j >>> (64 - k))) i ||| v >>> (64 - k))) m =
      if m = i then turned old i >>> (64 - k) else if m = j then reversedChunk old k j else word bc m := by
  have hmeet := h.meet
  have hlen := h.length_eq
  have hi : i < old.length := by omega
  have hj : j < old.length := by omega
  have hne : i ≠ j := by omega
  simp only [word_set, List.length_set, hlen, hi, hj, and_true, h.last, h.read, if_true, if_neg hne, if_neg hne.symm]
  by_cases hmi : m = i
  · subst hmi
    simp only [if_true, if_neg hne.symm]
    exact BitVec.zero_or
  · simp only [if_neg (Ne.symm hmi), if_neg hmi]
    by_cases hmj : m = j
    · subst hmj
      rw [if_pos rfl, if_pos rfl, reversedChunk, BitVec.or_comm]
    · rw [if_neg (Ne.symm hmj), if_neg hmj]

end Turn

-- From the top of the loop the chunks end up reversed.
theorem HalfReversed.finish (turns : ℕ) {bc : List Word} {i j : ℕ} {v : Word} (h : HalfReversed old k bc i j v)
    (hturns : j - i < turns) (u : Word) :
    ∃ bc' i' u' v', reverseLoop k (64 - k) turns bc i j u v = some (bc', i', u', v') ∧ bc'.length = old.length ∧
      ∀ m < old.length, word (reverseLast k (64 - k) bc' i' u' v') m = reversedChunk old k m := by
  induction turns generalizing bc i j u v with
  | zero => omega
  | succ turns ih =>
      have hmeet := h.meet
      have hle := h.le
      rw [reverseLoop]
      by_cases heq : i = j
      · subst heq
        exact ⟨bc, i, u, v, if_pos rfl, h.length_eq, fun m hm => h.meets hm u⟩
      have hlt : i < j := by omega
      have hhalf := h.half hlt
      rw [if_neg heq]
      dsimp only
      rw [h.read_low hlt]
      generalize hnext : ((bc.set i 0).set j (word (bc.set i 0) j ||| turned old j >>> (64 - k))).set i
        (word ((bc.set i 0).set j (word (bc.set i 0) j ||| turned old j >>> (64 - k))) i ||| v >>> (64 - k)) = next at hhalf ⊢
      have hlen : next.length = old.length := by
        rw [← hnext, List.length_set, List.length_set, List.length_set, h.length_eq]
      by_cases hmid : i = j - 1
      · rw [if_pos hmid]
        refine ⟨next, i, turned old j, v, rfl, hlen, fun m hm => ?_⟩
        rw [reverseLast, hlen, if_neg (by omega), word_set_of_lt (by omega), hhalf, hhalf, if_pos rfl]
        by_cases hi : m = i
        · subst hi
          rw [if_pos rfl, reversedChunk, if_pos (by omega), show m + 1 = j by omega]
        · rw [if_neg (by omega), if_neg hi]
          split_ifs with hj
          · rw [hj]
          · exact h.outside m hm (by omega)
      · rw [if_neg hmid]
        have hi : i < old.length := by omega
        have hj : j - 1 < old.length := by omega
        have hread : bitreverse (word next (j - 1)) = turned old (i + 1) := by
          rw [hhalf, if_neg (by omega), if_neg (by omega), h.middle _ (by omega) (by omega), turned]
          congr 2
          omega
        rw [hread]
        have hwords : ∀ m, word (((next.set (j - 1) 0).set i (word (next.set (j - 1) 0) i ||| turned old (i + 1) <<< k)).set (j - 1)
            (word ((next.set (j - 1) 0).set i (word (next.set (j - 1) 0) i ||| turned old (i + 1) <<< k)) (j - 1) |||
              turned old j <<< k)) m =
            if m = i then reversedChunk old k i else if m = j - 1 then turned old j <<< k else word next m := by
          intro m
          simp only [word_set, List.length_set, hlen, hi, hj, and_true, eq_self, if_true, if_neg hmid, if_neg (Ne.symm hmid), hhalf]
          by_cases hmi : m = i
          · subst hmi
            rw [if_neg (Ne.symm hmid), if_pos rfl, if_pos rfl, reversedChunk, if_pos (by omega)]
          · rw [if_neg (Ne.symm hmi), if_neg hmi]
            by_cases hmj : m = j - 1
            · rw [if_pos hmj.symm, if_pos hmj, if_neg hmi]
              exact BitVec.zero_or
            · rw [if_neg (Ne.symm hmj), if_neg (Ne.symm hmj), if_neg hmj]
              simp only [if_neg hmi]
        refine ih ⟨?_, by omega, by omega, fun m hm hout => ?_, fun m hlo hhi => ?_, ?_, rfl⟩ (by omega) _
        · simp only [List.length_set, hlen]
        · rw [hwords]
          by_cases hmi : m = i
          · rw [if_pos hmi, hmi]
          · rw [if_neg hmi, if_neg (by omega), hhalf, if_neg hmi]
            split_ifs with hmj
            · rw [hmj]
            · exact h.outside m hm (by omega)
        · rw [hwords, if_neg (by omega), if_neg (by omega), hhalf, if_neg (by omega), if_neg (by omega)]
          exact h.middle m (by omega) (by omega)
        · rw [hwords, if_neg (Ne.symm hmid), if_pos rfl, if_pos (by omega), show j - 1 + 1 = j by omega]

end Chunks

theorem getLsbD_bitreverse (w : Word) (p : ℕ) : (bitreverse w).getLsbD p = (decide (p < 64) && w.getLsbD (63 - p)) := by
  rw [bitreverse, BitVec.getLsbD_reverse, BitVec.getMsbD]

-- The chunks of the reversed sequence.
theorem getLsbD_reversedChunk {old : List Word} {n : ℕ} (hn : 0 < n) (hold : old.length = numBitChunks n) {m p : ℕ}
    (hm : m < old.length) (hp : p < 64) : (reversedChunk old ((n + 63) % 64 + 1) m).getLsbD p =
      if 64 * m + p < n then bitAt old (n - 1 - (64 * m + p)) else false := by
  unfold numBitChunks at hold
  obtain ⟨k, hk⟩ : ∃ k, k = (n + 63) % 64 + 1 := ⟨_, rfl⟩
  rw [← hk]
  have hsize : n = 64 * (old.length - 1) + k := by
    split at hold <;> omega
  have hfront : (turned old m >>> (64 - k)).getLsbD p =
      if p < k then (word old (old.length - 1 - m)).getLsbD (k - 1 - p) else false := by
    rw [BitVec.getLsbD_ushiftRight, turned, getLsbD_bitreverse]
    split_ifs with hpk
    · rw [decide_eq_true (by omega), Bool.true_and, show 63 - (64 - k + p) = k - 1 - p by omega]
    · rw [decide_eq_false (by omega), Bool.false_and]
  have hback : (turned old (m + 1) <<< k).getLsbD p =
      if p < k then false else (word old (old.length - 1 - (m + 1))).getLsbD (63 - (p - k)) := by
    rw [BitVec.getLsbD_shiftLeft, turned, getLsbD_bitreverse, decide_eq_true hp, Bool.true_and]
    split_ifs with hpk
    · simp [hpk]
    · rw [decide_eq_false hpk, decide_eq_true (by omega : p - k < 64)]
      rfl
  rw [reversedChunk, BitVec.getLsbD_or, hfront]
  by_cases hpk : p < k
  · have hnext : (if m + 1 < old.length then turned old (m + 1) <<< k else 0 : Word).getLsbD p = false := by
      split_ifs
      · rw [hback, if_pos hpk]
      · exact BitVec.getLsbD_zero
    rw [if_pos hpk, hnext, Bool.or_false, if_pos (by omega),
      show n - 1 - (64 * m + p) = 64 * (old.length - 1 - m) + (k - 1 - p) by omega, bitAt_word _ _ (by omega)]
  · rw [if_neg hpk, Bool.false_or]
    by_cases hnext : m + 1 < old.length
    · rw [if_pos hnext, hback, if_neg hpk, if_pos (by omega),
        show n - 1 - (64 * m + p) = 64 * (old.length - 1 - (m + 1)) + (63 - (p - k)) by omega, bitAt_word _ _ (by omega)]
    · rw [if_neg hnext, if_neg (by omega)]
      exact BitVec.getLsbD_zero

theorem length_reverseLast (k h : ℕ) (bc : List Word) (i : ℕ) (u v : Word) : (reverseLast k h bc i u v).length = bc.length := by
  unfold reverseLast
  split_ifs <;> exact List.length_set

theorem reverse_repr {B : BitVector} {l : List Bool} (h : Represents B l) :
    ∃ B', reverse B = some B' ∧ Represents B' l.reverse := by
  rw [reverse]
  by_cases hn : B.len = 0
  · have hnil : l = [] := List.eq_nil_of_length_eq_zero (h.len_eq ▸ hn)
    subst hnil
    exact ⟨B, if_pos hn, h⟩
  rw [if_neg hn]
  have hlen := h.length_chunks
  have hne : B.chunks ≠ [] := by
    rintro hnil
    rw [hnil, List.length_nil] at hlen
    have hle := numBitChunks_le B.len
    omega
  have hpos := List.length_pos_of_ne_nil hne
  obtain ⟨bc, i, u, v, hloop, hlen', hwords⟩ :=
    (HalfReversed.start (k := (B.len + 63) % 64 + 1) hne).finish B.chunks.length (by omega) 0
  dsimp only
  rw [hloop]
  refine ⟨_, rfl, ?_, ?_, fun q => ?_⟩
  · dsimp only
    rw [length_reverseLast, hlen', hlen]
  · rw [List.length_reverse]
    exact h.len_eq
  · dsimp only
    have hlast : l.reverse.length = l.length := List.length_reverse
    by_cases hq : q < 64 * B.chunks.length
    · rw [bitAt, hwords _ (by omega), getLsbD_reversedChunk (by omega) hlen (by omega) (by omega), Nat.div_add_mod, h.bitAt_eq, h.len_eq]
      split_ifs with hin
      · rw [List.getD_eq_getElem _ _ (by omega), List.getD_eq_getElem _ _ (by omega), List.getElem_reverse]
      · rw [List.getD_eq_default _ _ (by omega)]
    · have hle := numBitChunks_le B.len
      rw [bitAt_of_length_le (by rw [length_reverseLast, hlen']; omega), List.getD_eq_default _ _ (by rw [hlast, ← h.len_eq]; omega)]

-- A list is stored in one way.
theorem Represents.unique {B B' : BitVector} {l : List Bool} (h : Represents B l) (h' : Represents B' l) : B = B' := by
  obtain ⟨bc, len⟩ := B
  obtain ⟨bc', len'⟩ := B'
  have hlen : len = len' := h.len_eq.trans h'.len_eq.symm
  subst hlen
  have hchunks : bc.length = bc'.length := h.length_chunks.trans h'.length_chunks.symm
  congr 1
  exact ext_bitAt hchunks fun i => (h.bitAt_eq i).trans (h'.bitAt_eq i).symm

-- `reverse!` turns the elements around, clears the bits past the end, and undoes itself.
theorem reverse_turns_around {B : BitVector} (hB : WellFormed B) :
    ∃ B', reverse B = some B' ∧ B'.len = B.len ∧ WellFormed B' ∧
      (∀ i < B.len, bitAt B'.chunks i = bitAt B.chunks (B.len - 1 - i)) ∧ reverse B' = some B := by
  have hrepr := hB.repr
  obtain ⟨B', hB', hrepr'⟩ := reverse_repr hrepr
  obtain ⟨B'', hB'', hrepr''⟩ := reverse_repr hrepr'
  rw [List.reverse_reverse] at hrepr''
  refine ⟨B', hB', ?_, hrepr'.wellFormed, fun i hi => ?_, hrepr''.unique hrepr ▸ hB''⟩
  · rw [hrepr'.len_eq, List.length_reverse, hrepr.len_eq]
  · have hlen := hrepr.len_eq
    rw [hrepr'.bitAt_eq, hrepr.bitAt_eq, List.getD_eq_getElem _ _ (by rw [List.length_reverse]; omega),
      List.getD_eq_getElem _ _ (by omega), List.getElem_reverse]
    congr 1
    omega

-- Sixty-five elements: the last chunk holds one of them.
theorem reverse_turns_around_two_chunks : ∃ B', reverse ⟨[5, 1], 65⟩ = some B' ∧ bitAt B'.chunks 0 = bitAt [5, 1] 64 := by
  have hwf : WellFormed ⟨[5, 1], 65⟩ := by
    refine ⟨by decide, fun i hi => ?_⟩
    by_cases hlast : i < 128
    · have hall : ∀ j < 63, bitAt [5, 1] (65 + j) = false := by decide
      have hi' := hall (i - 65) (by omega)
      rwa [Nat.add_sub_cancel' hi] at hi'
    · exact bitAt_of_length_le (by simp; omega)
  obtain ⟨B', hB', -, -, hbits, -⟩ := reverse_turns_around hwf
  exact ⟨B', hB', hbits 0 (by decide)⟩

end Joolia.BitArray
