import Joolia.Base.BitArray.Bits
import Joolia.Base.BitSet
import Joolia.Library.Window

namespace Joolia.Bitset

open Words BitArray

-- The state every operation keeps: an uninitialised set has no chunks, and an
-- initialised one stores chunks of `Int`s only, so no offset arithmetic overflows.
structure Inv (s : BitSet) : Prop where
  uninit : s.offset = NO_OFFSET → s.bits = []
  range : s.offset ≠ NO_OFFSET → -2 ^ 57 ≤ s.offset ∧ s.offset + s.bits.length ≤ 2 ^ 57

theorem Inv.new : Inv BitSet.new := ⟨fun _ => rfl, fun h => (h rfl).elim⟩

theorem Inv.of_range {bits : List Word} {offset : ℤ} (hlo : -2 ^ 57 ≤ offset)
    (hhi : offset + bits.length ≤ 2 ^ 57) : Inv ⟨bits, offset⟩ := by
  refine ⟨fun h => ?_, fun _ => ⟨hlo, hhi⟩⟩
  simp only [NO_OFFSET] at h
  omega

theorem div64_range {n : ℤ} (hn : isConvertibleInt n) : -2 ^ 57 ≤ div64 n ∧ div64 n < 2 ^ 57 := by
  unfold isConvertibleInt at hn
  unfold div64
  omega

-- Membership is the bit of the window, also for integers that are no `Int`.
theorem isIn_eq_bit {s : BitSet} (h : Inv s) (n : ℤ) : isIn n s = bit s.bits s.offset n := by
  unfold isIn
  split
  · have hdiv : div64 n = n / 64 := rfl
    simp only [bitsGetindex]
    by_cases hci : 0 ≤ div64 n - s.offset ∧ div64 n - s.offset < s.bits.length
    · have hp : mod64 n < 64 := by
        unfold mod64
        omega
      have hget := unsafeBitgetindex_eq s.bits (64 * (div64 n - s.offset).toNat + mod64 n)
      rw [bitAt_word _ _ hp, unsafeBitgetindex, Nat.mul_add_div (by omega), Nat.mul_add_mod,
        Nat.div_eq_of_lt hp, Nat.mod_eq_of_lt hp, Nat.add_zero] at hget
      rw [if_pos hci, hget, bit, window, if_pos (by omega)]
      rfl
    · rw [if_neg hci]
      by_cases hlt : n / 64 < s.offset
      · rw [bit_of_lt (by omega)]
      · rw [bit_of_ge (by omega)]
  · rename_i hn
    unfold isConvertibleInt at hn
    by_cases hoff : s.offset = NO_OFFSET
    · rw [h.uninit hoff, bit, window_nil]
      simp
    · have hrange := h.range hoff
      by_cases hlt : n < -2 ^ 63
      · rw [bit_of_lt (by omega)]
      · rw [bit_of_ge (by omega)]

section Grow

variable (mem : ℕ → Word) (b : List Word) (n : ℕ)

@[simp] theorem length_clearRange (lo hi : ℕ) (b : List Word) :
    (clearRange lo hi b).length = b.length := by
  by_cases hle : lo ≤ hi
  · apply Loop.up_invariant (fun _ (cur : List Word) => cur.length = b.length) hle rfl
    intro i cur _ _ hcur
    simpa using hcur
  · rw [clearRange, Loop.up_of_le (by omega)]

theorem window_clearRange {lo hi : ℕ} {b : List Word} (hhi : hi ≤ b.length) (off k : ℤ) :
    window (clearRange lo hi b) off k =
      if off + lo ≤ k ∧ k < off + hi then 0 else window b off k := by
  by_cases hle : lo ≤ hi
  · refine (Loop.up_invariant (fun t (cur : List Word) => cur.length = b.length ∧
      ∀ k, window cur off k = if off + lo ≤ k ∧ k < off + t then 0 else window b off k)
      hle ⟨rfl, fun k => by rw [if_neg (by omega)]⟩ ?_).2 k
    intro t cur hlo ht hcur
    obtain ⟨hlen, hwin⟩ := hcur
    refine ⟨by simpa using hlen, fun k => ?_⟩
    rw [window_set _ (by omega), hwin]
    by_cases hk : k = off + t
    · rw [if_pos hk, if_pos (by omega)]
    · rw [if_neg hk]
      by_cases hin : off + lo ≤ k ∧ k < off + t
      · rw [if_pos hin, if_pos (by omega)]
      · rw [if_neg hin, if_neg (by omega)]
  · rw [clearRange, Loop.up_of_le (by omega), if_neg (by omega)]

@[simp] theorem length_growend0 : (growend0 mem b n).length = b.length + n := by
  simp [growend0]

@[simp] theorem length_growbeg0 : (growbeg0 mem b n).length = b.length + n := by
  simp [growbeg0, growbeg, Nat.add_comm]

theorem window_growend0 (off k : ℤ) : window (growend0 mem b n) off k = window b off k := by
  have hlen : (growend mem b n).length = b.length + n := length_growend mem b n
  simp only [growend0]
  rw [window_clearRange (Nat.le_refl _), hlen, growend, window_append]
  by_cases hlt : k < off + b.length
  · rw [if_neg (by omega), if_pos hlt]
  · rw [if_neg hlt, window_of_ge (a := b) (by omega)]
    split
    · rfl
    · exact window_of_ge (by simp; omega)

theorem window_growbeg0 (off k : ℤ) : window (growbeg0 mem b n) off k = window b (off + n) k := by
  rw [growbeg0, window_clearRange (by simp [growbeg]), growbeg, window_append]
  simp only [List.length_map, List.length_range]
  by_cases hlt : k < off + n
  · rw [if_pos hlt, window_of_lt hlt]
    split
    · rfl
    · exact window_of_lt (by omega)
  · rw [if_neg (by omega), if_neg hlt]

end Grow

-- Setting one bit at a chunk inside the window.
theorem bit_unsafeBitsetindex (bits : List Word) (offset idx : ℤ) (b : Bool)
    (hlo : offset ≤ div64 idx) (hhi : div64 idx < offset + bits.length) (n : ℤ) :
    bit (unsafeBitsetindex bits b (div64 idx - offset).toNat (mod64 idx)) offset n =
      if n = idx then b else bit bits offset n := by
  unfold div64 at hlo hhi
  obtain ⟨i, hi⟩ : ∃ i : ℕ, idx = 64 * offset + i := ⟨(idx - 64 * offset).toNat, by omega⟩
  have hset : unsafeBitsetindex bits b (div64 idx - offset).toNat (mod64 idx) = setindex bits b i := by
    rw [setindex, div64, mod64]
    congr 1 <;> omega
  rw [hset]
  by_cases hn : n < 64 * offset
  · rw [bit_of_lt hn, bit_of_lt hn, if_neg (by omega)]
  · obtain ⟨j, hj⟩ : ∃ j : ℕ, n = 64 * offset + j := ⟨(n - 64 * offset).toNat, by omega⟩
    rw [hj, bit_eq_bitAt, bit_eq_bitAt, bitAt_setindex _ _ (by omega), hi]
    by_cases h : j = i
    · rw [if_pos h, if_pos (by omega)]
    · rw [if_neg h, if_neg (by omega)]

theorem setint_spec (mem : ℕ → Word) {s : BitSet} (h : Inv s) {idx : ℤ} (hidx : isConvertibleInt idx)
    (b : Bool) : Inv (setint mem s idx b) ∧
      ∀ n, bit (setint mem s idx b).bits (setint mem s idx b).offset n =
        if n = idx then b else bit s.bits s.offset n := by
  have hcidx := div64_range hidx
  have hdiv : div64 idx = idx / 64 := rfl
  have hsame : ∀ n, bit s.bits s.offset idx = false →
      bit s.bits s.offset n = if n = idx then false else bit s.bits s.offset n := by
    intro n hz
    split
    · rename_i heq
      rw [heq, hz]
    · rfl
  simp only [setint]
  split
  · rename_i hdiff
    have hz : bit s.bits s.offset idx = false := bit_of_ge (by omega)
    split
    · rename_i hb
      subst hb
      exact ⟨h, fun n => hsame n hz⟩
    · split
      · -- the first element fixes the offset
        rename_i hoff
        have hnil := h.uninit hoff
        refine ⟨Inv.of_range hcidx.1 (by simp [unsafeBitsetindex, hnil]; omega), fun n => ?_⟩
        have hset := bit_unsafeBitsetindex (growend0 mem s.bits (0 - s.bits.length + 1 : ℤ).toNat)
          (div64 idx) idx b (Int.le_refl _) (by rw [length_growend0, hnil, List.length_nil]; omega) n
        rw [Int.sub_self, Int.toNat_zero] at hset
        rw [hset, bit_congr (window_growend0 mem _ _ _), hnil, bit, bit, window_nil, window_nil]
      · rename_i hoff
        have hrange := h.range hoff
        refine ⟨Inv.of_range hrange.1 (by simp [unsafeBitsetindex]; omega), fun n => ?_⟩
        rw [bit_unsafeBitsetindex _ _ _ b (by omega) (by simp; omega),
          bit_congr (window_growend0 mem _ _ _)]
  · split
    · rename_i hdiff
      have hz : bit s.bits s.offset idx = false := bit_of_lt (by omega)
      split
      · rename_i hb
        subst hb
        exact ⟨h, fun n => hsame n hz⟩
      · have hoff : s.offset ≠ NO_OFFSET := by
          unfold NO_OFFSET
          omega
        have hrange := h.range hoff
        have hnew : s.offset + (div64 idx - s.offset) = div64 idx := by omega
        refine ⟨Inv.of_range (by omega) (by simp [unsafeBitsetindex]; omega), fun n => ?_⟩
        have hset := bit_unsafeBitsetindex
          (growbeg0 mem s.bits (-(div64 idx - s.offset)).toNat) (div64 idx) idx b (Int.le_refl _) (by simp; omega) n
        rw [Int.sub_self, Int.toNat_zero] at hset
        have hwin : ∀ k, window (growbeg0 mem s.bits (-(div64 idx - s.offset)).toNat) (div64 idx) k =
            window s.bits s.offset k := by
          intro k
          rw [window_growbeg0]
          congr 1
          omega
        rw [hnew, hset, bit_congr hwin]
    · rename_i hge hlt
      have hoff : s.offset ≠ NO_OFFSET := by
        intro hoff
        have := h.uninit hoff
        rw [this] at hge
        simp at hge
        omega
      have hrange := h.range hoff
      refine ⟨Inv.of_range hrange.1 (by simp [unsafeBitsetindex]; omega), fun n => ?_⟩
      exact bit_unsafeBitsetindex _ _ _ b (by omega) (by omega) n

end Joolia.Bitset

namespace Joolia.Bitset

open Words BitArray

-- The masks of the first and last chunk of a range.

theorem getLsbD_ones_shiftRight (n p : ℕ) :
    ((~~~0 : Word) >>> n).getLsbD p = decide (n + p < 64) := by
  rw [BitVec.getLsbD_ushiftRight, BitVec.getLsbD_not, BitVec.ofNat_eq_ofNat, BitVec.getLsbD_zero,
    Bool.not_false, Bool.and_true]

theorem getLsbD_mskFrom (i : ℕ) {p : ℕ} (hp : p < 64) : (mskFrom i).getLsbD p = decide (i ≤ p) := by
  rw [mskFrom, BitVec.getLsbD_shiftLeft, decide_eq_true hp, getLsbD_ones_shiftRight]
  by_cases h : i ≤ p
  · rw [decide_eq_false (by omega), decide_eq_true (by omega), decide_eq_true h]
    rfl
  · rw [decide_eq_true (by omega), decide_eq_false h]
    rfl

theorem getLsbD_mskTo {j p : ℕ} (hj : j < 64) : (mskTo j).getLsbD p = decide (p ≤ j) := by
  rw [mskTo, BitVec.getLsbD_ushiftRight]
  by_cases h : 63 - j + p < 64
  · have hmsk := getLsbD_msk64_shiftLeft (63 - j) h
    rw [msk64] at hmsk
    rw [hmsk, decide_eq_decide]
    omega
  · rw [BitVec.getLsbD_of_ge _ _ (by omega), decide_eq_false (by omega)]

theorem getLsbD_mskFromTo {i j p : ℕ} (hij : i ≤ j) (hj : j < 64) :
    (mskFromTo i j).getLsbD p = decide (i ≤ p ∧ p ≤ j) := by
  rw [mskFromTo, BitVec.getLsbD_ushiftRight, BitVec.getLsbD_shiftLeft, getLsbD_ones_shiftRight,
    ← decide_not, ← Bool.decide_and, ← Bool.decide_and, decide_eq_decide]
  omega

theorem length_fillRange (bits : List Word) (da db i j : ℕ) :
    (fillRange bits da db i j).length = bits.length := by
  unfold fillRange
  split
  · simp
  · by_cases hle : da + 1 ≤ db
    · apply Loop.up_invariant (fun _ (cur : List Word) => cur.length = bits.length) hle (by simp)
      intro t cur _ _ hcur
      simpa using hcur
    · rw [Loop.up_of_le (by omega)]
      simp

-- Every chunk strictly between the first and the last becomes all ones.
theorem bitAt_fillRange (bits : List Word) (da db i j : ℕ) (hle : 64 * da + i ≤ 64 * db + j)
    (hdb : db < bits.length) (hi : i < 64) (hj : j < 64) (x : ℕ) :
    bitAt (fillRange bits da db i j) x =
      (bitAt bits x || decide (64 * da + i ≤ x ∧ x ≤ 64 * db + j)) := by
  unfold fillRange
  split
  · rename_i heq
    subst heq
    rw [bitAt_set _ hdb]
    split
    · rename_i hk
      rw [BitVec.getLsbD_or, getLsbD_mskFromTo (by omega) hj, bitAt, hk]
      congr 1
      rw [decide_eq_decide]
      omega
    · rw [decide_eq_false (by omega), Bool.or_false]
  · rename_i hne
    refine ((Loop.up_invariant (fun t (cur : List Word) => cur.length = bits.length ∧
      ∀ x, bitAt cur x = (bitAt bits x ||
        decide (64 * da + i ≤ x ∧ x < 64 * t ∨ 64 * db ≤ x ∧ x ≤ 64 * db + j)))
      (by omega) ?_ ?_).2 x).trans ?_
    · refine ⟨by simp, fun x => ?_⟩
      have hp : x % 64 < 64 := Nat.mod_lt x (by omega)
      rw [bitAt_set _ (by simpa using hdb), word_set, if_neg (show ¬(da = db ∧ da < bits.length) by omega)]
      split
      · rename_i hk
        rw [BitVec.getLsbD_or, getLsbD_mskTo hj, bitAt, hk]
        congr 1
        rw [decide_eq_decide]
        omega
      · rw [bitAt_set _ (by omega)]
        split
        · rename_i hk
          rw [BitVec.getLsbD_or, getLsbD_mskFrom _ hp, bitAt, hk]
          congr 1
          rw [decide_eq_decide]
          omega
        · rw [decide_eq_false (by omega), Bool.or_false]
    · intro t cur hlo ht hcur
      obtain ⟨hlen, hbits⟩ := hcur
      refine ⟨by simpa using hlen, fun x => ?_⟩
      have hp : x % 64 < 64 := Nat.mod_lt x (by omega)
      rw [bitAt_set _ (by omega)]
      split
      · rw [BitVec.getLsbD_not, decide_eq_true hp, decide_eq_true (by omega), Bool.or_true]
        simp
      · rw [hbits]
        congr 1
        rw [decide_eq_decide]
        omega
    · congr 1
      rw [decide_eq_decide]
      omega

theorem bit_fillRange (bits : List Word) (offset : ℤ) {a b : ℤ} (hab : a ≤ b) (hlo : offset ≤ div64 a)
    (hhi : div64 b < offset + bits.length) (n : ℤ) :
    bit (fillRange bits (div64 a - offset).toNat (div64 b - offset).toNat (mod64 a) (mod64 b)) offset n =
      (bit bits offset n || decide (a ≤ n ∧ n ≤ b)) := by
  unfold div64 at hlo hhi
  have hbits := bitAt_fillRange bits (div64 a - offset).toNat (div64 b - offset).toNat
    (mod64 a) (mod64 b)
    (by unfold div64 mod64; omega) (by unfold div64; omega) (by unfold mod64; omega)
    (by unfold mod64; omega)
  by_cases hn : n < 64 * offset
  · rw [bit_of_lt hn, bit_of_lt hn, decide_eq_false (by omega)]
    rfl
  · obtain ⟨x, hx⟩ : ∃ x : ℕ, n = 64 * offset + x := ⟨(n - 64 * offset).toNat, by omega⟩
    rw [hx, bit_eq_bitAt, bit_eq_bitAt, hbits]
    congr 1
    rw [decide_eq_decide]
    unfold div64 mod64
    omega

theorem unionInts_spec (mem : ℕ → Word) {s : BitSet} (h : Inv s) {a b : ℤ} (hab : a ≤ b)
    (ha : isConvertibleInt a) (hb : isConvertibleInt b) : Inv (unionInts mem s a b) ∧
      ∀ n, bit (unionInts mem s a b).bits (unionInts mem s a b).offset n =
        (bit s.bits s.offset n || decide (a ≤ n ∧ n ≤ b)) := by
  have hra := div64_range ha
  have hrb := div64_range hb
  have hdivle : div64 a ≤ div64 b := by
    unfold div64
    omega
  simp only [unionInts]
  -- the offset after initialisation describes the same window
  obtain ⟨offset, hoffset, hlo, hhi, hsame⟩ : ∃ offset,
      (if s.offset = NO_OFFSET then div64 a else s.offset) = offset ∧ -2 ^ 57 ≤ offset ∧
      offset + s.bits.length ≤ 2 ^ 57 ∧
      ∀ k, window s.bits offset k = window s.bits s.offset k := by
    by_cases hoff : s.offset = NO_OFFSET
    · refine ⟨div64 a, if_pos hoff, hra.1, ?_, fun k => ?_⟩
      · rw [h.uninit hoff]
        simp
        omega
      · rw [h.uninit hoff, window_nil, window_nil]
    · exact ⟨s.offset, if_neg hoff, (h.range hoff).1, (h.range hoff).2, fun _ => rfl⟩
  rw [hoffset]
  obtain ⟨bits, hbits, hlen, hcap, hwin⟩ : ∃ bits,
      (if div64 b - offset ≥ s.bits.length
        then growend0 mem s.bits (div64 b - offset - s.bits.length + 1).toNat else s.bits) = bits ∧
      offset + bits.length ≤ 2 ^ 57 ∧ div64 b < offset + bits.length ∧
      ∀ k, window bits offset k = window s.bits s.offset k := by
    by_cases hgrow : div64 b - offset ≥ s.bits.length
    · refine ⟨_, if_pos hgrow, by simp; omega, by simp; omega, fun k => ?_⟩
      rw [window_growend0, hsame]
    · exact ⟨_, if_neg hgrow, hhi, by omega, hsame⟩
  rw [hbits]
  split
  · have hwin' : ∀ k, window (growbeg0 mem bits (-(div64 a - offset)).toNat) (div64 a) k =
        window s.bits s.offset k := by
      intro k
      rw [window_growbeg0, ← hwin]
      congr 1
      omega
    have hlen' : (growbeg0 mem bits (-(div64 a - offset)).toNat).length =
        bits.length + (-(div64 a - offset)).toNat := length_growbeg0 _ _ _
    refine ⟨Inv.of_range hra.1 (by rw [length_fillRange]; omega), fun n => ?_⟩
    have hfill := bit_fillRange (growbeg0 mem bits (-(div64 a - offset)).toNat) (div64 a) hab (Int.le_refl _) (by omega) n
    rw [Int.sub_self, Int.toNat_zero, bit_congr hwin'] at hfill
    rw [← hfill, show div64 b - offset - (div64 a - offset) = div64 b - div64 a by omega]
  · refine ⟨Inv.of_range hlo (by rw [length_fillRange]; exact hlen), fun n => ?_⟩
    rw [bit_fillRange _ _ hab (by omega) hcap, bit_congr hwin]

end Joolia.Bitset
