import Mathlib.Data.List.Basic
import Mathlib.Data.List.Sort
import Mathlib.Data.Nat.Basic

namespace Words

-- A vector of 64-bit words read as one sequence of bits, least significant first.
abbrev Word := BitVec 64

def word (a : List Word) (k : ℕ) : Word := a.getD k 0

def bitAt (a : List Word) (i : ℕ) : Bool := (word a (i / 64)).getLsbD (i % 64)

theorem bitAt_word (a : List Word) (k : ℕ) {p : ℕ} (hp : p < 64) :
    bitAt a (64 * k + p) = (word a k).getLsbD p := by
  rw [bitAt, Nat.mul_add_div (by omega), Nat.mul_add_mod, Nat.div_eq_of_lt hp,
    Nat.mod_eq_of_lt hp, Nat.add_zero]

theorem word_of_length_le {a : List Word} {k : ℕ} (h : a.length ≤ k) : word a k = 0 := by
  simp [word, List.getD, List.getElem?_eq_none h]

theorem bitAt_of_length_le {a : List Word} {i : ℕ} (h : 64 * a.length ≤ i) : bitAt a i = false := by
  simp [bitAt, word_of_length_le (show a.length ≤ i / 64 by omega)]

@[simp] theorem word_set (a : List Word) (k j : ℕ) (w : Word) :
    word (a.set k w) j = if k = j ∧ k < a.length then w else word a j := by
  simp only [word, List.getD, List.getElem?_set]
  by_cases hkj : k = j
  · subst hkj
    by_cases hk : k < a.length <;> simp [hk]
  · simp [hkj]

theorem word_append (a b : List Word) (k : ℕ) :
    word (a ++ b) k = if k < a.length then word a k else word b (k - a.length) := by
  simp only [word, List.getD, List.getElem?_append]
  split <;> rfl

theorem word_take (a : List Word) (n k : ℕ) :
    word (a.take n) k = if k < n then word a k else 0 := by
  simp only [word, List.getD, List.getElem?_take]
  split <;> rfl

theorem word_drop (a : List Word) (n k : ℕ) : word (a.drop n) k = word a (n + k) := by
  simp [word, List.getD, List.getElem?_drop]

theorem word_map_range (f : ℕ → Word) (n k : ℕ) :
    word ((List.range n).map f) k = if k < n then f k else 0 := by
  simp only [word, List.getD, List.getElem?_map]
  by_cases h : k < n <;> simp [h]

theorem word_replicate (n k : ℕ) : word (List.replicate n 0) k = 0 := by
  simp only [word, List.getD, List.getElem?_replicate]
  split <;> rfl

theorem bitAt_set (a : List Word) {k : ℕ} (hk : k < a.length) (w : Word) (i : ℕ) :
    bitAt (a.set k w) i = if i / 64 = k then w.getLsbD (i % 64) else bitAt a i := by
  simp only [bitAt, word_set, hk, and_true, eq_comm (a := k)]
  split <;> rfl

theorem word_eq_of_bitAt {a b : List Word} {k : ℕ}
    (h : ∀ i, 64 * k ≤ i → i < 64 * k + 64 → bitAt a i = bitAt b i) : word a k = word b k := by
  apply BitVec.eq_of_getLsbD_eq
  intro p hp
  rw [← bitAt_word a k hp, ← bitAt_word b k hp]
  exact h _ (by omega) (by omega)

theorem word_ext {a b : List Word} (hlen : a.length = b.length) (h : ∀ m < a.length, word a m = word b m) : a = b := by
  apply List.ext_getElem hlen
  intro m ha hb
  simpa [word, List.getD, ha, hb] using h m ha

-- Two word vectors of one length hold the same bits only if they are equal.
theorem ext_bitAt {a b : List Word} (hlen : a.length = b.length)
    (h : ∀ i, bitAt a i = bitAt b i) : a = b := by
  refine word_ext hlen fun m _ => BitVec.eq_of_getLsbD_eq fun p hp => ?_
  have hk := h (64 * m + p)
  rwa [bitAt_word a m hp, bitAt_word b m hp] at hk

end Words

namespace Words

-- The positions of the set bits of a word, in increasing order.
def ones (w : Word) : List ℕ := (List.range 64).filter w.getLsbD

@[simp] theorem mem_ones {w : Word} {p : ℕ} : p ∈ ones w ↔ w.getLsbD p = true := by
  simp only [ones, List.mem_filter, List.mem_range, and_iff_right_iff_imp]
  exact BitVec.lt_of_getLsbD

theorem ones_lt {w : Word} {p : ℕ} (h : p ∈ ones w) : p < 64 := BitVec.lt_of_getLsbD (mem_ones.1 h)

theorem pairwise_ones (w : Word) : (ones w).Pairwise (· < ·) := List.pairwise_lt_range.filter _

@[simp] theorem ones_zero : ones 0#64 = [] := by
  simp [ones]

theorem exists_mem_ones {w : Word} (hw : w ≠ 0) : ∃ p, p ∈ ones w := by
  by_contra hno
  apply hw
  apply BitVec.eq_of_getLsbD_eq
  intro p hp
  have hp' : p ∉ ones w := fun h => hno ⟨p, h⟩
  simpa using hp'

-- `count_ones` counts the set positions.
theorem length_filter_getLsbD {n : ℕ} (x : BitVec n) :
    ((List.range n).filter x.getLsbD).length = x.cpop.toNat := by
  have hcount : ∀ k, x.cpopNatRec k 0 = ((List.range k).filter x.getLsbD).length := by
    intro k
    induction k with
    | zero => rfl
    | succ k ih =>
        rw [BitVec.cpopNatRec_succ, BitVec.cpopNatRec_add, ih, List.range_succ, List.filter_append]
        cases hk : x.getLsbD k <;> simp [hk]
  rw [← hcount, BitVec.toNat_cpop]

theorem length_ones (w : Word) : (ones w).length = w.cpop.toNat := length_filter_getLsbD w

-- Clearing the lowest set bit removes the first position.
theorem getLsbD_and_sub_one {w : Word} (hw : w ≠ 0) (p : ℕ) :
    (w &&& (w - 1)).getLsbD p = (w.getLsbD p && decide (p ≠ w.ctz.toNat)) := by
  generalize ht : w.ctz.toNat = t
  have hbit : w.getLsbD t = true := by rw [← ht]; exact BitVec.getLsbD_true_ctz_of_ne_zero hw
  have hpos : 2 ^ t ≤ w.toNat := Nat.ge_two_pow_of_testBit hbit
  have htwo : 0 < 2 ^ t := Nat.two_pow_pos t
  -- `w` is `2 ^ (t + 1) * q + 2 ^ t`
  have hlow : w.toNat % 2 ^ (t + 1) = 2 ^ t := by
    apply Nat.eq_of_testBit_eq
    intro i
    rw [Nat.testBit_mod_two_pow, Nat.testBit_two_pow]
    by_cases hi : i < t
    · have hz : w.getLsbD i = false := BitVec.getLsbD_false_of_lt_ctz (by omega)
      rw [show w.toNat.testBit i = false from hz, Bool.and_false, decide_eq_false (by omega)]
    · by_cases heq : t = i
      · subst heq
        rw [show w.toNat.testBit t = true from hbit]
        simp
      · simp [heq]
        omega
  have hsplit := Nat.div_add_mod w.toNat (2 ^ (t + 1))
  rw [hlow] at hsplit
  have hsub : (w - 1).toNat = 2 ^ (t + 1) * (w.toNat / 2 ^ (t + 1)) + (2 ^ t - 1) := by
    have := w.isLt
    rw [BitVec.toNat_sub]
    simp only [BitVec.ofNat_eq_ofNat, BitVec.toNat_ofNat]
    omega
  have hlt : 2 ^ t < 2 ^ (t + 1) := Nat.pow_lt_pow_right (by omega) (by omega)
  have hw1 : (w - 1).getLsbD p =
      if p < t + 1 then (2 ^ t - 1).testBit p else (w.toNat / 2 ^ (t + 1)).testBit (p - (t + 1)) := by
    rw [BitVec.getLsbD, hsub, Nat.testBit_two_pow_mul_add _ (by omega)]
  rw [BitVec.getLsbD_and, hw1]
  by_cases hp : p < t + 1
  · rw [if_pos hp, Nat.testBit_two_pow_sub_one]
    congr 1
    rw [decide_eq_decide]
    omega
  · have hdiv : (w.toNat / 2 ^ (t + 1)).testBit (p - (t + 1)) = w.getLsbD p := by
      rw [Nat.testBit_div_two_pow, Nat.sub_add_cancel (by omega)]
      rfl
    rw [if_neg hp, hdiv, Bool.and_self, decide_eq_true (by omega), Bool.and_true]

theorem ones_cons {w : Word} (hw : w ≠ 0) : ones w = w.ctz.toNat :: ones (w &&& (w - 1)) := by
  apply (pairwise_ones w).eq_of_mem_iff
  · rw [List.pairwise_cons]
    refine ⟨fun p hp => ?_, pairwise_ones _⟩
    rw [mem_ones, getLsbD_and_sub_one hw] at hp
    simp only [Bool.and_eq_true, decide_eq_true_eq] at hp
    by_contra hlt
    have := BitVec.getLsbD_false_of_lt_ctz (x := w) (i := p) (by omega)
    rw [hp.1] at this
    cases this
  · intro p
    rw [List.mem_cons, mem_ones, mem_ones, getLsbD_and_sub_one hw]
    by_cases hp : p = w.ctz.toNat
    · subst hp
      simpa using BitVec.getLsbD_true_ctz_of_ne_zero hw
    · simp [hp]

-- The highest set bit, `top_set_bit(w) - 1`.
theorem mem_ones_top {w : Word} (hw : w ≠ 0) :
    63 - w.clz.toNat ∈ ones w ∧ ∀ p ∈ ones w, p ≤ 63 - w.clz.toNat := by
  refine ⟨mem_ones.2 (BitVec.getLsbD_true_clz_of_ne_zero (by omega) hw), fun p hp => ?_⟩
  have hle := Nat.ge_two_pow_of_testBit (mem_ones.1 hp)
  have hlt := BitVec.toNat_lt_two_pow_sub_clz (x := w)
  have := (Nat.pow_lt_pow_iff_right (by omega)).1 (Nat.lt_of_le_of_lt hle hlt)
  omega

end Words
