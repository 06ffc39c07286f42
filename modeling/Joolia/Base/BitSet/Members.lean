import Joolia.Base.BitSet.Chunks
import Joolia.Library.Iteration
import Joolia.Library.Words

namespace Joolia.Bitset

open Words BitArray Iteration

-- The members stored in chunk `k`, and in the chunks from `k` on.
def chunkMembers (s : BitSet) (w : Word) (k : ℤ) : List ℤ :=
  (ones w).map fun p : ℕ => (p : ℤ) + (k + s.offset) * 64

def membersFrom (s : BitSet) (k : ℕ) : List ℤ :=
  (List.range' k (s.bits.length - k)).flatMap fun i => chunkMembers s (word s.bits i) i

def members (s : BitSet) : List ℤ := membersFrom s 0

theorem mem_chunkMembers {s : BitSet} {k : ℕ} {n : ℤ} :
    n ∈ chunkMembers s (word s.bits k) k ↔
      n / 64 = k + s.offset ∧ (word s.bits k).getLsbD (n % 64).toNat = true := by
  simp only [chunkMembers, List.mem_map, mem_ones]
  constructor
  · rintro ⟨p, hp, rfl⟩
    have hlt := BitVec.lt_of_getLsbD hp
    refine ⟨by omega, ?_⟩
    rwa [show ((p + (k + s.offset) * 64 : ℤ) % 64).toNat = p by omega]
  · rintro ⟨hdiv, hbit⟩
    exact ⟨_, hbit, by omega⟩

theorem mem_membersFrom {s : BitSet} {k : ℕ} {n : ℤ} :
    n ∈ membersFrom s k ↔ 64 * (k + s.offset) ≤ n ∧ bit s.bits s.offset n = true := by
  simp only [membersFrom, List.mem_flatMap, List.mem_range'_1, mem_chunkMembers, bit]
  constructor
  · rintro ⟨i, hi, hdiv, hbit⟩
    refine ⟨by omega, ?_⟩
    rwa [hdiv, Int.add_comm, ← word_eq_window]
  · rintro ⟨hlo, hbit⟩
    have hwin : window s.bits s.offset (n / 64) ≠ 0 := by
      intro hz
      rw [hz] at hbit
      simp at hbit
    have hlt : n / 64 < s.offset + s.bits.length := by
      by_contra hge
      exact hwin (window_of_ge (by omega))
    refine ⟨(n / 64 - s.offset).toNat, by omega, by omega, ?_⟩
    rwa [word_eq_window _ s.offset, show s.offset + ((n / 64 - s.offset).toNat : ℤ) = n / 64 by omega]

theorem membersFrom_succ (s : BitSet) {k : ℕ} (hk : k < s.bits.length) :
    membersFrom s k = chunkMembers s (word s.bits k) k ++ membersFrom s (k + 1) := by
  rw [membersFrom, show s.bits.length - k = s.bits.length - (k + 1) + 1 by omega,
    List.range'_succ, List.flatMap_cons]
  rfl

theorem pairwise_membersFrom (s : BitSet) (k : ℕ) : (membersFrom s k).Pairwise (· < ·) := by
  obtain ⟨d, hd⟩ : ∃ d, s.bits.length - k = d := ⟨_, rfl⟩
  induction d generalizing k with
  | zero =>
      rw [membersFrom, hd]
      exact .nil
  | succ d ih =>
      rw [membersFrom_succ s (by omega), List.pairwise_append]
      refine ⟨?_, ih (k + 1) (by omega), fun m hm n hn => ?_⟩
      · refine List.pairwise_map.2 ((pairwise_ones _).imp fun hlt => ?_)
        omega
      · have hm' := (mem_chunkMembers.1 hm).1
        have hn' := (mem_membersFrom.1 hn).1
        omega

theorem nextWord_of_ne_zero (bits : List Word) {w : Word} (hw : w ≠ 0) (idx : ℤ) (fuel : ℕ) :
    nextWord bits w idx fuel = some (w, idx) := by
  cases fuel <;> rw [nextWord, if_pos hw]

theorem iterate_of_ne_zero (s : BitSet) {w : Word} (hw : w ≠ 0) (idx : ℤ) :
    iterate s (w, idx) = some (w.ctz.toNat + (idx + s.offset) * 64, blsr w, idx) := by
  rw [iterate, nextWord_of_ne_zero _ hw]
  rfl

theorem iterate_zero (s : BitSet) {idx : ℤ} (hidx : idx + 1 < s.bits.length) :
    iterate s (0, idx) = iterate s (word s.bits (idx + 1).toNat, idx + 1) := by
  rw [iterate, iterate, show (s.bits.length - (idx + 1)).toNat =
    (s.bits.length - (idx + 1 + 1)).toNat + 1 by omega]
  simp [nextWord]

theorem iterate_end (s : BitSet) {idx : ℤ} (hidx : s.bits.length ≤ idx + 1) :
    iterate s (0, idx) = none := by
  rw [iterate, show (s.bits.length - (idx + 1)).toNat = 0 by omega]
  simp [nextWord]

-- The rest `w` of a chunk is yielded bit by bit, lowest first.
theorem yields_chunk (s : BitSet) {idx : ℤ} {rest : List ℤ}
    (hrest : Yields (iterate s) (iterate s (0, idx)) rest) (w : Word) :
    Yields (iterate s) (iterate s (w, idx)) (chunkMembers s w idx ++ rest) := by
  obtain ⟨d, hd⟩ : ∃ d, (ones w).length = d := ⟨_, rfl⟩
  induction d generalizing w with
  | zero =>
      have hw : w = 0 := by
        by_contra hw
        rw [ones_cons hw] at hd
        simp at hd
      subst hw
      simpa [chunkMembers] using hrest
  | succ d ih =>
      have hw : w ≠ 0 := by
        rintro rfl
        simp at hd
      rw [iterate_of_ne_zero s hw, chunkMembers, ones_cons hw]
      rw [ones_cons hw] at hd
      exact .step (ih (blsr w) (by simpa [blsr] using hd))

theorem yields_membersFrom (s : BitSet) {idx : ℤ} (hidx : -1 ≤ idx) :
    Yields (iterate s) (iterate s (0, idx)) (membersFrom s (idx + 1).toNat) := by
  obtain ⟨d, hd⟩ : ∃ d, (s.bits.length - (idx + 1)).toNat = d := ⟨_, rfl⟩
  induction d generalizing idx with
  | zero =>
      rw [iterate_end s (by omega), membersFrom, Nat.sub_eq_zero_of_le (by omega)]
      exact .done
  | succ d ih =>
      rw [iterate_zero s (by omega), membersFrom_succ s (by omega)]
      have hcast : (((idx + 1).toNat : ℕ) : ℤ) = idx + 1 := by omega
      rw [hcast]
      apply yields_chunk
      rw [show (idx + 1).toNat + 1 = (idx + 1 + 1).toNat by omega]
      exact ih (by omega) (by omega)

-- `iterate` yields the members and stops.
theorem iterate_yields (s : BitSet) : Yields (iterate s) (iterate s (0, -1)) (members s) :=
  yields_membersFrom s (Int.le_refl _)

theorem mem_members {s : BitSet} {n : ℤ} : n ∈ members s ↔ bit s.bits s.offset n = true := by
  rw [members, mem_membersFrom, and_iff_right_iff_imp]
  intro hbit
  by_contra hlt
  rw [bit_of_lt (by omega)] at hbit
  cases hbit

theorem pairwise_members (s : BitSet) : (members s).Pairwise (· < ·) := pairwise_membersFrom s 0

theorem bitcount_eq (s : BitSet) : bitcount s.bits = Int64.ofNat (members s).length := by
  refine Loop.up_invariant (fun t n => n = Int64.ofNat ((List.range' 0 t).flatMap fun i =>
    chunkMembers s (word s.bits i) i).length) (Nat.zero_le _) rfl ?_
  intro t n _ _ hn
  rw [hn, List.range'_concat, List.flatMap_append, List.length_append, Int64.ofNat_add]
  simp [chunkMembers, length_ones]

end Joolia.Bitset

namespace Joolia.Bitset

open Words BitArray

-- The set bit nearest to a starting point, searched upwards and downwards.

theorem bitAt_eq_getLsbD (bc : List Word) (y : ℕ) :
    bitAt bc y = (word bc (y / 64)).getLsbD (y % 64) := rfl

theorem ctz_le {w : Word} {p : ℕ} (h : w.getLsbD p = true) : w.ctz.toNat ≤ p := by
  by_contra hlt
  rw [BitVec.getLsbD_false_of_lt_ctz (by omega)] at h
  cases h

theorem find?_reverse_range_eq_some {p : ℕ → Bool} {n i : ℕ}
    (h : (List.range n).reverse.find? p = some i) :
    p i = true ∧ i < n ∧ ∀ j, i < j → j < n → p j = false := by
  induction n with
  | zero => simp at h
  | succ n ih =>
      rw [List.range_succ, List.reverse_append, List.reverse_singleton, List.singleton_append,
        List.find?_cons] at h
      cases hn : p n with
      | true =>
          rw [hn] at h
          obtain rfl : n = i := by simpa using h
          exact ⟨hn, by omega, fun j _ _ => by omega⟩
      | false =>
          rw [hn] at h
          obtain ⟨hi, hlt, hout⟩ := ih h
          refine ⟨hi, by omega, fun j hij hj => ?_⟩
          by_cases hjn : j = n
          · rw [hjn, hn]
          · exact hout j hij (by omega)

theorem word_ne_zero_of_bitAt {bc : List Word} {y : ℕ} (h : bitAt bc y = true) :
    word bc (y / 64) ≠ 0 := by
  intro hz
  rw [bitAt_eq_getLsbD, hz] at h
  simp at h

theorem lt_of_bitAt {bc : List Word} {y : ℕ} (h : bitAt bc y = true) : y < 64 * bc.length := by
  by_contra hge
  rw [bitAt_of_length_le (by omega)] at h
  cases h

-- The bits of the first chunk at or after `start`.
theorem getLsbD_and_mask (bc : List Word) (start : ℕ) {p : ℕ} (hp : p < 64) :
    (word bc (start / 64) &&& msk64 <<< (start % 64)).getLsbD p =
      ((word bc (start / 64)).getLsbD p && decide (start % 64 ≤ p)) := by
  rw [BitVec.getLsbD_and, getLsbD_msk64_shiftLeft _ hp]

theorem mask_ne_zero {bc : List Word} {start y : ℕ} (hy : start ≤ y) (hk : y / 64 = start / 64)
    (hbit : bitAt bc y = true) :
    (word bc (start / 64) &&& msk64 <<< (start % 64)).getLsbD (y % 64) = true := by
  rw [getLsbD_and_mask _ _ (Nat.mod_lt _ (by omega)), ← hk, ← bitAt_eq_getLsbD, hbit,
    decide_eq_true (by omega)]
  rfl

theorem ne_zero_of_getLsbD {w : Word} {p : ℕ} (h : w.getLsbD p = true) : w ≠ 0 := by
  rintro rfl
  simp at h

theorem unsafeBitfindnext_some {bc : List Word} {start x : ℕ}
    (h : unsafeBitfindnext bc start = some x) :
    bitAt bc x = true ∧ start ≤ x ∧ ∀ y, start ≤ y → bitAt bc y = true → x ≤ y := by
  simp only [unsafeBitfindnext] at h
  split at h
  · cases h
  · split at h
    · rename_i hne
      have hctz := BitVec.getLsbD_true_ctz_of_ne_zero hne
      have hlt := BitVec.lt_of_getLsbD hctz
      rw [getLsbD_and_mask _ _ hlt, Bool.and_eq_true, decide_eq_true_eq] at hctz
      obtain rfl := Option.some.inj h
      rw [Nat.mul_comm, bitAt_word _ _ hlt]
      refine ⟨hctz.1, by omega, fun y hy hbit => ?_⟩
      by_cases hk : y / 64 = start / 64
      · have := ctz_le (mask_ne_zero hy hk hbit)
        omega
      · omega
    · rename_i hz
      obtain ⟨i, hfind, rfl⟩ := Option.map_eq_some_iff.1 h
      obtain ⟨hi, hmem, hbefore⟩ := List.find?_range'_eq_some.1 hfind
      have hctz := BitVec.getLsbD_true_ctz_of_ne_zero (x := word bc i) (by simpa using hi)
      rw [Nat.mul_comm, bitAt_word _ _ (BitVec.lt_of_getLsbD hctz)]
      rw [List.mem_range'_1] at hmem
      refine ⟨hctz, by omega, fun y hy hbit => ?_⟩
      have hne := word_ne_zero_of_bitAt hbit
      have hfirst : y / 64 ≠ start / 64 := fun hk =>
        hz fun h0 => ne_zero_of_getLsbD (mask_ne_zero hy hk hbit) h0
      have hge : i ≤ y / 64 := by
        by_contra hlt
        exact hne (by simpa using hbefore (y / 64) (by omega) (by omega))
      by_cases hk : y / 64 = i
      · rw [bitAt_eq_getLsbD, hk] at hbit
        have := ctz_le hbit
        omega
      · have := BitVec.lt_of_getLsbD hctz
        omega

theorem unsafeBitfindnext_none {bc : List Word} {start y : ℕ}
    (h : unsafeBitfindnext bc start = none) (hy : start ≤ y) : bitAt bc y = false := by
  rw [Bool.eq_false_iff]
  intro hbit
  have hlt := lt_of_bitAt hbit
  simp only [unsafeBitfindnext] at h
  split at h
  · omega
  · split at h
    · cases h
    · rename_i hz
      have hfirst : y / 64 ≠ start / 64 := fun hk =>
        hz fun h0 => ne_zero_of_getLsbD (mask_ne_zero hy hk hbit) h0
      have hout := List.find?_range'_eq_none.1 (Option.map_eq_none_iff.1 h) (y / 64)
        (by omega) (by omega)
      exact word_ne_zero_of_bitAt hbit (by simpa using hout)

theorem topSetBit_spec {w : Word} (hw : w ≠ 0) :
    0 < topSetBit w ∧ topSetBit w ≤ 64 ∧ w.getLsbD (topSetBit w - 1) = true ∧
      ∀ p, w.getLsbD p = true → p ≤ topSetBit w - 1 := by
  obtain ⟨hmem, hmax⟩ := mem_ones_top hw
  have hlt := BitVec.clz_lt_iff_ne_zero.2 hw
  rw [BitVec.lt_def] at hlt
  have hlt' : w.clz.toNat < 64 := hlt
  rw [mem_ones] at hmem
  have htop : topSetBit w - 1 = 63 - w.clz.toNat := by
    unfold topSetBit
    omega
  rw [htop]
  refine ⟨by unfold topSetBit; omega, by unfold topSetBit; omega, hmem, fun p hp => ?_⟩
  exact hmax p (mem_ones.2 hp)

-- The bits of the last chunk at or before `start`.
theorem getLsbD_and_mskEnd (bc : List Word) (start : ℕ) {p : ℕ} (hp : p < 64) :
    (word bc (start / 64) &&& mskEnd (start + 1)).getLsbD p =
      ((word bc (start / 64)).getLsbD p && decide (p ≤ start % 64)) := by
  rw [BitVec.getLsbD_and, getLsbD_mskEnd _ hp]
  congr 1
  rw [decide_eq_decide]
  omega

theorem mskEnd_ne_zero {bc : List Word} {start y : ℕ} (hy : y ≤ start) (hk : y / 64 = start / 64)
    (hbit : bitAt bc y = true) :
    (word bc (start / 64) &&& mskEnd (start + 1)).getLsbD (y % 64) = true := by
  rw [getLsbD_and_mskEnd _ _ (Nat.mod_lt _ (by omega)), ← hk, ← bitAt_eq_getLsbD, hbit,
    decide_eq_true (by omega)]
  rfl

theorem unsafeBitfindprev_some {bc : List Word} {start x : ℕ}
    (h : unsafeBitfindprev bc start = some x) :
    bitAt bc x = true ∧ x ≤ start ∧ ∀ y, y ≤ start → bitAt bc y = true → y ≤ x := by
  simp only [unsafeBitfindprev] at h
  split at h
  · rename_i hne
    obtain ⟨hpos, hle, htop, hmax⟩ := topSetBit_spec hne
    have hlt := BitVec.lt_of_getLsbD htop
    rw [getLsbD_and_mskEnd _ _ hlt, Bool.and_eq_true, decide_eq_true_eq] at htop
    obtain rfl := Option.some.inj h
    rw [Nat.mul_comm, Nat.add_sub_assoc hpos, bitAt_word _ _ hlt]
    refine ⟨htop.1, by omega, fun y hy hbit => ?_⟩
    by_cases hk : y / 64 = start / 64
    · have := hmax _ (mskEnd_ne_zero hy hk hbit)
      omega
    · omega
  · rename_i hz
    obtain ⟨i, hfind, rfl⟩ := Option.map_eq_some_iff.1 h
    obtain ⟨hi, hmem, hafter⟩ := find?_reverse_range_eq_some hfind
    obtain ⟨hpos, hle, htop, hmax⟩ := topSetBit_spec (w := word bc i) (by simpa using hi)
    rw [Nat.mul_comm, Nat.add_sub_assoc hpos, bitAt_word _ _ (BitVec.lt_of_getLsbD htop)]
    refine ⟨htop, by omega, fun y hy hbit => ?_⟩
    have hne := word_ne_zero_of_bitAt hbit
    have hfirst : y / 64 ≠ start / 64 := fun hk =>
      hz fun h0 => ne_zero_of_getLsbD (mskEnd_ne_zero hy hk hbit) h0
    have hge : y / 64 ≤ i := by
      by_contra hlt
      exact hne (by simpa using hafter (y / 64) (by omega) (by omega))
    by_cases hk : y / 64 = i
    · rw [bitAt_eq_getLsbD, hk] at hbit
      have := hmax _ hbit
      omega
    · omega

theorem unsafeBitfindprev_none {bc : List Word} {start y : ℕ}
    (h : unsafeBitfindprev bc start = none) (hy : y ≤ start) : bitAt bc y = false := by
  rw [Bool.eq_false_iff]
  intro hbit
  simp only [unsafeBitfindprev] at h
  split at h
  · cases h
  · rename_i hz
    have hfirst : y / 64 ≠ start / 64 := fun hk =>
      hz fun h0 => ne_zero_of_getLsbD (mskEnd_ne_zero hy hk hbit) h0
    have hout := List.find?_eq_none.1 (Option.map_eq_none_iff.1 h) (y / 64)
      (by simp; omega)
    exact word_ne_zero_of_bitAt hbit (by simpa using hout)

section Ends

variable (s : BitSet)

theorem exists_bitAt {s : BitSet} {n : ℤ} (hn : n ∈ members s) :
    ∃ y : ℕ, n = 64 * s.offset + y ∧ bitAt s.bits y = true := by
  rw [mem_members] at hn
  have hlo : 64 * s.offset ≤ n := by
    by_contra hlt
    rw [bit_of_lt (by omega)] at hn
    cases hn
  obtain ⟨y, hy⟩ : ∃ y : ℕ, n = 64 * s.offset + y := ⟨(n - 64 * s.offset).toNat, by omega⟩
  rw [hy, bit_eq_bitAt] at hn
  exact ⟨y, hy, hn⟩

theorem mem_members_of_bitAt {s : BitSet} {y : ℕ} (hy : bitAt s.bits y = true) :
    (y : ℤ) + s.offset * 64 ∈ members s := by
  rw [mem_members, show (y : ℤ) + s.offset * 64 = 64 * s.offset + y by omega, bit_eq_bitAt, hy]

-- `first` and `last` are the ends of the sorted list of members.
theorem first_spec : (members s = [] ∧ first s = .error (.ArgumentError "collection must be non-empty")) ∨
    ∃ n, first s = .ok n ∧ n ∈ members s ∧ ∀ m ∈ members s, n ≤ m := by
  cases hfind : unsafeBitfindnext s.bits 0 with
  | none =>
      left
      have hnone : members s = [] := by
        rw [List.eq_nil_iff_forall_not_mem]
        intro n hn
        obtain ⟨y, -, hy⟩ := exists_bitAt hn
        rw [unsafeBitfindnext_none hfind (Nat.zero_le y)] at hy
        cases hy
      exact ⟨hnone, by simp [first, bitsFindnext, hfind]⟩
  | some x =>
      right
      obtain ⟨hx, -, hmin⟩ := unsafeBitfindnext_some hfind
      have hlt := lt_of_bitAt hx
      refine ⟨x + s.offset * 64, ?_, mem_members_of_bitAt hx, fun m hm => ?_⟩
      · have hlen : ¬s.bits.length = 0 := by omega
        have hneg : ¬(x : ℤ) = -1 := by omega
        simp [first, bitsFindnext, hfind, hlen, hneg]
      · obtain ⟨y, rfl, hy⟩ := exists_bitAt hm
        have := hmin y (Nat.zero_le y) hy
        omega

theorem last_spec : (members s = [] ∧ last s = .error (.ArgumentError "collection must be non-empty")) ∨
    ∃ n, last s = .ok n ∧ n ∈ members s ∧ ∀ m ∈ members s, m ≤ n := by
  by_cases hlen : s.bits.length = 0
  · left
    have hnone : members s = [] := by
      rw [List.eq_nil_iff_forall_not_mem]
      intro n hn
      obtain ⟨y, -, hy⟩ := exists_bitAt hn
      have := lt_of_bitAt hy
      omega
    exact ⟨hnone, by simp [last, bitsFindprev, hlen]⟩
  · have hstart : ((s.bits.length : ℤ) * 64 - 1).toNat = s.bits.length * 64 - 1 := by omega
    have hnonneg : (s.bits.length : ℤ) * 64 - 1 ≥ 0 := by omega
    cases hfind : unsafeBitfindprev s.bits (s.bits.length * 64 - 1) with
    | none =>
        left
        have hnone : members s = [] := by
          rw [List.eq_nil_iff_forall_not_mem]
          intro n hn
          obtain ⟨y, -, hy⟩ := exists_bitAt hn
          have := lt_of_bitAt hy
          rw [unsafeBitfindprev_none hfind (by omega)] at hy
          cases hy
        refine ⟨hnone, ?_⟩
        simp only [last, bitsFindprev, if_pos hnonneg, hstart, hfind, if_true]
    | some x =>
        right
        obtain ⟨hx, -, hmax⟩ := unsafeBitfindprev_some hfind
        have hneg : ¬(x : ℤ) = -1 := by omega
        refine ⟨x + s.offset * 64, ?_, mem_members_of_bitAt hx, fun m hm => ?_⟩
        · simp only [last, bitsFindprev, if_pos hnonneg, hstart, hfind, if_neg hneg]
        · obtain ⟨y, rfl, hy⟩ := exists_bitAt hm
          have := lt_of_bitAt hy
          have := hmax y (by omega) hy
          omega

end Ends

end Joolia.Bitset
