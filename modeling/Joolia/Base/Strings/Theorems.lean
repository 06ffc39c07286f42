import Joolia.Base.Strings.Steps

namespace Joolia.Strings

open Fallible Packing

-- What one call of `iterate` takes from the string.
structure Block where
  start : ℕ
  stop : ℕ
  char : Chr

-- Repeatedly applying `iterate` from index `i` on yields the blocks and then ends.
inductive Yields (s : Str) : ℕ → List Block → Prop
  | done {i : ℕ} : iterate s i = .ok none → Yields s i []
  | next {i j : ℕ} {c : Chr} {rest : List Block} :
      iterate s i = .ok (some (c, (j : ℤ))) → Yields s j rest → Yields s i (⟨i, j, c⟩ :: rest)

section Blocks

variable {s : Str} {k e i : ℕ}

theorem Covers.byteAt_ne_zero (h : Covers s.data k i) : byteAt s.data i ≠ 0#8 := by
  intro hzero
  have hcont := h.continuation i h.lt le_rfl
  rw [hzero] at hcont
  exact absurd hcont (by decide)

theorem length_slice (data : List Byte) (k e : ℕ) : (slice data k e).length = e - k := by simp [slice]

theorem byteAt_slice {data : List Byte} {j : ℕ} (hj : k + j < e) : byteAt (slice data k e) j = byteAt data (k + j) := by
  simp [slice, byteAt, show j < e - k by omega]

theorem slice_append {data : List Byte} {m : ℕ} (hk : k ≤ m) (hm : m ≤ e) :
    slice data k m ++ slice data m e = slice data k e := by
  obtain ⟨d, rfl⟩ := Nat.exists_eq_add_of_le hk
  rw [slice, slice, slice, ← List.map_append, Nat.add_sub_cancel_left, List.range'_append_1,
    show d + (e - (k + d)) = e - k by omega]

theorem slice_eq_take {data : List Byte} (he : e ≤ data.length) : slice data k e = (data.drop k).take (e - k) := by
  apply List.ext_getElem
  · simp [slice]
    omega
  · intro j hj hj'
    rw [length_slice] at hj
    simp [slice, byteAt, show k + j < data.length by omega]

theorem slice_all (data : List Byte) : slice data 0 data.length = data := by
  apply List.ext_getElem
  · simp [slice]
  · intro j _ hj
    simp [slice, byteAt, hj]

theorem Spans.writeChar_eq (h : Spans s.data k e) : writeChar (charOf (slice s.data k e)) = slice s.data k e := by
  have hlt := h.lt
  have hle : e ≤ k + 4 := by
    by_contra hgt
    have := (h.covers (k + 4) (by omega) (by omega)).le_three
    omega
  apply writeChar_charOf
  · rw [length_slice]
    omega
  · rw [length_slice]
    omega
  · intro j hj hlen
    rw [length_slice] at hlen
    rw [byteAt_slice (by omega)]
    exact (h.covers (k + j) (by omega) (by omega)).byteAt_ne_zero

-- A block of the list is a block of the partition, with the character of its bytes.
structure Block.OK (s : Str) (b : Block) : Prop where
  isBlock : IsBlock s.data b.start b.stop
  char_eq : b.char = charOf (slice s.data b.start b.stop)

-- What the iteration from the index `k` on has yielded.
structure Tiling (s : Str) (k : ℕ) (blocks : List Block) : Prop where
  yields : Yields s k blocks
  ok : ∀ b ∈ blocks, b.OK s
  cover : ∀ i, k ≤ i → i < s.data.length → ∃ b ∈ blocks, b.start ≤ i ∧ i < b.stop
  bytes : blocks.flatMap (fun b => writeChar b.char) = slice s.data k s.data.length
  sorted : blocks.Pairwise fun b b' => b.start < b'.start
  ge : ∀ b ∈ blocks, k ≤ b.start

theorem exists_tiling (h : k = s.data.length ∨ IsStart s.data k) : ∃ blocks, Tiling s k blocks := by
  induction hd : s.data.length - k using Nat.strong_induction_on generalizing k with
  | _ d ih =>
      rcases h with rfl | hstart
      · refine ⟨[], .done iterate_end, by simp, fun i hi hi' => by omega, by simp [slice], .nil, by simp⟩
      · obtain ⟨e, hspans⟩ := exists_spans hstart.1
        have hlt := hspans.lt
        have hle := hspans.le
        have hblock : IsBlock s.data k e := ⟨hstart, hspans⟩
        have hnext : e = s.data.length ∨ IsStart s.data e := by
          rcases Nat.eq_or_lt_of_le hle with heq | hlt
          · exact .inl heq
          · exact .inr (hblock.isStart_stop hlt)
        obtain ⟨rest, hrest⟩ := ih (s.data.length - e) (by omega) hnext rfl
        refine ⟨⟨k, e, charOf (slice s.data k e)⟩ :: rest, .next hspans.iterate_eq hrest.yields, ?_, ?_, ?_, ?_, ?_⟩
        · simp only [List.mem_cons, forall_eq_or_imp]
          exact ⟨⟨hblock, rfl⟩, hrest.ok⟩
        · intro i hi hi'
          by_cases hie : i < e
          · exact ⟨_, List.mem_cons_self, hi, hie⟩
          · obtain ⟨b, hb, hbi⟩ := hrest.cover i (by omega) hi'
            exact ⟨b, List.mem_cons_of_mem _ hb, hbi⟩
        · rw [List.flatMap_cons, hrest.bytes, hspans.writeChar_eq, slice_append hlt.le hle]
        · exact .cons (fun b hb => hlt.trans_le (hrest.ge b hb)) hrest.sorted
        · simp only [List.mem_cons, forall_eq_or_imp]
          exact ⟨le_rfl, fun b hb => hlt.le.trans (hrest.ge b hb)⟩

theorem Tiling.mem_starts {blocks : List Block} (h : Tiling s 0 blocks) :
    i ∈ blocks.map Block.start ↔ IsStart s.data i := by
  rw [List.mem_map]
  constructor
  · rintro ⟨b, hb, rfl⟩
    exact (h.ok b hb).isBlock.start
  · intro hi
    obtain ⟨b, hb, hle, hlt⟩ := h.cover i (Nat.zero_le i) hi.1
    exact ⟨b, hb, (((h.ok b hb).isBlock.isStart_iff hle hlt).1 hi).symm⟩

-- The blocks that start among `m` indices from `i` on.
theorem Tiling.countP_eq {blocks : List Block} (h : Tiling s 0 blocks) {m : ℕ} (hm : i + m ≤ s.data.length) :
    (blocks.countP (fun b => i ≤ b.start ∧ b.start < i + m) : ℤ) = m - coveredIn s.data i m := by
  classical
  have hnodup : ((blocks.map Block.start).filter fun j => i ≤ j ∧ j < i + m).Nodup :=
    ((List.pairwise_map.2 h.sorted).imp fun hlt => hlt.ne).filter _
  have hperm : ((blocks.map Block.start).filter fun j => i ≤ j ∧ j < i + m).Perm
      ((List.range' i m).filter fun j => ¬∃ k, Covers s.data k j) := by
    rw [List.perm_ext_iff_of_nodup hnodup ((List.nodup_range' ..).filter _)]
    intro j
    simp only [List.mem_filter, h.mem_starts, List.mem_range'_1, decide_eq_true_eq, IsStart, not_exists]
    constructor
    · rintro ⟨⟨-, hnot⟩, hj⟩
      exact ⟨hj, hnot⟩
    · rintro ⟨hj, hnot⟩
      exact ⟨⟨by omega, hnot⟩, hj⟩
  have hlen := hperm.length_eq
  have hsum := List.length_eq_countP_add_countP (fun j => decide (∃ k, Covers s.data k j)) (l := List.range' i m)
  rw [← List.countP_eq_length_filter, List.countP_map, ← List.countP_eq_length_filter] at hlen
  simp only [List.length_range', decide_not, Bool.decide_eq_true] at hsum hlen
  have hcov : coveredIn s.data i m = (List.range' i m).countP fun j => decide (∃ k, Covers s.data k j) := rfl
  simp only [Function.comp_def] at hlen
  omega

end Blocks

-- The answers of the index functions at an index `i` within the block `b`.
structure Block.Describes (s : Str) (b : Block) (i : ℕ) : Prop where
  nextind_eq : nextind s i = .ok (b.stop : ℤ)
  thisind_eq : thisind s i = .ok (b.start : ℤ)
  getindex_iff : getindex s i = .ok b.char ↔ isvalid s i = .ok true
  getindex_error : isvalid s i ≠ .ok true → getindex s i = .error (.stringIndexError i)
  isvalid_iff : isvalid s i = .ok true ↔ thisind s i = .ok (i : ℤ)
  -- from the index after, `prevind` comes back to this block
  prevind_eq : prevind s (i + 1) = .ok (b.start : ℤ)

theorem Block.OK.describes {s : Str} {b : Block} (h : b.OK s) {i : ℕ} (hle : b.start ≤ i) (hlt : i < b.stop) :
    b.Describes s i := by
  have hblock := h.isBlock
  have hthis := hblock.thisind_eq hle hlt
  have hvalid := isvalid_eq hblock hle hlt
  have hprev := hblock.prevind_eq hle hlt
  refine ⟨hblock.nextind_eq hle hlt, hthis, ?_, ?_, ?_, by exact_mod_cast hprev⟩
  · by_cases heq : i = b.start
    · subst heq
      simp [hblock.getindex_eq, hvalid, h.char_eq]
    · simp [hblock.getindex_error (by omega) hlt, hvalid, heq]
  · intro hne
    refine hblock.getindex_error ?_ hlt
    by_contra hge
    exact hne (by rw [hvalid, decide_eq_true (by omega)])
  · rw [hvalid, hthis]
    simp only [Except.ok.injEq, decide_eq_true_eq, Nat.cast_inj]
    exact eq_comm

theorem thisind_ok {s : Str} {i : ℤ} (hi : -1 ≤ i) (hiN : i ≤ ncodeunits s) : ∃ k, thisind s i = .ok k := by
  have hN : ncodeunits s = s.data.length := rfl
  by_cases hneg : i = -1
  · exact ⟨-1, by simp [thisind, hneg]⟩
  by_cases hend : i = ncodeunits s
  · exact ⟨i, by rw [thisind, if_neg hneg, if_pos hend]; rfl⟩
  obtain ⟨i, rfl⟩ := Int.eq_ofNat_of_zero_le (show 0 ≤ i by omega)
  obtain ⟨k, hk, -⟩ := thisind_spec (s := s) (i := i) (by omega)
  exact ⟨k, hk⟩

-- Every index function is read off the blocks that `iterate` yields from index 0 on.
theorem index_functions_describe_blocks (s : Str) : ∃ blocks : List Block, Yields s 0 blocks ∧
    blocks.flatMap (fun b => writeChar b.char) = s.data ∧
    (∀ b ∈ blocks, b.start < b.stop ∧ writeChar b.char = (s.data.drop b.start).take (b.stop - b.start)) ∧
    (∀ i < s.data.length, ∃ b ∈ blocks, b.start ≤ i ∧ i < b.stop) ∧
    (∀ b ∈ blocks, ∀ i, b.start ≤ i → i < b.stop → b.Describes s i) ∧
    nextind s (-1) = .ok 0 ∧ prevind s 0 = .ok (-1) ∧
    length s = .ok (blocks.length : ℤ) ∧
    (∀ i j : ℤ, 0 ≤ i → i ≤ ncodeunits s → -1 ≤ j → j < ncodeunits s →
      lengthBetween s i j = .ok (blocks.countP fun b => i ≤ b.start ∧ b.start ≤ j : ℕ)) ∧
    (∀ (i : ℤ) (n : ℕ), -1 ≤ i → i < ncodeunits s → 0 < n → nextindN s i n = .ok (wrap ((nextStep s)^[n] i))) ∧
    (∀ (i : ℤ) (n : ℕ), 0 ≤ i → i ≤ ncodeunits s → 0 < n → previndN s i n = .ok ((prevStep s)^[n] i)) ∧
    (∀ i : ℤ, -1 ≤ i → i < ncodeunits s → if thisind s i = .ok i then nextindN s i 0 = .ok i else
      nextindN s i 0 = .error (.stringIndexError i)) ∧
    ∀ i : ℤ, 0 ≤ i → i ≤ ncodeunits s → if thisind s i = .ok i then previndN s i 0 = .ok i else
      previndN s i 0 = .error (.stringIndexError i) := by
  have hN : ncodeunits s = s.data.length := rfl
  have hfirst : 0 = s.data.length ∨ IsStart s.data 0 := by
    rcases Nat.eq_zero_or_pos s.data.length with hzero | hpos
    · exact .inl hzero.symm
    · exact .inr (isStart_zero hpos)
  obtain ⟨blocks, h⟩ := exists_tiling hfirst
  refine ⟨blocks, h.yields, by rw [h.bytes, slice_all], ?_, fun i hi => h.cover i (Nat.zero_le i) hi,
    fun b hb i hle hlt => (h.ok b hb).describes hle hlt, rfl, prevind_zero, ?_, ?_, ?_, ?_, ?_, ?_⟩
  · intro b hb
    have hspans := (h.ok b hb).isBlock.spans
    exact ⟨hspans.lt, by rw [(h.ok b hb).char_eq, hspans.writeChar_eq, slice_eq_take hspans.le]⟩
  · have hcount := h.countP_eq (i := 0) (m := s.data.length) (by omega)
    have hall : blocks.countP (fun b => 0 ≤ b.start ∧ b.start < 0 + s.data.length) = blocks.length := by
      rw [List.countP_eq_length]
      intro b hb
      simpa using (h.ok b hb).isBlock.start.1
    rw [length_spec, ← hcount, hall]
  · intro i j hi hiN hj hjN
    by_cases hlt : j < i
    · have hnone : blocks.countP (fun b => i ≤ b.start ∧ b.start ≤ j) = 0 := by
        rw [List.countP_eq_zero]
        intro b _
        simp only [decide_eq_true_eq]
        omega
      rw [lengthBetween, if_neg (by omega), if_neg (by omega), if_pos hlt, hnone]
      rfl
    · obtain ⟨i, rfl⟩ := Int.eq_ofNat_of_zero_le hi
      obtain ⟨j, rfl⟩ := Int.eq_ofNat_of_zero_le (show 0 ≤ j by omega)
      have hcount := h.countP_eq (i := i) (m := j + 1 - i) (by omega)
      rw [lengthBetween_spec (by omega) (by omega), ← hcount]
      congr 2
      refine List.countP_congr fun b _ => ?_
      simp only [decide_eq_true_eq]
      omega
  · intro i n hi hiN hn
    rw [nextindN, if_neg (by omega), if_neg (by omega), if_neg (by omega)]
    rcases eq_or_lt_of_le hi with rfl | hpos
    · rw [show (ncodeunits s - 1 - -1).toNat = s.data.length by omega]
      exact nextindLoop_neg_one n
    · obtain ⟨i, rfl⟩ := Int.eq_ofNat_of_zero_le (show 0 ≤ i by omega)
      rw [show (ncodeunits s - 1 - i).toNat = s.data.length - 1 - i by omega]
      exact nextindLoop_spec n (by omega)
  · intro i n hi hiN hn
    obtain ⟨i, rfl⟩ := Int.eq_ofNat_of_zero_le hi
    rw [previndN_eq (by omega) hn, previndLoop_spec n (by omega)]
  · intro i hi hiN
    obtain ⟨k, hk⟩ := thisind_ok hi hiN.le
    have hin : -1 ≤ i ∧ i ≤ ncodeunits s - 1 := ⟨hi, by omega⟩
    by_cases hki : k = i <;> simp [nextindN, hk, hki, hin]
  · intro i hi hiN
    obtain ⟨k, hk⟩ := thisind_ok (show -1 ≤ i by omega) hiN
    have hin : 0 ≤ i ∧ i ≤ ncodeunits s := ⟨hi, hiN⟩
    by_cases hki : k = i <;> simp [previndN, hk, hki, hin]

-- Two characters of two bytes each.
def twoLetters : Str := ⟨[0xce, 0xb1, 0xce, 0xb2], by decide⟩

-- From within the second character `prevind` goes to the start of that same character,
-- not to the start of the one before.
theorem prevind_within_block : Yields twoLetters 0 [⟨0, 2, 0xceb10000⟩, ⟨2, 4, 0xceb20000⟩] ∧
    thisind twoLetters 3 = .ok 2 ∧ prevind twoLetters 3 = .ok 2 ∧ prevind twoLetters 3 ≠ .ok 0 :=
  ⟨.next (by decide) (.next (by decide) (.done (by decide))), by decide, by decide, by decide⟩

end Joolia.Strings
