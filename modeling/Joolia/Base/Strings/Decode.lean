import Joolia.Base.Strings.Blocks
import Joolia.Library.Packing

namespace Joolia.Strings

open Fallible Packing

-- The bytes at the indices `k, ..., e - 1`.
def slice (data : List Byte) (k e : ℕ) : List Byte := (List.range' k (e - k)).map (byteAt data)

-- The character that holds the given bytes.
def charOf (l : List Byte) : Chr := pack (byteAt l 0) (byteAt l 1) (byteAt l 2) (byteAt l 3)

section Decode

variable {s : Str} {k e : ℕ}

theorem writeChar_pack (b0 b1 b2 b3 : Byte) :
    writeChar (pack b0 b1 b2 b3) =
      b0 :: if b3 = 0#8 ∧ b2 = 0#8 ∧ b1 = 0#8 then [] else
        b1 :: if b3 = 0#8 ∧ b2 = 0#8 then [] else b2 :: if b3 = 0#8 then [] else [b3] := by
  have hswap : bswap (pack b0 b1 b2 b3) = pack b3 b2 b1 b0 := by
    rw [bswap, extract_pack_zero, extract_pack_one, extract_pack_two, extract_pack_three, pack]
  simp only [writeChar, hswap, writeLoop, truncate_pack, pack_shiftRight, BitVec.ofNat_eq_ofNat, pack_eq_zero, true_and, ite_self]

-- A character holds the bytes it was decoded from: the ones after the first are not zero.
theorem writeChar_charOf {l : List Byte} (hpos : 0 < l.length) (hle : l.length ≤ 4)
    (hne : ∀ j, 0 < j → j < l.length → byteAt l j ≠ 0#8) : writeChar (charOf l) = l := by
  rcases l with _ | ⟨b0, _ | ⟨b1, _ | ⟨b2, _ | ⟨b3, _ | ⟨b4, l⟩⟩⟩⟩⟩
  · simp at hpos
  · exact writeChar_pack b0 0#8 0#8 0#8
  · have h1 : b1 ≠ 0#8 := hne 1 (by simp) (by simp)
    exact (writeChar_pack b0 b1 0#8 0#8).trans (by simp [h1])
  · have h2 : b2 ≠ 0#8 := hne 2 (by simp) (by simp)
    exact (writeChar_pack b0 b1 b2 0#8).trans (by simp [h2])
  · have h3 : b3 ≠ 0#8 := hne 3 (by simp) (by simp)
    exact (writeChar_pack b0 b1 b2 b3).trans (by simp [h3])
  · simp only [List.length_cons] at hle
    omega

theorem slice_one : slice s.data k (k + 1) = [byteAt s.data k] := by simp [slice]

theorem slice_two : slice s.data k (k + 2) = [byteAt s.data k, byteAt s.data (k + 1)] := by
  simp [slice, List.range']

theorem slice_three : slice s.data k (k + 3) = [byteAt s.data k, byteAt s.data (k + 1), byteAt s.data (k + 2)] := by
  simp [slice, List.range']

theorem slice_four : slice s.data k (k + 4) =
    [byteAt s.data k, byteAt s.data (k + 1), byteAt s.data (k + 2), byteAt s.data (k + 3)] := by
  simp [slice, List.range']

-- The comparisons of a character with a leading byte look at its first byte.
theorem pack_lt {b0 b1 b2 b3 : Byte} {l : BitVec 32} (m : ℕ) (hl : l.toNat = m * 2 ^ 24) :
    pack b0 b1 b2 b3 < l ↔ b0.toNat < m := by
  have := b1.isLt
  have := b2.isLt
  have := b3.isLt
  rw [BitVec.lt_def, toNat_pack, hl]
  omega

theorem le_need_iff (b : Byte) (hb : between b 0x80 0xf7 = true) :
    (1 ≤ need b ↔ 0xc0 ≤ b.toNat) ∧ (2 ≤ need b ↔ 0xe0 ≤ b.toNat) ∧ (3 ≤ need b ↔ 0xf0 ≤ b.toNat) := by
  rw [between_iff] at hb
  simp only [BitVec.ofNat_eq_ofNat, BitVec.toNat_ofNat] at hb
  unfold need
  split_ifs <;> omega

theorem iterateContinued_spec (hk : k < s.data.length) (hb : between (byteAt s.data k) 0x80 0xf7 = true) :
    ∃ e : ℕ, Spans s.data k e ∧
      iterateContinued s k (pack (byteAt s.data k) 0#8 0#8 0#8) = .ok (charOf (slice s.data k e), (e : ℤ)) := by
  obtain ⟨hone, htwo, hthree⟩ := le_need_iff _ hb
  have hn : ncodeunits s = s.data.length := rfl
  simp only [iterateContinued, pure_eq_ok, BitVec.ofNat_eq_ofNat]
  by_cases h1 : 1 ≤ need (byteAt s.data k)
  swap
  · refine ⟨k + 1, .of_need_eq_zero hk (by omega), ?_⟩
    rw [if_pos ((pack_lt 0xc0 rfl).2 (by omega)), slice_one]
    rfl
  rw [if_neg (mt (pack_lt 0xc0 rfl).1 (by omega))]
  -- first continuation byte
  by_cases hlen1 : k + 1 < s.data.length
  swap
  · refine ⟨k + 1, .single hk fun h => hlen1 h.inBounds, ?_⟩
    simp only [if_pos (show (k : ℤ) + 1 ≥ ncodeunits s by omega), slice_one]
    rfl
  simp only [if_neg (show ¬(k : ℤ) + 1 ≥ ncodeunits s by omega), ok_bind,
    codeunit_eq (s := s) (k := k + 1) (z := (k : ℤ) + 1) (by omega) hlen1]
  by_cases hc1 : isContinuation (byteAt s.data (k + 1)) = true
  swap
  · refine ⟨k + 1, .single hk fun h => hc1 (covers_one.1 h).2.2, ?_⟩
    rw [if_pos hc1, slice_one]
    rfl
  have hcov1 : Covers s.data k (k + 1) := covers_one.2 ⟨hlen1, h1, hc1⟩
  simp only [if_neg (not_not.2 hc1), shiftLeft_second, pack_or, BitVec.or_zero, BitVec.zero_or]
  -- second continuation byte
  by_cases h2 : k + 2 < s.data.length ∧ 2 ≤ need (byteAt s.data k)
  swap
  · refine ⟨k + 2, .of_last hcov1 fun h => h2 ⟨h.inBounds, (covers_two.1 h).2.1⟩, ?_⟩
    rw [if_pos (by rw [pack_lt 0xe0 rfl]; omega), slice_two]
    rfl
  simp only [if_neg (show ¬((k : ℤ) + 1 + 1 ≥ ncodeunits s ∨ pack (byteAt s.data k) (byteAt s.data (k + 1)) 0#8 0#8 < 3758096384#32) by
    rw [pack_lt 0xe0 rfl]; omega), ok_bind, codeunit_eq (s := s) (k := k + 2) (z := (k : ℤ) + 1 + 1) (by omega) h2.1]
  by_cases hc2 : isContinuation (byteAt s.data (k + 2)) = true
  swap
  · refine ⟨k + 2, .of_last hcov1 fun h => hc2 (covers_two.1 h).2.2.2, ?_⟩
    rw [if_pos hc2, slice_two]
    rfl
  have hcov2 : Covers s.data k (k + 2) := covers_two.2 ⟨h2.1, h2.2, hc1, hc2⟩
  simp only [if_neg (not_not.2 hc2), shiftLeft_third, pack_or, BitVec.or_zero, BitVec.zero_or]
  -- third continuation byte
  by_cases h3 : k + 3 < s.data.length ∧ 3 ≤ need (byteAt s.data k)
  swap
  · refine ⟨k + 3, .of_last hcov2 fun h => h3 ⟨h.inBounds, (covers_three.1 h).2.1⟩, ?_⟩
    rw [if_pos (by rw [pack_lt 0xf0 rfl]; omega), slice_three]
    rfl
  simp only [if_neg (show ¬((k : ℤ) + 1 + 1 + 1 ≥ ncodeunits s ∨
      pack (byteAt s.data k) (byteAt s.data (k + 1)) (byteAt s.data (k + 2)) 0#8 < 4026531840#32) by
    rw [pack_lt 0xf0 rfl]; omega), ok_bind, codeunit_eq (s := s) (k := k + 3) (z := (k : ℤ) + 1 + 1 + 1) (by omega) h3.1]
  by_cases hc3 : isContinuation (byteAt s.data (k + 3)) = true
  swap
  · refine ⟨k + 3, .of_last hcov2 fun h => hc3 (covers_three.1 h).2.2.2.2, ?_⟩
    rw [if_pos hc3, slice_three]
    rfl
  have hcov3 : Covers s.data k (k + 3) := covers_three.2 ⟨h3.1, h3.2, hc1, hc2, hc3⟩
  refine ⟨k + 4, .of_last hcov3 fun h => absurd h.le_three (by omega), ?_⟩
  simp only [if_neg (not_not.2 hc3), zeroExtend_fourth, pack_or, BitVec.or_zero, BitVec.zero_or]
  rw [slice_four]
  rfl

-- The decoder behind `s[i]` reads what `iterate` reads.
theorem getindexContinued_eq {i : ℤ} {u : Chr} (hu : ¬u < 0xc0000000) :
    getindexContinued s i u = (iterateContinued s i u).map Prod.fst := by
  simp only [getindexContinued, iterateContinued, if_neg hu]
  split
  · rfl
  rcases codeunit s (i + 1) with e | b
  · rfl
  simp only [ok_bind]
  split
  · rfl
  split
  · rfl
  rcases codeunit s (i + 1 + 1) with e | b
  · rfl
  simp only [ok_bind]
  split
  · rfl
  split
  · rfl
  rcases codeunit s (i + 1 + 1 + 1) with e | b
  · rfl
  simp only [ok_bind]
  split <;> rfl

-- The scan of `nextind` stops where `iterate` does.
theorem nextindForward_eq {i : ℤ} {l : Byte} (hl : 0xc0 ≤ l.toNat) :
    nextindForward s i (ncodeunits s) l = (iterateContinued s i (pack l 0#8 0#8 0#8)).map Prod.snd := by
  have h2 : ∀ b : Byte, pack l 0#8 0#8 0#8 ||| BitVec.zeroExtend 32 b <<< 16 < 0xe0000000 ↔ l < 0xe0 := by
    intro b
    rw [shiftLeft_second, pack_or, BitVec.or_zero, pack_lt 0xe0 rfl]
    rfl
  have h3 : ∀ b b' : Byte, pack l 0#8 0#8 0#8 ||| BitVec.zeroExtend 32 b <<< 16 |||
      BitVec.zeroExtend 32 b' <<< 8 < 0xf0000000 ↔ l < 0xf0 := by
    intro b b'
    rw [shiftLeft_second, shiftLeft_third, pack_or, pack_or, BitVec.or_zero, BitVec.or_zero, pack_lt 0xf0 rfl]
    rfl
  have h1 : ¬pack l 0#8 0#8 0#8 < 0xc0000000 := mt (pack_lt 0xc0 rfl).1 (Nat.not_lt.2 hl)
  simp only [nextindForward, iterateContinued, if_neg h1, h2, h3]
  split
  · rfl
  rcases codeunit s (i + 1) with e | b
  · rfl
  simp only [ok_bind]
  split
  · rfl
  split
  · rfl
  rcases codeunit s (i + 1 + 1) with e | b
  · rfl
  simp only [ok_bind]
  split
  · rfl
  split
  · rfl
  rcases codeunit s (i + 1 + 1 + 1) with e | b
  · rfl
  simp only [ok_bind]
  split <;> rfl

theorem need_eq_zero_of_not_between {b : Byte} (hb : ¬between b 0x80 0xf7 = true) : need b = 0 := by
  by_contra hne
  exact hb ((between_long b).2 (.inr (by omega)))

theorem iterate_spec (hk : k < s.data.length) :
    ∃ e : ℕ, Spans s.data k e ∧ iterate s k = .ok (some (charOf (slice s.data k e), (e : ℤ))) := by
  have hlt := s.length_lt
  have hn : (k : ℤ) % 2 ^ 64 < ncodeunits s := by
    simp only [ncodeunits]
    omega
  simp only [iterate, if_neg (not_not.2 hn), codeunit_eq (s := s) rfl hk, ok_bind, shiftLeft_first, pure_eq_ok]
  by_cases hb : between (byteAt s.data k) 0x80 0xf7 = true
  · obtain ⟨e, hspans, heq⟩ := iterateContinued_spec hk hb
    exact ⟨e, hspans, by rw [if_neg (not_not.2 hb), heq]; rfl⟩
  · refine ⟨k + 1, .of_need_eq_zero hk (need_eq_zero_of_not_between hb), ?_⟩
    rw [if_pos hb, slice_one]
    rfl

theorem iterate_end : iterate s s.data.length = .ok none := by
  have hlt := s.length_lt
  have hn : ¬(s.data.length : ℤ) % 2 ^ 64 < ncodeunits s := by
    simp only [ncodeunits]
    omega
  simp only [iterate, if_pos hn, pure_eq_ok]

theorem Spans.iterate_eq (h : Spans s.data k e) : iterate s k = .ok (some (charOf (slice s.data k e), (e : ℤ))) := by
  obtain ⟨e', hspans, heq⟩ := iterate_spec (h.lt.trans_le h.le)
  rw [heq, hspans.unique h]

theorem exists_spans (hk : k < s.data.length) : ∃ e, Spans s.data k e := by
  obtain ⟨e, h, -⟩ := iterate_spec hk
  exact ⟨e, h⟩

-- Every index in bounds lies in a block.
theorem exists_isBlock {i : ℕ} (hi : i < s.data.length) : ∃ k e, IsBlock s.data k e ∧ k ≤ i ∧ i < e := by
  obtain ⟨k, -, hcov | ⟨rfl, hnot⟩⟩ := thisind_spec hi
  · have hk := hcov.lt.trans hi
    obtain ⟨e, he⟩ := exists_spans hk
    exact ⟨k, e, ⟨⟨hk, fun j hj => hj.not_covers i hcov⟩, he⟩, hcov.lt.le, (he.covers_iff.1 hcov).2⟩
  · obtain ⟨e, he⟩ := exists_spans hi
    exact ⟨k, e, ⟨⟨hi, hnot⟩, he⟩, le_rfl, he.lt⟩

theorem isvalid_eq {i : ℕ} (h : IsBlock s.data k e) (hk : k ≤ i) (hi : i < e) : isvalid s i = .ok (decide (i = k)) := by
  have hin : checkbounds s i = true := by
    have := hi.trans_le h.spans.le
    simp [checkbounds, ncodeunits, this]
  simp only [isvalid, hin, h.thisind_eq hk hi, ok_bind, pure_eq_ok, not_true, if_false]
  congr 1
  simp only [decide_eq_decide]
  omega

theorem IsBlock.getindex_eq (h : IsBlock s.data k e) : getindex s k = .ok (charOf (slice s.data k e)) := by
  have hk := h.start.1
  simp only [getindex, codeunit_eq (s := s) rfl hk, ok_bind, shiftLeft_first, pure_eq_ok]
  by_cases hb : between (byteAt s.data k) 0x80 0xf7 = true
  swap
  · rw [if_pos hb, h.spans.unique (.of_need_eq_zero hk (need_eq_zero_of_not_between hb)), slice_one]
    rfl
  rw [if_neg (not_not.2 hb)]
  obtain ⟨e', hspans, heq⟩ := iterateContinued_spec hk hb
  by_cases hu : pack (byteAt s.data k) 0#8 0#8 0#8 < 0xc0000000
  · -- a stray continuation byte is a character of its own
    have hneed : need (byteAt s.data k) = 0 := by
      have := (le_need_iff _ hb).1
      have := (pack_lt 0xc0 rfl).1 hu
      omega
    have hvalid := isvalid_eq h le_rfl h.spans.lt
    rw [getindexContinued, if_pos hu, hvalid, h.spans.unique (.of_need_eq_zero hk hneed), slice_one]
    simp only [ok_bind, decide_true, if_true]
    rfl
  · rw [getindexContinued_eq hu, heq, hspans.unique h.spans]
    rfl

-- An index within a character.
theorem IsBlock.getindex_error {i : ℕ} (h : IsBlock s.data k e) (hk : k < i) (hi : i < e) :
    getindex s i = .error (.stringIndexError i) := by
  have hcov := h.spans.covers i hk hi
  have hcont := hcov.continuation i hk le_rfl
  have hb := (lt_lead.2 hcont).2
  have hu : pack (byteAt s.data i) 0#8 0#8 0#8 < 0xc0000000 := (pack_lt 0xc0 rfl).2 (lt_lead.2 hcont).1
  have hvalid := isvalid_eq h hk.le hi
  simp only [getindex, codeunit_eq (s := s) rfl hcov.inBounds, ok_bind, shiftLeft_first, pure_eq_ok, if_neg (not_not.2 hb),
    getindexContinued, if_pos hu, hvalid, hk.ne', decide_false, throw_eq_error]
  rfl

theorem IsBlock.nextindForward_eq (h : IsBlock s.data k e) (hlead : 1 ≤ need (byteAt s.data k)) :
    nextindForward s k (ncodeunits s) (byteAt s.data k) = .ok (e : ℤ) := by
  have hb := (between_long _).2 (.inr hlead)
  obtain ⟨e', hspans, heq⟩ := iterateContinued_spec h.start.1 hb
  rw [Strings.nextindForward_eq ((le_need_iff _ hb).1.1 hlead), heq, hspans.unique h.spans]
  rfl

theorem IsBlock.nextind_eq {i : ℕ} (h : IsBlock s.data k e) (hk : k ≤ i) (hi : i < e) : nextind s i = .ok (e : ℤ) := by
  have hlen := hi.trans_le h.spans.le
  have hn : ncodeunits s = s.data.length := rfl
  have hread := codeunit_eq (s := s) rfl hlen
  simp only [nextind, if_neg (show ¬(i : ℤ) = -1 by omega), hread, ok_bind, pure_eq_ok,
    if_neg (not_not.2 (show 0 ≤ (i : ℤ) ∧ (i : ℤ) ≤ ncodeunits s - 1 by omega))]
  by_cases hb : between (byteAt s.data i) 0x80 0xf7 = true
  swap
  · have hnot : ¬isContinuation (byteAt s.data i) = true := fun hc => hb ((between_long _).2 (.inl hc))
    obtain rfl := (h.isStart_iff hk hi).1 ⟨hlen, not_covers_of_not_isContinuation hnot⟩
    rw [if_pos hb, h.spans.unique (.of_need_eq_zero hlen (need_eq_zero_of_not_between hb))]
    rfl
  rw [if_neg (not_not.2 hb), nextindContinued]
  by_cases hl : byteAt s.data i < 0xc0
  · rw [if_pos hl, h.thisind_eq hk hi]
    simp only [ok_bind, pure_eq_ok]
    by_cases hik : i = k
    · subst hik
      have hneed := need_of_isContinuation (lt_lead.1 ⟨hl, hb⟩)
      rw [if_pos le_rfl, h.spans.unique (.of_need_eq_zero hlen hneed)]
      rfl
    · have hcov := h.spans.covers i (by omega) hi
      have hlead := hcov.need_pos
      have hbk := (between_long _).2 (.inr hlead)
      have hge := (le_need_iff _ hbk).1.1 hlead
      rw [between_iff] at hbk
      have hlow : ¬(byteAt s.data k < 0x80 ∨ 0xf8 ≤ byteAt s.data k) := by
        simp only [BitVec.lt_def, BitVec.le_def, BitVec.ofNat_eq_ofNat, BitVec.toNat_ofNat] at hbk ⊢
        omega
      rw [if_neg (show ¬(k : ℤ) ≥ i by omega), codeunit_eq (s := s) rfl h.start.1]
      simp only [ok_bind, if_neg hlow, if_neg (not_not.2 (show byteAt s.data k ≥ 0xc0 from hge))]
      exact h.nextindForward_eq hlead
  · rw [if_neg hl]
    have hnot : ¬isContinuation (byteAt s.data i) = true := fun hc => hl (lt_lead.2 hc).1
    obtain rfl := (h.isStart_iff hk hi).1 ⟨hlen, not_covers_of_not_isContinuation hnot⟩
    exact h.nextindForward_eq (((between_long _).1 hb).resolve_left hnot)

end Decode

end Joolia.Strings
