import Joolia.Base.BitArray.Repr

namespace Joolia.BitArray

open Words

-- The second vector of a call: another one, which stores `m`, or the mutated one.
def OperandRepr (x : Operand BitVector) (m : Operand (List Bool)) : Prop :=
  match x, m with
  | .self, .self => True
  | .other b, .other l => Represents b l
  | _, _ => False

theorem OperandRepr.get {x : Operand BitVector} {m : Operand (List Bool)} (hx : OperandRepr x m)
    {B : BitVector} {l : List Bool} (h : Represents B l) : Represents (x.get B) (m.get l) := by
  cases x <;> cases m <;> first | exact h | exact hx | exact hx.elim

-- The operand's chunks are read after earlier moves inside the mutated vector; these
-- keep the bits below the old length.
theorem OperandRepr.read {x : Operand BitVector} {m : Operand (List Bool)} (hx : OperandRepr x m)
    {l : List Bool} {bc : List Word}
    (hbc : ∀ i, i < l.length → i < (m.get l).length → bitAt bc i = l.getD i false) {i : ℕ}
    (hi : i < (m.get l).length) : bitAt (x.source.read bc) i = (m.get l).getD i false := by
  cases x with
  | self =>
      cases m with
      | self => exact hbc i hi hi
      | other _ => exact hx.elim
  | other b =>
      cases m with
      | self => exact hx.elim
      | other _ => exact Represents.bitAt_eq hx i

section Operations

variable {B : BitVector} {l : List Bool} (h : Represents B l) (mem fresh : ℕ → Word)
variable {x : Operand BitVector} {m : Operand (List Bool)}
include h

theorem append_repr (hx : OperandRepr x m)
    (hsmall : ¬(m.get l ≠ [] ∧ l.length + (m.get l).length ≥ 2 ^ 63)) :
    ∃ B', append mem B x = .ok B' ∧ Represents B' (l ++ m.get l) := by
  have hlen := h.len_eq
  have hlenm := (hx.get h).len_eq
  simp only [append]
  split
  · rename_i hz
    rw [List.eq_nil_of_length_eq_zero (hlenm.symm.trans hz), List.append_nil]
    exact ⟨B, rfl, h⟩
  · rename_i hz
    have hne : m.get l ≠ [] := List.ne_nil_of_length_pos (by omega)
    have hsum : ¬B.len + (x.get B).len ≥ 2 ^ 63 := fun hbig => hsmall ⟨hne, by omega⟩
    obtain ⟨hglen, hgkeep, hgzero⟩ := growTo_spec mem h (Nat.le_add_right B.len (x.get B).len)
    have hcap := numBitChunks_le (B.len + (x.get B).len)
    have hcopy := copyChunks_spec (growTo mem B (B.len + (x.get B).len)) B.len x.source 0
      (x.get B).len (by omega)
    rw [if_neg hsum]
    refine ⟨_, rfl, by rw [hcopy.length_eq, hglen], by simp [hlen, hlenm], fun i => ?_⟩
    rw [hcopy.bitAt_eq, getD_append_ite]
    by_cases hin : i < l.length
    · rw [if_neg (by omega), if_pos hin, hgkeep i (by omega)]
    · rw [if_neg hin]
      split
      · rw [hx.read (fun i hi _ => hgkeep i (by omega)) (by omega), hlen, Nat.zero_add]
      · rw [hgzero i (by omega), List.getD_eq_default _ _ (by omega)]

-- `checked_add` rejects a joint length that is no `Int`.
theorem append_overflow (hx : OperandRepr x m)
    (hbig : m.get l ≠ [] ∧ l.length + (m.get l).length ≥ 2 ^ 63) :
    append mem B x = .error .OverflowError ∧ prepend mem B x = .error .OverflowError := by
  have hlen := h.len_eq
  have hlenm := (hx.get h).len_eq
  have hpos := List.length_pos_of_ne_nil hbig.1
  have hz : ¬(x.get B).len = 0 := by omega
  have hsum : B.len + (x.get B).len ≥ 2 ^ 63 := by omega
  simp only [append, prepend, if_neg hz, if_pos hsum, and_self]

theorem prepend_repr (hx : OperandRepr x m)
    (hsmall : ¬(m.get l ≠ [] ∧ l.length + (m.get l).length ≥ 2 ^ 63)) :
    ∃ B', prepend mem B x = .ok B' ∧ Represents B' (m.get l ++ l) := by
  have hlen := h.len_eq
  have hlenm := (hx.get h).len_eq
  simp only [prepend]
  split
  · rename_i hz
    rw [List.eq_nil_of_length_eq_zero (hlenm.symm.trans hz), List.nil_append]
    exact ⟨B, rfl, h⟩
  · rename_i hz
    have hne : m.get l ≠ [] := List.ne_nil_of_length_pos (by omega)
    have hsum : ¬B.len + (x.get B).len ≥ 2 ^ 63 := fun hbig => hsmall ⟨hne, by omega⟩
    obtain ⟨hglen, hgkeep, hgzero⟩ := growTo_spec mem h (Nat.le_add_right B.len (x.get B).len)
    have hcap := numBitChunks_le (B.len + (x.get B).len)
    rw [if_neg hsum]
    -- make room at the front
    have hmove := copyChunks_spec (growTo mem B (B.len + (x.get B).len)) (x.get B).len .self 0
      B.len (by omega)
    generalize copyChunks (growTo mem B (B.len + (x.get B).len)) (x.get B).len .self 0 B.len = moved
      at hmove ⊢
    have hmlen := hmove.length_eq
    have hcopy := copyChunks_spec moved 0 x.source 0 (x.get B).len (by omega)
    refine ⟨_, rfl, by rw [hcopy.length_eq, hmlen, hglen], by simp [hlen, hlenm, Nat.add_comm],
      fun i => ?_⟩
    rw [hcopy.bitAt_eq, getD_append_ite]
    by_cases hin : i < (m.get l).length
    · rw [if_pos (by omega), if_pos hin, Nat.sub_zero, Nat.zero_add]
      refine hx.read (fun i hi him => ?_) hin
      rw [hmove.bitAt_eq, if_neg (by omega), hgkeep i (by omega)]
    · rw [if_neg (by omega), if_neg hin, hmove.bitAt_eq]
      split
      · rw [Source.read, hgkeep _ (by omega), hlenm, Nat.zero_add]
      · rw [hgzero i (by omega), List.getD_eq_default _ _ (by omega)]

theorem deleteatRange_repr {r : UnitRange} (hstart : 0 ≤ r.start) (hstop : r.stop < l.length) :
    ∃ B', deleteatRange B r = .ok B' ∧
      Represents B' (l.take r.start.toNat ++ l.drop (r.stop + 1).toNat) := by
  have hlen := h.len_eq
  have hvalid := r.valid
  have hchunks := h.length_chunks
  have hcap := numBitChunks_le B.len
  have hrlen : r.length = (r.stop - r.start + 1).toNat := rfl
  have hmono := numBitChunks_mono (Nat.sub_le B.len r.length)
  simp only [deleteatRange]
  rw [if_neg (by omega), if_neg (by omega)]
  have hcopy := copyChunks_spec B.chunks r.start.toNat .self (r.stop + 1).toNat
    (B.len - r.stop - 1).toNat (by omega)
  generalize copyChunks B.chunks r.start.toNat .self (r.stop + 1).toNat
    (B.len - r.stop - 1).toNat = moved at hcopy ⊢
  obtain ⟨htlen, htbits⟩ := trim_spec moved B.chunks.length (B.len - r.length)
    (by rw [hcopy.length_eq]; omega)
  refine ⟨_, rfl, htlen, ?_, fun i => ?_⟩
  · simp only [trim, List.length_append, List.length_take, List.length_drop]
    omega
  · rw [htbits, hcopy.bitAt_eq, getD_append_ite, List.length_take, getD_take, getD_drop]
    by_cases hin : i < r.start.toNat
    · rw [if_pos (by omega), if_neg (by omega), if_pos (by omega), if_pos hin, h.bitAt_eq]
    · rw [if_neg (show ¬i < min r.start.toNat l.length by omega)]
      split
      · rw [if_pos (by omega), Source.read, h.bitAt_eq]
        congr 1
        omega
      · rw [List.getD_eq_default _ _ (by omega)]

theorem resize_repr {n : ℤ} (hn : 0 ≤ n) (hshrink : n ≤ l.length) :
    ∃ B', resize mem B n = .ok B' ∧ Represents B' (l.take n.toNat) := by
  have hlen := h.len_eq
  simp only [resize]
  split
  · rw [List.take_of_length_le (by omega)]
    exact ⟨B, rfl, h⟩
  · rw [dif_pos (show n < B.len by omega)]
    obtain ⟨B', hB', hrepr⟩ := deleteatRange_repr h (r := ⟨n, B.len - 1, by omega⟩) hn (by simp; omega)
    refine ⟨B', hB', ?_⟩
    rwa [List.drop_of_length_le (by simp; omega), List.append_nil] at hrepr

theorem getindexRange_repr {r : UnitRange} (hstart : 0 ≤ r.start) (hstop : r.stop < l.length) :
    Represents (getindexRange fresh B r) ((l.drop r.start.toNat).take r.length) := by
  have hlen := h.len_eq
  have hvalid := r.valid
  have hrlen : r.length = (r.stop - r.start + 1).toNat := rfl
  have hcap := numBitChunks_le r.length
  have hpred := numBitChunks_pred_le r.length
  have hcopy := copyChunks_spec
    (setLast ((List.range (numBitChunks r.length)).map fresh) 0) 0 (.other B.chunks)
    r.start.toNat r.length (by simp; omega)
  refine ⟨by rw [getindexRange, hcopy.length_eq]; simp, ?_, fun i => ?_⟩
  · simp only [getindexRange, List.length_take, List.length_drop]
    omega
  · rw [getindexRange, hcopy.bitAt_eq, getD_take, getD_drop]
    by_cases hin : i < r.length
    · rw [if_pos (by omega), if_pos hin, Source.read, h.bitAt_eq, Nat.sub_zero]
    · rw [if_neg (by omega), if_neg hin]
      by_cases hz : r.length = 0
      · rw [hz]
        exact bitAt_of_length_le (by simp [numBitChunks])
      · have hpos : 0 < numBitChunks r.length := by omega
        rw [bitAt_setLast (List.ne_nil_of_length_pos (by simpa using hpos))]
        split
        · simp
        · exact bitAt_of_length_le (by simp at *; omega)

theorem splice_repr (hx : OperandRepr x m) {r : UnitRange} (hstart : 0 ≤ r.start)
    (hstop : r.stop < l.length) : ∃ B' v, splice mem fresh B r x = .ok (B', v) ∧
      Represents B' (l.take r.start.toNat ++ m.get l ++ l.drop (r.stop + 1).toNat) ∧
      Represents v ((l.drop r.start.toNat).take r.length) := by
  have hlen := h.len_eq
  have hlenm := (hx.get h).len_eq
  have hvalid := r.valid
  have hchunks := h.length_chunks
  have hcap := numBitChunks_le B.len
  have hrlen : r.length = (r.stop - r.start + 1).toNat := rfl
  have hcapn := numBitChunks_le (B.len + (x.get B).len - r.length)
  simp only [splice]
  rw [if_neg (by omega), if_neg (by omega), if_neg (by omega)]
  refine ⟨_, _, rfl, ?_, getindexRange_repr h fresh hstart hstop⟩
  generalize hgrown : (if (numBitChunks (B.len + (x.get B).len - r.length) - B.chunks.length : ℤ) > 0
    then growend mem B.chunks
      (numBitChunks (B.len + (x.get B).len - r.length) - B.chunks.length : ℤ).toNat
    else B.chunks) = grown
  have hgrow : grown.length = max B.chunks.length (numBitChunks (B.len + (x.get B).len - r.length)) ∧
      ∀ i, i < l.length → bitAt grown i = l.getD i false := by
    rw [← hgrown]
    split
    · refine ⟨by rw [length_growend]; omega, fun i hi => ?_⟩
      rw [bitAt_growend _ _ _ (by omega), h.bitAt_eq]
    · exact ⟨by omega, fun i _ => h.bitAt_eq i⟩
  obtain ⟨hglen, hgkeep⟩ := hgrow
  -- the tail moves first, past the place of the inserted bits
  have hmove := copyChunks_spec grown (r.start.toNat + (x.get B).len) .self (r.stop + 1).toNat
    (B.len - r.stop - 1).toNat (by omega)
  generalize copyChunks grown (r.start.toNat + (x.get B).len) .self (r.stop + 1).toNat
    (B.len - r.stop - 1).toNat = moved at hmove ⊢
  have hmlen := hmove.length_eq
  have hcopy := copyChunks_spec moved r.start.toNat x.source 0 (x.get B).len (by omega)
  generalize copyChunks moved r.start.toNat x.source 0 (x.get B).len = copied at hcopy ⊢
  obtain ⟨htlen, htbits⟩ := trim_spec copied B.chunks.length (B.len + (x.get B).len - r.length)
    (by rw [hcopy.length_eq, hmlen, hglen])
  refine ⟨htlen, ?_, fun i => ?_⟩
  · simp only [trim, List.length_append, List.length_take, List.length_drop]
    omega
  · rw [htbits, hcopy.bitAt_eq, hmove.bitAt_eq, List.append_assoc, getD_append_ite,
      getD_append_ite, List.length_take, getD_take, getD_drop]
    by_cases hin : i < r.start.toNat
    · rw [if_pos (by omega), if_neg (by omega), if_neg (by omega), if_pos (by omega), if_pos hin,
        hgkeep i (by omega)]
    · rw [if_neg (show ¬i < min r.start.toNat l.length by omega)]
      by_cases hins : i < r.start.toNat + (x.get B).len
      · rw [if_pos (by omega), if_pos (by omega), if_pos (by omega)]
        rw [hx.read (l := l) (fun i hi him => ?_) (by omega)]
        · congr 1
          omega
        · rw [hmove.bitAt_eq, if_neg (by omega), hgkeep i hi]
      · rw [if_neg (show ¬i - min r.start.toNat l.length < (m.get l).length by omega)]
        split
        · rw [if_neg (by omega), if_pos (by omega), Source.read, hgkeep _ (by omega)]
          congr 1
          omega
        · rw [List.getD_eq_default _ _ (by omega)]

end Operations

end Joolia.BitArray
