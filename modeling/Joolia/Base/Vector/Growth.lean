import Joolia.Base.Vector.Window

namespace Joolia.Vectors

open Fallible

variable {α : Type} {rt : Runtime α} {a a' : Vec α} {delta n : ℕ}

-- The cells of `a`, moved to `delta` places behind the new offset.
theorem growbegInternal_spec (ha : a.Valid) (hdelta : a.offset < delta) :
    Serves n (growbegInternal rt a delta a.size) fun b =>
      b.offset + (a.size + delta) ≤ b.mem.length ∧
        ∀ k, k < a.size → b.mem.cells (b.offset + (k + delta)) = a.cell k := by
  simp only [Vec.Valid] at ha
  rw [growbegInternal]
  refine (checkedAdd_serves _ _).bind ?_
  rintro _ rfl
  rw [if_neg (by omega)]
  refine (checkedMul_serves _ _).bind ?_
  rintro _ rfl
  refine (checkedAdd_serves _ _).bind ?_
  rintro _ rfl
  dsimp only
  split
  · -- the elements move to the middle of the same memory
    rw [unsafeCopyto_eq (by omega) (by omega)]
    refine .ok ⟨by simp; omega, ?_⟩
    intro k hk
    dsimp only
    rw [unsetRange_outside (by omega), ← Nat.add_assoc, Nat.add_right_comm, memmove_inside hk]
    rfl
  · refine (arrayNewMemory_serves rt _).bind ?_
    rintro _ rfl
    rw [unsafeCopyto_eq (by simp; omega) (by omega)]
    refine .ok ⟨by simp; omega, ?_⟩
    intro k hk
    dsimp only
    rw [← Nat.add_assoc, Nat.add_right_comm, memmove_inside hk]
    rfl

theorem growbeg_spec (rt : Runtime α) (delta : ℕ) (ha : a.Valid) :
    Serves n (growbeg rt a delta) (Grown a · 0 delta) := by
  rw [growbeg]
  by_cases h0 : delta = 0
  · rw [if_pos h0]
    exact .ok ⟨ha, by omega, fun k hk => by omega, fun k _ _ => by rw [h0, Nat.add_zero]⟩
  rw [if_neg h0]
  refine (checkedAdd_serves _ _).bind ?_
  rintro _ rfl
  split
  · refine .ok ⟨?_, rfl, fun k hk => by omega, ?_⟩
    · simp only [Vec.Valid] at ha ⊢
      omega
    · intro k _ _
      simp only [Vec.cell]
      congr 1
      omega
  · refine (growbegInternal_spec ha (by omega)).bind ?_
    rintro b ⟨hvalid, hcells⟩
    exact .ok ⟨hvalid, rfl, fun k hk => by omega, fun k _ hk => hcells k hk⟩

-- The cells of `a`, from the new offset on.
theorem growendInternal_spec (ha : a.Valid) :
    Serves n (growendInternal rt a delta a.size) fun b =>
      b.offset + (a.size + delta) ≤ b.mem.length ∧
        ∀ k, k < a.size → b.mem.cells (b.offset + k) = a.cell k := by
  simp only [Vec.Valid] at ha
  rw [growendInternal]
  refine (checkedAdd_serves _ _).bind ?_
  rintro _ rfl
  rw [if_neg (by omega)]
  refine (checkedAdd_serves _ _).bind ?_
  rintro _ rfl
  dsimp only
  split
  · -- the elements move towards the beginning of the same memory
    rw [unsafeCopyto_eq (by omega) (by omega)]
    refine .ok ⟨by simp <;> omega, ?_⟩
    intro k hk
    exact memmove_inside hk
  · refine (arrayNewMemory_serves rt _).bind ?_
    rintro _ rfl
    rw [unsafeCopyto_eq (by simp <;> omega) (by omega)]
    refine .ok ⟨by simp <;> omega, ?_⟩
    intro k hk
    exact memmove_inside hk

theorem growend_spec (rt : Runtime α) (delta : ℕ) (ha : a.Valid) :
    Serves n (growend rt a delta) (Grown a · a.size delta) := by
  rw [growend]
  refine (checkedAdd_serves _ _).bind ?_
  rintro _ rfl
  refine (checkedAdd_serves _ _).bind ?_
  rintro _ rfl
  split
  · refine (growendInternal_spec ha).bind ?_
    rintro b ⟨hvalid, hcells⟩
    exact .ok ⟨hvalid, rfl, hcells, fun k hk hlt => by omega⟩
  · refine .ok ⟨?_, rfl, fun _ _ => rfl, fun k hk hlt => by omega⟩
    simp only [Vec.Valid]
    omega

-- Growth in the middle, at a position with elements on both sides.
theorem growat_middle_spec {i : ℕ} (ha : a.Valid) (hi : 0 < i) (hlt : i < a.size) :
    Serves a.size (growat rt a i delta) (Grown a · i delta) := by
  have hvalid := ha
  simp only [Vec.Valid] at ha
  rw [growat, if_neg (by omega), if_neg (by omega), if_neg (by omega), Int.toNat_natCast]
  refine (checkedAdd_serves _ _).bind ?_
  rintro _ rfl
  refine (checkedAdd_serves _ _).bind ?_
  rintro _ rfl
  dsimp only
  split
  · -- the cells before `i` slide to the front
    rw [unsafeCopyto_eq (by omega) (by omega)]
    refine .ok ⟨by simp only [Vec.Valid, unsetRange_length, memmove_length]; omega, rfl, ?_, ?_⟩
    · intro k hk
      simp only [Vec.cell]
      rw [unsetRange_outside (by omega), memmove_inside hk]
    · intro k hle hk
      simp only [Vec.cell]
      rw [unsetRange_outside (by omega), memmove_outside (by omega)]
      congr 1
      omega
  split
  · -- the cells from `i` on slide to the back
    rw [unsafeCopyto_eq (by omega) (by omega)]
    refine .ok ⟨by simp only [Vec.Valid, unsetRange_length, memmove_length]; omega, rfl, ?_, ?_⟩
    · intro k hk
      simp only [Vec.cell]
      rw [unsetRange_outside (by omega), memmove_outside (by omega)]
    · intro k hle hk
      simp only [Vec.cell]
      rw [unsetRange_outside (by omega), show a.offset + (k + delta) = a.offset + delta + i + (k - i) by omega,
        memmove_inside (by omega)]
      congr 1
      omega
  · refine (checkedMul_serves _ _).bind ?_
    rintro _ rfl
    refine (checkedAdd_serves _ _).bind ?_
    rintro _ rfl
    refine (arrayNewMemory_serves rt _).bind ?_
    rintro _ rfl
    rw [unsafeCopyto_eq (by simp; omega) (by omega), ok_bind, unsafeCopyto_eq (by simp; omega) (by omega)]
    refine .ok ⟨by simp only [Vec.Valid, memmove_length]; omega, rfl, ?_, ?_⟩
    · intro k hk
      simp only [Vec.cell]
      rw [memmove_outside (by omega), memmove_inside hk]
    · intro k hle hk
      simp only [Vec.cell]
      generalize (max (overallocation a.mem.length) (a.size + 2 * delta) - (a.size + delta)) / 2 = newoffset
      rw [show newoffset + (k + delta) = newoffset + delta + i + (k - i) by omega, memmove_inside (by omega)]
      congr 1
      omega

-- Growth at any position up to the end.
theorem growat_spec (rt : Runtime α) {i : ℤ} (delta : ℕ) (ha : a.Valid) (h0 : 0 ≤ i) (hi : i ≤ a.size) :
    Serves a.size (growat rt a i delta) (Grown a · i.toNat delta) := by
  obtain ⟨n, rfl⟩ := Int.eq_ofNat_of_zero_le h0
  by_cases hz : n = 0
  · subst hz
    exact growbeg_spec rt delta ha
  by_cases hend : n = a.size
  · subst hend
    by_cases hlen : a.size < typemaxInt
    · rw [growat, if_neg (by omega), if_pos ⟨hlen, rfl⟩]
      exact growend_spec rt delta ha
    · refine .inr ⟨.boundsError a.size, ?_, .inr (.inr ⟨by omega, rfl⟩)⟩
      rw [growat, if_neg (by omega), if_neg (by omega), if_pos (by omega)]
      rfl
  · exact growat_middle_spec ha (by omega) (by omega)

theorem growat_error {i : ℤ} (delta : ℕ) (hi : ¬ (0 ≤ i ∧ i ≤ a.size)) :
    growat rt a i delta = .error (.boundsError i) := by
  rw [growat, if_neg (by omega), if_neg (by omega), if_pos (by omega)]
  rfl

end Joolia.Vectors

namespace Joolia.Vectors

open Fallible

variable {α : Type} {rt : Runtime α} {a a' : Vec α} {delta : ℕ}

theorem deletebeg_spec (rt : Runtime α) (delta : ℕ) (ha : a.Valid) (hdelta : delta ≤ a.size) :
    ∃ a', deletebeg rt a delta = .ok a' ∧ Shrunk a a' 0 delta := by
  simp only [Vec.Valid] at ha
  by_cases hall : a.size - delta = 0
  · -- the window of an empty vector stays where it was
    refine ⟨⟨unsetRange rt a.mem a.offset (a.offset + delta), a.offset, 0⟩, ?_, ?_, ?_, ?_, ?_⟩
    · simp [deletebeg, hall, show ¬ a.size < delta by omega]
    · simp only [Vec.Valid, unsetRange_length]
      omega
    · dsimp only
      omega
    · intro k hk
      omega
    · intro k hle hk
      omega
  · refine ⟨⟨unsetRange rt a.mem a.offset (a.offset + delta), a.offset + delta, a.size - delta⟩, ?_, ?_, ?_, ?_, ?_⟩
    · simp [deletebeg, hall, show ¬ a.size < delta by omega]
    · simp only [Vec.Valid, unsetRange_length]
      omega
    · dsimp only
      omega
    · intro k hk
      omega
    · intro k hle hk
      simp only [Vec.cell]
      rw [unsetRange_outside (by omega)]
      congr 1
      omega

theorem deleteend_spec (rt : Runtime α) (delta : ℕ) (ha : a.Valid) (hdelta : delta ≤ a.size) :
    ∃ a', deleteend rt a delta = .ok a' ∧ Shrunk a a' (a.size - delta) delta := by
  simp only [Vec.Valid] at ha
  refine ⟨⟨unsetRange rt a.mem (a.offset + (a.size - delta)) (a.offset + a.size), a.offset, a.size - delta⟩,
    ?_, ?_, ?_, ?_, ?_⟩
  · simp [deleteend, show ¬ a.size < delta by omega]
  · simp only [Vec.Valid, unsetRange_length]
    omega
  · dsimp only
    omega
  · intro k hk
    simp only [Vec.cell]
    rw [unsetRange_outside (by omega)]
  · intro k hle hk
    omega

-- The shorter side moves; which one it is does not matter.
theorem deleteatCount_spec (rt : Runtime α) (delta : ℕ) {i : ℕ} (ha : a.Valid) (hi : i < a.size) (hdelta : i + delta ≤ a.size) :
    ∃ a', deleteatCount rt a i delta = .ok a' ∧ Shrunk a a' i delta := by
  have hvalid := ha
  simp only [Vec.Valid] at ha
  simp only [deleteatCount]
  rw [if_neg (by omega), if_neg (by omega), Int.toNat_natCast]
  split
  · rw [unsafeCopyto_eq (by omega) (by omega)]
    obtain ⟨b, hb, hs⟩ := deletebeg_spec (a := ⟨memmove a.mem (a.offset + delta) a.mem a.offset i, a.offset, a.size⟩)
      rt delta hvalid (by dsimp only; omega)
    refine ⟨b, hb, hs.valid, hs.size, ?_, ?_⟩
    · intro k hk
      have hcell := hs.behind (k + delta) (by omega) (by dsimp only; omega)
      rw [Nat.add_sub_cancel] at hcell
      rw [hcell]
      simp only [Vec.cell]
      rw [Nat.add_comm k, ← Nat.add_assoc, memmove_inside hk]
    · intro k hle hk
      rw [hs.behind k (by omega) hk]
      simp only [Vec.cell]
      rw [memmove_outside (by omega)]
  · rw [unsafeCopyto_eq (by omega) (by omega)]
    obtain ⟨b, hb, hs⟩ := deleteend_spec
      (a := ⟨memmove a.mem (a.offset + i) a.mem (a.offset + (i + delta)) (a.size - delta - i), a.offset, a.size⟩)
      rt delta hvalid (by dsimp only; omega)
    refine ⟨b, hb, hs.valid, hs.size, ?_, ?_⟩
    · intro k hk
      rw [hs.before k (by dsimp only; omega)]
      simp only [Vec.cell]
      rw [memmove_outside (by omega)]
    · intro k hle hk
      rw [hs.before (k - delta) (by dsimp only; omega)]
      simp only [Vec.cell]
      rw [show a.offset + (k - delta) = a.offset + i + (k - delta - i) by omega, memmove_inside (by omega)]
      congr 1
      omega

theorem deleteatCount_error {i : ℤ} (hi : ¬ (0 ≤ i ∧ i < a.size)) :
    deleteatCount rt a i delta = .error (.boundsError i) := by
  simp only [deleteatCount]
  rw [if_pos hi]
  rfl

-- What a vector with given elements allows.
structure Holds (a : Vec α) (xs : List (Cell α)) : Prop where
  valid : a.Valid
  toList : a.toList = xs

theorem Holds.size {xs : List (Cell α)} (h : Holds a xs) : a.size = xs.length := by
  rw [← h.toList, length_toList]

theorem Shrunk.holds {i : ℕ} (h : Shrunk a a' i delta) (hi : i + delta ≤ a.size) :
    Holds a' (a.toList.take i ++ a.toList.drop (i + delta)) := ⟨h.valid, h.toList hi⟩

theorem setindex_spec {i : ℕ} {x : α} (ha : a.Valid) (hi : i < a.size) :
    ∃ a', setindex a i x = .ok a' ∧ Holds a' (a.toList.set i (some x)) := by
  refine ⟨⟨⟨a.mem.length, fun j => if j = a.offset + i then some x else a.mem.cells j⟩, a.offset, a.size⟩,
    ?_, ha, toList_eq (by simp) ?_⟩
  · rw [setindex, if_pos (by omega)]
    rfl
  intro k hk
  rw [List.getElem?_set, length_toList, if_pos hi]
  by_cases heq : i = k
  · subst heq
    simp [Vec.cell]
  · rw [if_neg heq, getElem?_toList, if_pos hk]
    simp [Vec.cell, Ne.symm heq]

theorem getindex_eq {i : ℕ} (hi : i < a.size) :
    getindex a i = match a.cell i with
      | some x => .ok x
      | none => .error .undefRefError := by
  rw [getindex, if_pos (by omega)]
  rfl

theorem copyto_spec {src : Vec α} (doffs : ℕ) {soffs n : ℕ} (ha : a.Valid) (hdest : doffs + n ≤ a.size)
    (hsrc : soffs + n ≤ src.size) :
    ∃ a', copyto a doffs src soffs n = .ok a' ∧
      Holds a' (a.toList.take doffs ++ (src.toList.drop soffs).take n ++ a.toList.drop (doffs + n)) := by
  by_cases hn : n = 0
  · exact ⟨a, by simp [copyto, hn], ha, by simp [hn]⟩
  refine ⟨⟨memmove a.mem (a.offset + doffs) src.mem (src.offset + soffs) n, a.offset, a.size⟩, ?_, ha, ?_⟩
  · simp [copyto, hn, show doffs < a.size by omega, show n ≤ a.size - doffs by omega,
      show soffs < src.size by omega, show n ≤ src.size - soffs by omega]
  · refine toList_eq (by simp; omega) ?_
    intro k hk
    dsimp only at hk
    simp only [Vec.cell]
    by_cases hbefore : k < doffs
    · rw [memmove_outside (by omega), List.append_assoc, List.getElem?_append_left (by simp; omega),
        List.getElem?_take_of_lt hbefore, getElem?_toList, if_pos hk]
      rfl
    · rw [List.append_assoc, List.getElem?_append_right (by simp; omega)]
      simp only [List.length_take, length_toList, Nat.min_eq_left (show doffs ≤ a.size by omega)]
      by_cases hin : k < doffs + n
      · rw [show a.offset + k = a.offset + doffs + (k - doffs) by omega, memmove_inside (by omega),
          List.getElem?_append_left (by simp; omega), List.getElem?_take_of_lt (by omega),
          List.getElem?_drop, getElem?_toList, if_pos (by omega)]
        simp [Vec.cell, Nat.add_assoc]
      · rw [memmove_outside (by omega), List.getElem?_append_right (by simp; omega), List.getElem?_drop,
          getElem?_toList]
        simp only [List.length_take, List.length_drop, length_toList, Nat.min_eq_left (show n ≤ src.size - soffs by omega)]
        rw [show doffs + n + (k - doffs - n) = k by omega, if_pos hk]
        rfl

@[simp] theorem ofList_size (cells : List (Cell α)) : (Vec.ofList cells).size = cells.length := rfl

@[simp] theorem toList_ofList (cells : List (Cell α)) : (Vec.ofList cells).toList = cells := by
  refine toList_eq rfl ?_
  intro k hk
  have hk : k < cells.length := hk
  simp [Vec.cell, Vec.ofList, hk]

end Joolia.Vectors
