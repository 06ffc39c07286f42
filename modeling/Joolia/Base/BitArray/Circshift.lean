import Joolia.Base.BitArray.Moves

namespace Joolia.BitArray

open Words

-- `falses(n)`
def falses (n : ℕ) : BitVector := ⟨List.replicate (numBitChunks n) 0, n⟩

-- `B << i` and `B >>> i` for a `UInt`
def shiftLeft (B : BitVector) (i : ℕ) : BitVector :=
  let n := B.len
  if i = 0 then B
  else
    let A := falses n
    ⟨if i < n then copyChunks A.chunks 0 (.other B.chunks) i (n - i) else A.chunks, n⟩

def shiftRight (B : BitVector) (i : ℕ) : BitVector :=
  let n := B.len
  if i = 0 then B
  else
    let A := falses n
    ⟨if i < n then copyChunks A.chunks i (.other B.chunks) 0 (n - i) else A.chunks, n⟩

-- The same for an `Int`; `unsigned(-i)` is `-i` also for the least one.
def shiftLeftInt (B : BitVector) (i : ℤ) : BitVector :=
  if i ≥ 0 then shiftLeft B i.toNat else shiftRight B (-i).toNat

def shiftRightInt (B : BitVector) (i : ℤ) : BitVector :=
  if i ≥ 0 then shiftRight B i.toNat else shiftLeft B (-i).toNat

-- `copyto!(dest, src)`
def copyto (dest src : BitVector) : Except BitError BitVector :=
  if src.len > dest.len then .error (.BoundsError (dest.len + 1))
  else
    let nc := min dest.chunks.length src.chunks.length
    if nc = 0 then .ok dest
    else
      let destc := Loop.up 0 (nc - 1) (fun i destc => destc.set i (word src.chunks i)) dest.chunks
      if src.len = dest.len then .ok ⟨destc.set (nc - 1) (word src.chunks (nc - 1)), dest.len⟩
      else
        let msk_s := mskEnd src.len
        let msk_d := ~~~msk_s
        .ok ⟨destc.set (nc - 1) ((msk_d &&& word destc (nc - 1)) ||| (msk_s &&& word src.chunks (nc - 1))), dest.len⟩

-- `_circshift_int!(dest, src, i)`, where `src` may be `dest` itself.
def circshift (dest : BitVector) (src : Operand BitVector) (i : ℤ) : Except BitError BitVector :=
  if dest.len ≠ (src.get dest).len then .error (.ArgumentError "destination and source should be of same size")
  else
    let n := dest.len
    if n = 0 then .error .DivideError
    else
      let i := i.tmod n
      if i = 0 then
        match src with
        | .self => .ok dest
        | .other b => copyto dest b
      else
        let bc := .other (src.get dest).chunks
        if i > 0 then
          let chunks := copyChunks dest.chunks i.toNat bc 0 (n - i.toNat)
          .ok ⟨copyChunks chunks 0 bc (n - i.toNat) i.toNat, n⟩
        else
          let i := (-i).toNat
          let chunks := copyChunks dest.chunks 0 bc i (n - i)
          .ok ⟨copyChunks chunks (n - i) bc 0 i, n⟩

section Shifts

-- Element `j` of the result is element `j + d` of the old list, `false` from outside it.
def ShiftedBy (B B' : BitVector) (d : ℤ) : Prop :=
  B'.len = B.len ∧ WellFormed B' ∧
    ∀ j < B.len, bitAt B'.chunks j = if 0 ≤ j + d ∧ j + d < B.len then bitAt B.chunks (j + d).toNat else false

theorem bitAt_falses (n i : ℕ) : bitAt (falses n).chunks i = false := by
  rw [falses, bitAt, word_replicate]
  exact BitVec.getLsbD_zero

variable {B : BitVector} (hB : WellFormed B)

include hB in
theorem shiftedBy_zero : ShiftedBy B B 0 := by
  refine ⟨rfl, hB, fun j hj => ?_⟩
  rw [if_pos ⟨by omega, by omega⟩]
  congr 1

-- A copy that leaves out `pos_d` bits at one end or `pos_s` at the other.
theorem shiftedBy_copy (pos_d pos_s m : ℕ) (hm : pos_d + pos_s + m = B.len) (hend : pos_d = 0 ∨ pos_s = 0) :
    ShiftedBy B ⟨copyChunks (falses B.len).chunks pos_d (.other B.chunks) pos_s m, B.len⟩ (pos_s - pos_d) := by
  have hlen : (falses B.len).chunks.length = numBitChunks B.len := List.length_replicate
  have hle := numBitChunks_le B.len
  have hcopy := copyChunks_spec (falses B.len).chunks pos_d (.other B.chunks) pos_s m (by omega)
  refine ⟨rfl, ⟨hcopy.length_eq.trans hlen, fun j hj => ?_⟩, fun j hj => ?_⟩
  · dsimp only at hj
    rw [hcopy.bitAt_eq, if_neg (by omega), bitAt_falses]
  · dsimp only
    rw [hcopy.bitAt_eq, bitAt_falses]
    by_cases hin : pos_d ≤ j ∧ j < pos_d + m
    · rw [if_pos hin, if_pos ⟨by omega, by omega⟩, show pos_s + (j - pos_d) = ((j : ℤ) + (pos_s - pos_d)).toNat by omega]
      rfl
    · rw [if_neg hin, if_neg (by omega)]

theorem shiftedBy_falses {d : ℤ} (hd : B.len ≤ d ∨ B.len ≤ -d) : ShiftedBy B (falses B.len) d := by
  refine ⟨rfl, ⟨List.length_replicate, fun j _ => bitAt_falses _ j⟩, fun j hj => ?_⟩
  rw [bitAt_falses, if_neg (by omega)]

include hB

theorem shiftLeft_spec (i : ℕ) : ShiftedBy B (shiftLeft B i) i := by
  unfold shiftLeft
  by_cases hi : i = 0
  · rw [if_pos hi, hi]
    exact shiftedBy_zero hB
  rw [if_neg hi]
  by_cases hlt : i < B.len
  · dsimp only
    rw [if_pos hlt]
    have hcopy := shiftedBy_copy (B := B) 0 i (B.len - i) (by omega) (.inl rfl)
    rwa [Int.ofNat_zero, Int.sub_zero] at hcopy
  · dsimp only
    rw [if_neg hlt]
    exact shiftedBy_falses (by omega)

theorem shiftRight_spec (i : ℕ) : ShiftedBy B (shiftRight B i) (-i) := by
  unfold shiftRight
  by_cases hi : i = 0
  · rw [if_pos hi, hi]
    exact shiftedBy_zero hB
  rw [if_neg hi]
  by_cases hlt : i < B.len
  · dsimp only
    rw [if_pos hlt]
    have hcopy := shiftedBy_copy (B := B) i 0 (B.len - i) (by omega) (.inr rfl)
    rwa [Int.ofNat_zero, Int.zero_sub] at hcopy
  · dsimp only
    rw [if_neg hlt]
    exact shiftedBy_falses (by omega)

theorem shiftLeftInt_spec (i : ℤ) : ShiftedBy B (shiftLeftInt B i) i := by
  unfold shiftLeftInt
  split_ifs with hi
  · have hshift := shiftLeft_spec hB i.toNat
    rwa [Int.toNat_of_nonneg hi] at hshift
  · have hshift := shiftRight_spec hB (-i).toNat
    rwa [show -((-i).toNat : ℤ) = i by omega] at hshift

theorem shiftRightInt_spec (i : ℤ) : ShiftedBy B (shiftRightInt B i) (-i) := by
  unfold shiftRightInt
  split_ifs with hi
  · have hshift := shiftRight_spec hB i.toNat
    rwa [Int.toNat_of_nonneg hi] at hshift
  · have hshift := shiftLeft_spec hB (-i).toNat
    rwa [show ((-i).toNat : ℤ) = -i by omega] at hshift

end Shifts

section Rotation

variable {dest b : BitVector}

theorem copyto_same (hdest : WellFormed dest) (hb : WellFormed b) (hlen : b.len = dest.len) : copyto dest b = .ok b := by
  have hchunks : dest.chunks.length = b.chunks.length := by rw [hdest.length_chunks, hb.length_chunks, hlen]
  unfold copyto
  rw [if_neg (by omega), hchunks, min_self]
  by_cases hnc : b.chunks.length = 0
  · dsimp only
    rw [if_pos hnc]
    obtain ⟨bc, len⟩ := b
    obtain ⟨dc, dlen⟩ := dest
    dsimp only at *
    rw [List.eq_nil_of_length_eq_zero hnc, List.eq_nil_of_length_eq_zero (hchunks.trans hnc), hlen]
  · dsimp only
    rw [if_neg hnc, if_pos hlen]
    have hloop := @Loop.up_invariant _ _ _ (fun t cur => cur.length = b.chunks.length ∧ ∀ m < t, word cur m = word b.chunks m)
      (fun i destc => destc.set i (word b.chunks i)) _ (Nat.zero_le (b.chunks.length - 1)) ⟨hchunks, by simp⟩
      fun t cur _ ht h => ⟨by rw [List.length_set, h.1], fun m hm => by
        rw [word_set]
        split_ifs with heq
        · rw [heq.1]
        · exact h.2 m (by omega)⟩
    generalize Loop.up 0 (b.chunks.length - 1) (fun i destc => destc.set i (word b.chunks i)) dest.chunks = cur at hloop ⊢
    have hchunks' : cur.set (b.chunks.length - 1) (word b.chunks (b.chunks.length - 1)) = b.chunks := by
      refine word_ext (by rw [List.length_set, hloop.1]) fun m hm => ?_
      rw [List.length_set, hloop.1] at hm
      rw [word_set]
      split_ifs with heq
      · rw [heq.1]
      · exact hloop.2 m (by omega)
    rw [hchunks', ← hlen]

-- What `circshift!` has to store.
def CircShifted (dest : BitVector) (src : Operand BitVector) (i : ℤ) : Prop :=
  ∃ B', circshift dest src i = .ok B' ∧ B'.len = dest.len ∧ WellFormed B' ∧
    ∀ k < dest.len, bitAt B'.chunks ((k + i) % dest.len).toNat = bitAt (src.get dest).chunks k

-- The last `r` elements go in front, the others behind them.
theorem rotated_spec (hdest : WellFormed dest) (bc : List Word) {cur : List Word} {r : ℕ} (hr : r < dest.len)
    (hlen : cur.length = dest.chunks.length) (hbits : ∀ q, bitAt cur q = if q < r then bitAt bc (dest.len - r + q)
      else if q < dest.len then bitAt bc (q - r) else bitAt dest.chunks q) :
    WellFormed ⟨cur, dest.len⟩ ∧ ∀ k < dest.len, bitAt cur ((k + r) % dest.len) = bitAt bc k := by
  refine ⟨⟨hlen.trans hdest.length_chunks, fun j hj => ?_⟩, fun k hk => ?_⟩
  · dsimp only at hj ⊢
    rw [hbits, if_neg (by omega), if_neg (by omega), hdest.past_end j hj]
  · rw [hbits]
    by_cases hwrap : k + r < dest.len
    · rw [Nat.mod_eq_of_lt hwrap, if_neg (by omega), if_pos hwrap, Nat.add_sub_cancel]
    · rw [Nat.mod_eq_sub_mod (by omega), Nat.mod_eq_of_lt (by omega), if_pos (by omega)]
      congr 1
      omega

-- The position of element `k` after the shift was reduced.
theorem position_eq {n k : ℕ} {i : ℤ} {r : ℕ} (hr : (r : ℤ) % n = i % n) : ((k + i) % n).toNat = (k + r) % n := by
  rw [Int.add_emod, ← hr, ← Int.add_emod]
  rfl

theorem circshift_spec (hdest : WellFormed dest) {src : Operand BitVector} (hsrc : WellFormed (src.get dest))
    (hlen : (src.get dest).len = dest.len) (hn : dest.len ≠ 0) (i : ℤ) : CircShifted dest src i := by
  have hle := numBitChunks_le dest.len
  have hchunks := hdest.length_chunks
  have hmod : i.tmod dest.len % dest.len = i % dest.len := by
    have hdiv := Int.mul_tdiv_add_tmod i dest.len
    calc i.tmod dest.len % dest.len = (i.tmod dest.len + dest.len * i.tdiv dest.len) % dest.len := (Int.add_mul_emod_self_left _ _ _).symm
      _ = i % dest.len := by rw [Int.add_comm, hdiv]
  unfold CircShifted circshift
  rw [if_neg (by omega)]
  dsimp only
  rw [if_neg hn]
  by_cases hzero : i.tmod dest.len = 0
  · rw [if_pos hzero]
    have hpos : ∀ k < dest.len, ((k + i) % dest.len).toNat = k := by
      intro k hk
      rw [position_eq (r := 0) (by rw [← hmod, hzero]; rfl), Nat.add_zero, Nat.mod_eq_of_lt hk]
    cases src with
    | self => exact ⟨dest, rfl, rfl, hdest, fun k hk => by rw [hpos k hk]; rfl⟩
    | other b => exact ⟨b, copyto_same hdest hsrc hlen, hlen, hsrc, fun k hk => by rw [hpos k hk]; rfl⟩
  rw [if_neg hzero]
  generalize (src.get dest).chunks = bc
  by_cases hright : i.tmod dest.len > 0
  · rw [if_pos hright]
    obtain ⟨r, hr⟩ : ∃ r : ℕ, i.tmod dest.len = r := ⟨(i.tmod dest.len).toNat, by omega⟩
    have hrlt : r < dest.len := by
      have hlt := Int.tmod_lt_of_pos i (b := dest.len) (by omega)
      omega
    have hfirst := copyChunks_spec dest.chunks r (.other bc) 0 (dest.len - r) (by omega)
    have hsecond := copyChunks_spec (copyChunks dest.chunks r (.other bc) 0 (dest.len - r)) 0 (.other bc) (dest.len - r) r
      (by rw [hfirst.length_eq]; omega)
    rw [hr, Int.toNat_natCast]
    obtain ⟨hwf, hbits⟩ := rotated_spec hdest bc hrlt (hsecond.length_eq.trans hfirst.length_eq) fun q => by
      rw [hsecond.bitAt_eq, hfirst.bitAt_eq]
      by_cases hq : q < r
      · rw [if_pos hq, if_pos (by omega), Nat.sub_zero]
        rfl
      by_cases hqn : q < dest.len
      · rw [if_neg hq, if_pos hqn, if_neg (by omega), if_pos (by omega), Nat.zero_add]
        rfl
      · rw [if_neg hq, if_neg hqn, if_neg (by omega), if_neg (by omega)]
    refine ⟨_, rfl, rfl, hwf, fun k hk => ?_⟩
    rw [position_eq (r := r) (by rw [← hmod, hr])]
    exact hbits k hk
  · rw [if_neg hright]
    obtain ⟨l, hl⟩ : ∃ l : ℕ, -i.tmod dest.len = l := ⟨(-i.tmod dest.len).toNat, by omega⟩
    have hllt : l < dest.len := by
      have hlt := Int.lt_tmod_of_pos i (b := dest.len) (by omega)
      omega
    have hfirst := copyChunks_spec dest.chunks 0 (.other bc) l (dest.len - l) (by omega)
    have hsecond := copyChunks_spec (copyChunks dest.chunks 0 (.other bc) l (dest.len - l)) (dest.len - l) (.other bc) 0 l
      (by rw [hfirst.length_eq]; omega)
    rw [hl, Int.toNat_natCast]
    obtain ⟨hwf, hbits⟩ := rotated_spec (r := dest.len - l) hdest bc (by omega) (hsecond.length_eq.trans hfirst.length_eq)
      fun q => by
        rw [hsecond.bitAt_eq, hfirst.bitAt_eq]
        by_cases hq : q < dest.len - l
        · rw [if_pos hq, if_neg (by omega), if_pos (by omega), Nat.sub_zero, Nat.sub_sub_self (by omega)]
          rfl
        by_cases hqn : q < dest.len
        · rw [if_neg hq, if_pos hqn, if_pos (by omega), Nat.zero_add]
          rfl
        · rw [if_neg hq, if_neg hqn, if_neg (by omega), if_neg (by omega)]
    refine ⟨_, rfl, rfl, hwf, fun k hk => ?_⟩
    rw [position_eq (r := dest.len - l) ?_]
    · exact hbits k hk
    · rw [← hmod, show ((dest.len - l : ℕ) : ℤ) = i.tmod dest.len + dest.len by omega, Int.add_emod_right]

end Rotation

-- Rotating and shifting by any amounts.
def RotatesAndShifts (dest : BitVector) (src : Operand BitVector) (i : ℤ) (B : BitVector) (j : ℤ) : Prop :=
  CircShifted dest src i ∧ ShiftedBy B (shiftLeftInt B j) j ∧ ShiftedBy B (shiftRightInt B j) (-j)

-- Every vector is shifted and every one but the empty one is rotated.
theorem rotates_iff_nonempty {dest : BitVector} (hdest : WellFormed dest) {src : Operand BitVector}
    (hsrc : WellFormed (src.get dest)) (hlen : (src.get dest).len = dest.len) (i : ℤ) {B : BitVector} (hB : WellFormed B) (j : ℤ) :
    RotatesAndShifts dest src i B j ↔ dest.len ≠ 0 := by
  constructor
  · rintro ⟨⟨B', hB', -⟩, -⟩ hzero
    unfold circshift at hB'
    rw [if_neg (by omega)] at hB'
    dsimp only at hB'
    rw [if_pos hzero] at hB'
    cases hB'
  · intro hn
    exact ⟨circshift_spec hdest hsrc hlen hn i, shiftLeftInt_spec hB j, shiftRightInt_spec hB j⟩

theorem wellFormed_five : WellFormed ⟨[5], 5⟩ := wellFormed_chunk (by decide) (by decide)

theorem rotates_iff_nonempty_five : RotatesAndShifts ⟨[5], 5⟩ .self (-7) ⟨[5], 5⟩ (-2 ^ 63) ↔ (5 : ℕ) ≠ 0 :=
  @rotates_iff_nonempty _ wellFormed_five .self wellFormed_five rfl (-7) _ wellFormed_five (-2 ^ 63)

-- The empty vector is rotated by a remainder of division by zero.
theorem circshift_empty : WellFormed BitVector.new ∧ circshift BitVector.new .self 0 = .error .DivideError ∧
    ¬RotatesAndShifts BitVector.new .self 0 BitVector.new 0 := by
  refine ⟨new_repr.wellFormed, rfl, ?_⟩
  rintro ⟨⟨B', hB', -⟩, -⟩
  cases hB'

end Joolia.BitArray
