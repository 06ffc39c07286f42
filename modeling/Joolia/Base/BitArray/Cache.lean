import Joolia.Base.BitArray.Repr
import Joolia.Library.Fallible
import Mathlib.Tactic.IntervalCases

namespace Joolia.BitArray

open Words Fallible

-- `UInt64(x)`
def boolWord (x : Bool) : Word := if x then 1 else 0

def pack8bools (z : Word) : Word :=
  let z := z ||| (z >>> 7)
  let z := z ||| (z >>> 14)
  let z := z ||| (z >>> 28)
  z &&& 0xFF

-- The eight bytes of `C` from position `ind` on as one word; the first byte is the lowest.
def load8 (C : List Bool) (ind : ℕ) : Word :=
  Loop.up 0 8 (fun j z => z ||| (boolWord (C.getD (ind + j) false) <<< (8 * j))) 0

-- `for j = lo:hi  c |= UInt64(C[ind]) << j; ind += 1`
def gather (C : List Bool) (ind lo hi : ℕ) : Word :=
  Loop.up lo (hi + 1) (fun j c => c ||| (boolWord (C.getD (ind + (j - lo)) false) <<< j)) 0

-- The chunk that the loop over eight packed bytes makes.
def gather8 (C : List Bool) (ind : ℕ) : Word :=
  Loop.up 0 8 (fun j c => c ||| (pack8bools (load8 C (ind + 8 * j)) <<< (8 * j))) 0

-- `copy_to_bitarray_chunks!(Bc, pos_d, C::Array{Bool}, pos_s, numbits)`
def copyToBitarrayChunks (bc : List Word) (pos_d : ℕ) (C : List Bool) (pos_s numbits : ℕ) : List Word :=
  if numbits = 0 then bc
  else
    let kd0 := pos_d / 64
    let ld0 := pos_d % 64
    let kd1 := (pos_d + numbits - 1) / 64
    let ld1 := (pos_d + numbits - 1) % 64
    let delta_kd := kd1 - kd0
    let msk_d0 := mskD0 ld0 ld1 delta_kd
    let msk_d1 := if delta_kd = 0 then msk_d0 else mskD1 ld1
    let lt0 := if delta_kd = 0 then ld1 else 63
    let (bc, bind, ind) :=
      if ld0 > 0 then
        let c := gather C pos_s ld0 lt0
        (bc.set kd0 ((word bc kd0 &&& msk_d0) ||| (c &&& ~~~msk_d0)), kd0 + 1, pos_s + (lt0 + 1 - ld0))
      else (bc, kd0, pos_s)
    let nc := (numbits - (ind - pos_s)) / 64
    let nc8 := nc / 8 * 8
    let bc := Loop.up 0 nc8 (fun t bc => bc.set (bind + t) (gather8 C (ind + 64 * t))) bc
    let bc := Loop.up nc8 nc (fun t bc => bc.set (bind + t) (gather C (ind + 64 * t) 0 63)) bc
    let bind := bind + nc
    let ind := ind + 64 * nc
    if bind ≤ kd1 then
      let c := gather C ind 0 ld1
      bc.set kd1 ((word bc kd1 &&& msk_d1) ||| (c &&& ~~~msk_d1))
    else bc

def bitcacheChunks : ℕ := 64

def bitcacheSize : ℕ := 64 * bitcacheChunks

def dumpbitcache (bc : List Word) (bind : ℕ) (C : List Bool) : List Word :=
  copyToBitarrayChunks bc (64 * bind) C 0 (min bitcacheSize (64 * (bc.length - bind)))

-- `C[ind:bitcache_size-1] .= false`
def clearRest (C : List Bool) (ind : ℕ) : List Bool := C.take ind ++ List.replicate (bitcacheSize - ind) false

-- `Vector{Bool}(undef, bitcache_size)`
def newCache (cmem : ℕ → Bool) : List Bool := (List.range bitcacheSize).map cmem

-- One value of the iterator in `gen_bitarray_from_itr`: the vector, the cache, the position in it, the chunks written.
def genStep (mem : ℕ → Word) (state : BitVector × List Bool × ℕ × ℕ) (x : Bool) :
    Except BitError (BitVector × List Bool × ℕ × ℕ) :=
  let (B, C, ind, cind) := state
  let C := C.set ind x
  let ind := ind + 1
  if ind ≥ bitcacheSize then do
    let B ← resize mem B (B.len + bitcacheSize : ℕ)
    pure (⟨dumpbitcache B.chunks cind C, B.len⟩, C, 0, cind + bitcacheChunks)
  else pure (B, C, ind, cind)

def genBitarrayFromItr (mem : ℕ → Word) (cmem : ℕ → Bool) (itr : List Bool) : Except BitError BitVector := do
  let (B, C, ind, cind) ← itr.foldlM (genStep mem) (BitVector.new, newCache cmem, 0, 0)
  if ind > 0 then
    let C := clearRest C ind
    let B ← resize mem B (B.len + ind : ℕ)
    pure ⟨dumpbitcache B.chunks cind C, B.len⟩
  else pure B

-- The same in `fill_bitarray_from_itr!`, where the chunks are there from the start.
def fillStep (state : List Word × List Bool × ℕ × ℕ) (x : Bool) : List Word × List Bool × ℕ × ℕ :=
  let (bc, C, ind, cind) := state
  let C := C.set ind x
  let ind := ind + 1
  if ind ≥ bitcacheSize then (dumpbitcache bc cind C, C, 0, cind + bitcacheChunks) else (bc, C, ind, cind)

def fillBitarrayFromItr (cmem : ℕ → Bool) (B : BitVector) (itr : List Bool) : BitVector :=
  let (bc, C, ind, cind) := itr.foldl fillStep (B.chunks, newCache cmem, 0, 0)
  if ind > 1 then ⟨dumpbitcache bc cind (clearRest C ind), B.len⟩ else ⟨bc, B.len⟩

-- `BitVector(undef, n)`: only the last chunk is cleared.
def undefBitVector (mem : ℕ → Word) (n : ℕ) : BitVector :=
  ⟨setLast ((List.range (numBitChunks n)).map mem) 0, n⟩

-- `BitArray(itr)`, for an iterator that produces the values `itr` and whose length is known or not.
def bitArray (mem : ℕ → Word) (cmem : ℕ → Bool) (lengthKnown : Bool) (itr : List Bool) : Except BitError BitVector :=
  if lengthKnown then .ok (fillBitarrayFromItr cmem (undefBitVector mem itr.length) itr)
  else genBitarrayFromItr mem cmem itr

section Words

theorem getLsbD_boolWord_shiftLeft (x : Bool) (q : ℕ) {p : ℕ} (hp : p < 64) :
    (boolWord x <<< q).getLsbD p = (x && decide (p = q)) := by
  cases x with
  | false => simp [boolWord]
  | true => rw [boolWord, if_pos rfl, getLsbD_one_shiftLeft _ hp, Bool.true_and]

theorem getLsbD_gather (C : List Bool) (ind : ℕ) {lo hi p : ℕ} (hlo : lo ≤ hi) (hp : p < 64) :
    (gather C ind lo hi).getLsbD p = if lo ≤ p ∧ p ≤ hi then C.getD (ind + (p - lo)) false else false := by
  have hloop : (gather C ind lo hi).getLsbD p =
      if lo ≤ p ∧ p < hi + 1 then C.getD (ind + (p - lo)) false else false := by
    apply Loop.up_invariant (fun t (c : Word) =>
      c.getLsbD p = if lo ≤ p ∧ p < t then C.getD (ind + (p - lo)) false else false) (by omega)
    · rw [if_neg (by omega)]
      simp
    · intro t c hlt _ hc
      rw [BitVec.getLsbD_or, hc, getLsbD_boolWord_shiftLeft _ _ hp]
      by_cases hpt : p = t
      · subst hpt
        rw [if_neg (by omega), if_pos (by omega)]
        simp
      · by_cases hin : lo ≤ p ∧ p < t
        · rw [if_pos hin, if_pos (by omega)]
          simp [hpt]
        · rw [if_neg hin, if_neg (by omega)]
          simp [hpt]
  rw [hloop]
  by_cases hin : lo ≤ p ∧ p ≤ hi
  · rw [if_pos hin, if_pos (by omega)]
  · rw [if_neg hin, if_neg (by omega)]

-- A word whose bytes are zero or one becomes the byte of their lowest bits.
theorem getLsbD_pack8bools {z : Word} (hz : ∀ i, i % 8 ≠ 0 → z.getLsbD i = false) {p : ℕ} (hp : p < 64) :
    (pack8bools z).getLsbD p = if p < 8 then z.getLsbD (8 * p) else false := by
  have hmask : (0xFF : Word).getLsbD p = decide (p < 8) := by
    have hall : ∀ q < 64, (0xFF : Word).getLsbD q = decide (q < 8) := by decide
    exact hall p hp
  simp only [pack8bools, BitVec.getLsbD_and, hmask, BitVec.getLsbD_or, BitVec.getLsbD_ushiftRight]
  by_cases h8 : p < 8
  · rw [if_pos h8, decide_eq_true h8, Bool.and_true]
    -- of the eight bits that are put together only one is the lowest of its byte
    generalize BitVec.getLsbD z = bit at hz ⊢
    interval_cases p <;> simp [hz]
  · rw [if_neg h8, decide_eq_false h8, Bool.and_false]

theorem getLsbD_load8 (C : List Bool) (ind : ℕ) {p : ℕ} (hp : p < 64) :
    (load8 C ind).getLsbD p = if p % 8 = 0 then C.getD (ind + p / 8) false else false := by
  have hloop : (load8 C ind).getLsbD p =
      if p % 8 = 0 ∧ p / 8 < 8 then C.getD (ind + p / 8) false else false := by
    apply Loop.up_invariant (fun t (c : Word) =>
      c.getLsbD p = if p % 8 = 0 ∧ p / 8 < t then C.getD (ind + p / 8) false else false) (by omega)
    · rw [if_neg (by omega)]
      simp
    · intro t c _ _ hc
      rw [BitVec.getLsbD_or, hc, getLsbD_boolWord_shiftLeft _ _ hp]
      by_cases hpt : p = 8 * t
      · subst hpt
        rw [if_neg (by omega), if_pos (by omega), Nat.mul_div_cancel_left t (by omega)]
        simp
      · by_cases hin : p % 8 = 0 ∧ p / 8 < t
        · rw [if_pos hin, if_pos (by omega)]
          simp [hpt]
        · rw [if_neg hin, if_neg (by omega)]
          simp [hpt]
  rw [hloop]
  by_cases hin : p % 8 = 0
  · rw [if_pos hin, if_pos ⟨hin, by omega⟩]
  · rw [if_neg hin, if_neg (fun h => hin h.1)]

theorem getLsbD_gather8 (C : List Bool) (ind : ℕ) {p : ℕ} (hp : p < 64) :
    (gather8 C ind).getLsbD p = C.getD (ind + p) false := by
  have hzero : ∀ ind i, i % 8 ≠ 0 → (load8 C ind).getLsbD i = false := by
    intro ind i hi
    by_cases h64 : i < 64
    · rw [getLsbD_load8 _ _ h64, if_neg hi]
    · exact BitVec.getLsbD_of_ge _ _ (by omega)
  have hloop : (gather8 C ind).getLsbD p = if p < 8 * 8 then C.getD (ind + p) false else false := by
    apply Loop.up_invariant (fun t (c : Word) =>
      c.getLsbD p = if p < 8 * t then C.getD (ind + p) false else false) (by omega)
    · rw [if_neg (by omega)]
      simp
    · intro t c _ _ hc
      rw [BitVec.getLsbD_or, hc, BitVec.getLsbD_shiftLeft, decide_eq_true hp, Bool.true_and]
      by_cases hbelow : p < 8 * t
      · rw [if_pos hbelow, if_pos (by omega)]
        simp [hbelow]
      · rw [if_neg hbelow, getLsbD_pack8bools (hzero _) (by omega)]
        simp only [hbelow, decide_false, Bool.not_false, Bool.true_and, Bool.false_or]
        by_cases hin : p - 8 * t < 8
        · rw [if_pos hin, if_pos (by omega), getLsbD_load8 _ _ (by omega), if_pos (by omega)]
          congr 1
          omega
        · rw [if_neg hin, if_neg (by omega)]
  rw [hloop, if_pos (by omega)]

end Words

section Chunks

variable {bc cur : List Word} {C : List Bool} {pos_d pos_s e k : ℕ}

-- The bits before `e` have been written.
structure Written (bc : List Word) (pos_d : ℕ) (C : List Bool) (pos_s e : ℕ) (cur : List Word) : Prop where
  length_eq : cur.length = bc.length
  bitAt_eq : ∀ i, bitAt cur i = if pos_d ≤ i ∧ i < e then C.getD (pos_s + (i - pos_d)) false else bitAt bc i

theorem Written.start (bc : List Word) (pos_d : ℕ) (C : List Bool) (pos_s : ℕ) : Written bc pos_d C pos_s pos_d bc :=
  ⟨rfl, fun i => by rw [if_neg (by omega)]⟩

-- One more chunk: its bits up to `e'` come from the array, and the others stay.
theorem Written.set (h : Written bc pos_d C pos_s e cur) {e' : ℕ} {w : Word} (hk : k < bc.length) (he : e ≤ e')
    (hgap : ∀ i, e ≤ i → i < e' → i / 64 = k)
    (hw : ∀ p < 64, w.getLsbD p = if e ≤ 64 * k + p ∧ 64 * k + p < e' then C.getD (pos_s + (64 * k + p - pos_d)) false
      else bitAt cur (64 * k + p)) (hpos : pos_d ≤ e) : Written bc pos_d C pos_s e' (cur.set k w) := by
  refine ⟨by rw [List.length_set, h.length_eq], fun i => ?_⟩
  rw [bitAt_set _ (by rw [h.length_eq]; exact hk)]
  by_cases hik : i / 64 = k
  · have hi : 64 * k + i % 64 = i := by omega
    rw [if_pos hik, hw _ (Nat.mod_lt i (by omega)), hi]
    by_cases hnew : e ≤ i ∧ i < e'
    · rw [if_pos hnew, if_pos (by omega)]
    · rw [if_neg hnew, h.bitAt_eq]
      by_cases hold : pos_d ≤ i ∧ i < e
      · rw [if_pos hold, if_pos (by omega)]
      · rw [if_neg hold, if_neg (by omega)]
  · rw [if_neg hik, h.bitAt_eq]
    by_cases hold : pos_d ≤ i ∧ i < e
    · rw [if_pos hold, if_pos (by omega)]
    · rw [if_neg hold, if_neg]
      intro hnew
      exact hik (hgap i (by omega) hnew.2)

-- A whole chunk, and one of which a mask keeps the rest.
theorem Written.full (h : Written bc pos_d C pos_s (64 * k) cur) (hk : k < bc.length) (hpos : pos_d ≤ 64 * k) {w : Word}
    (hw : ∀ p < 64, w.getLsbD p = C.getD (pos_s + (64 * k - pos_d) + p) false) :
    Written bc pos_d C pos_s (64 * (k + 1)) (cur.set k w) := by
  refine h.set hk (by omega) (fun i _ _ => by omega) (fun p hp => ?_) hpos
  rw [hw p hp, if_pos (by omega)]
  congr 1
  omega

theorem Written.merge (h : Written bc pos_d C pos_s e cur) {e' : ℕ} (hk : k < bc.length) (he : e ≤ e')
    (hgap : ∀ i, e ≤ i → i < e' → i / 64 = k) (hpos : pos_d ≤ e) {msk c : Word}
    (hmsk : ∀ p < 64, msk.getLsbD p = decide (¬ (e ≤ 64 * k + p ∧ 64 * k + p < e')))
    (hc : ∀ p < 64, e ≤ 64 * k + p → 64 * k + p < e' → c.getLsbD p = C.getD (pos_s + (64 * k + p - pos_d)) false) :
    Written bc pos_d C pos_s e' (cur.set k ((word cur k &&& msk) ||| (c &&& ~~~msk))) := by
  refine h.set hk he hgap (fun p hp => ?_) hpos
  rw [getLsbD_merge _ _ _ hp, hmsk p hp]
  by_cases hin : e ≤ 64 * k + p ∧ 64 * k + p < e'
  · rw [decide_eq_false (not_not_intro hin), if_neg Bool.false_ne_true, if_pos hin]
    exact hc p hp hin.1 hin.2
  · rw [decide_eq_true hin, if_pos rfl, if_neg hin, bitAt_word _ _ hp]

-- The two loops over whole chunks.
theorem Written.loops (h : Written bc pos_d C pos_s (64 * k) cur) (hpos : pos_d ≤ 64 * k) (nc : ℕ) (hnc : k + nc ≤ bc.length) :
    Written bc pos_d C pos_s (64 * (k + nc))
      (Loop.up (nc / 8 * 8) nc (fun t bc => bc.set (k + t) (gather C (pos_s + (64 * k - pos_d) + 64 * t) 0 63))
        (Loop.up 0 (nc / 8 * 8) (fun t bc => bc.set (k + t) (gather8 C (pos_s + (64 * k - pos_d) + 64 * t))) cur)) := by
  have hstep : ∀ t state (w : Word), t < nc → (∀ p < 64, w.getLsbD p = C.getD (pos_s + (64 * k - pos_d) + 64 * t + p) false) →
      Written bc pos_d C pos_s (64 * (k + t)) state → Written bc pos_d C pos_s (64 * (k + (t + 1))) (state.set (k + t) w) := by
    intro t state w ht hw hstate
    refine hstate.full (by omega) (by omega) fun p hp => ?_
    rw [hw p hp]
    congr 1
    omega
  apply Loop.up_invariant (fun t state => Written bc pos_d C pos_s (64 * (k + t)) state) (by omega)
  · apply Loop.up_invariant (fun t state => Written bc pos_d C pos_s (64 * (k + t)) state) (Nat.zero_le _) h
    intro t state _ ht hstate
    exact hstep t state _ (by omega) (fun p hp => getLsbD_gather8 _ _ hp) hstate
  · intro t state _ ht hstate
    refine hstep t state _ ht (fun p hp => ?_) hstate
    rw [getLsbD_gather _ _ (by omega) hp, if_pos (by omega), Nat.sub_zero]

-- The first chunk, when it does not start at a chunk boundary.
theorem Written.first (bc : List Word) (pos_d : ℕ) (C : List Bool) (pos_s : ℕ) {numbits : ℕ} (hnum : 0 < numbits)
    (hbits : pos_d + numbits ≤ 64 * bc.length) :
    Written bc pos_d C pos_s (min (pos_d + numbits) (64 * (pos_d / 64 + 1)))
      (bc.set (pos_d / 64) ((word bc (pos_d / 64) &&&
        mskD0 (pos_d % 64) ((pos_d + numbits - 1) % 64) ((pos_d + numbits - 1) / 64 - pos_d / 64)) |||
        (gather C pos_s (pos_d % 64)
          (if (pos_d + numbits - 1) / 64 - pos_d / 64 = 0 then (pos_d + numbits - 1) % 64 else 63) &&&
          ~~~mskD0 (pos_d % 64) ((pos_d + numbits - 1) % 64) ((pos_d + numbits - 1) / 64 - pos_d / 64)))) := by
  refine (Written.start bc pos_d C pos_s).merge (by omega) (by omega) (fun i _ _ => by omega) (le_refl _)
    (fun p hp => ?_) (fun p hp hge hlt => ?_)
  · rw [getLsbD_mskD0 _ _ _ hp, decide_eq_decide]
    omega
  · rw [getLsbD_gather _ _ (by split <;> omega) hp, if_pos (by split <;> omega)]
    congr 1
    omega

-- The whole chunks from chunk `k` on and the last one, when the bits before them are there.
theorem Written.rest {bc : List Word} {pos_d : ℕ} {C : List Bool} {pos_s numbits e k : ℕ} {cur : List Word}
    (h : Written bc pos_d C pos_s e cur) (hnum : 0 < numbits) (hbits : pos_d + numbits ≤ 64 * bc.length) (hpos : pos_d ≤ e)
    (he : e = 64 * k ∧ 64 * k ≤ pos_d + numbits ∨ e = pos_d + numbits ∧ pos_d + numbits ≤ 64 * k) {msk : Word}
    (hmsk : 64 * k < pos_d + numbits → ∀ p < 64, msk.getLsbD p = decide ((pos_d + numbits - 1) % 64 < p)) {nc ind : ℕ}
    (hind : ind = pos_s + (e - pos_d)) (hnc : nc = (numbits - (ind - pos_s)) / 64) {loops : List Word}
    (hloops : loops = Loop.up (nc / 8 * 8) nc (fun t bc => bc.set (k + t) (gather C (ind + 64 * t) 0 63))
      (Loop.up 0 (nc / 8 * 8) (fun t bc => bc.set (k + t) (gather8 C (ind + 64 * t))) cur)) :
    Written bc pos_d C pos_s (pos_d + numbits)
      (if k + nc ≤ (pos_d + numbits - 1) / 64 then
        loops.set ((pos_d + numbits - 1) / 64) ((word loops ((pos_d + numbits - 1) / 64) &&& msk) |||
          (gather C (ind + 64 * nc) 0 ((pos_d + numbits - 1) % 64) &&& ~~~msk))
      else loops) := by
  rcases he with ⟨he, hle⟩ | ⟨he, hle⟩
  · subst he
    have hwhole : Written bc pos_d C pos_s (64 * (k + nc)) loops := by
      rw [hloops, hind]
      exact h.loops hpos nc (by omega)
    by_cases hlast : k + nc ≤ (pos_d + numbits - 1) / 64
    · rw [if_pos hlast]
      refine hwhole.merge (by omega) (by omega) (fun i _ _ => by omega) (by omega) (fun p hp => ?_)
        (fun p hp hge hlt => ?_)
      · rw [hmsk (by omega) p hp, decide_eq_decide]
        omega
      · rw [getLsbD_gather _ _ (Nat.zero_le _) hp, if_pos (by omega)]
        congr 1
        omega
    · rw [if_neg hlast]
      have hend : 64 * (k + nc) = pos_d + numbits := by omega
      exact hend ▸ hwhole
  · have hzero : nc = 0 := by omega
    subst hzero
    rw [if_neg (by omega), hloops, ← he]
    exact h

-- The bits from `pos_d` on become the elements from `pos_s` on, and all others stay.
theorem copyToBitarrayChunks_spec (bc : List Word) (pos_d : ℕ) (C : List Bool) (pos_s numbits : ℕ)
    (hbits : pos_d + numbits ≤ 64 * bc.length) :
    Written bc pos_d C pos_s (pos_d + numbits) (copyToBitarrayChunks bc pos_d C pos_s numbits) := by
  by_cases hnum : numbits = 0
  · rw [copyToBitarrayChunks, if_pos hnum, hnum]
    exact Written.start bc pos_d C pos_s
  have hpos : 0 < numbits := Nat.pos_of_ne_zero hnum
  rw [copyToBitarrayChunks, if_neg hnum]
  by_cases hld : pos_d % 64 > 0
  · simp only [hld, if_true]
    refine (Written.first bc pos_d C pos_s hpos hbits).rest hpos hbits (by omega) (by omega) (fun hlt p hp => ?_)
      (by split <;> omega) rfl rfl
    rw [if_neg (by omega), getLsbD_mskD1 _ hp]
  · simp only [hld, if_false]
    refine (Written.start bc pos_d C pos_s).rest hpos hbits (le_refl _) (by omega) (fun _ p hp => ?_) (by omega) rfl rfl
    by_cases hsame : (pos_d + numbits - 1) / 64 - pos_d / 64 = 0
    · rw [if_pos hsame, getLsbD_mskD0 _ _ _ hp, decide_eq_decide]
      omega
    · rw [if_neg hsame, getLsbD_mskD1 _ hp]

variable {cind : ℕ}

@[simp] theorem length_dumpbitcache (hcind : cind ≤ bc.length) : (dumpbitcache bc cind C).length = bc.length :=
  (copyToBitarrayChunks_spec bc _ C 0 _ (by omega)).length_eq

theorem bitAt_dumpbitcache (hcind : cind ≤ bc.length) {i : ℕ} (hi : i < 64 * bc.length) :
    bitAt (dumpbitcache bc cind C) i =
      if 64 * cind ≤ i ∧ i < 64 * cind + bitcacheSize then C.getD (i - 64 * cind) false else bitAt bc i := by
  rw [dumpbitcache, (copyToBitarrayChunks_spec bc _ C 0 _ (by omega)).bitAt_eq, Nat.zero_add]
  by_cases hin : 64 * cind ≤ i ∧ i < 64 * cind + bitcacheSize
  · rw [if_pos hin, if_pos (by omega)]
  · rw [if_neg hin, if_neg (by omega)]

end Chunks

section Runs

variable {bc : List Word} {C flushed cur : List Bool} {cind : ℕ}

-- The values before the cache are in the chunks: after the dump those of the cache are too.
theorem bitAt_flush (hlen : flushed.length = 64 * cind) (hcind : cind ≤ bc.length)
    (hbits : ∀ i, i < 64 * cind → bitAt bc i = flushed.getD i false) (hC : ∀ j, C.getD j false = cur.getD j false)
    {i : ℕ} (hi : i < 64 * cind + bitcacheSize) (hin : i < 64 * bc.length) :
    bitAt (dumpbitcache bc cind C) i = (flushed ++ cur).getD i false := by
  rw [bitAt_dumpbitcache hcind hin, getD_append_ite, hlen]
  by_cases hold : i < 64 * cind
  · rw [if_neg (by omega), if_pos hold, hbits i hold]
  · rw [if_pos (by omega), if_neg hold, hC]

-- The first `ind` entries of the cache are the values read since the last dump.
structure Cached (C : List Bool) (ind : ℕ) (cur : List Bool) : Prop where
  length_eq : C.length = bitcacheSize
  ind_eq : ind = cur.length
  take_eq : C.take ind = cur

variable {ind : ℕ} (mem : ℕ → Word) (cmem : ℕ → Bool)

theorem bitcacheSize_pos : 0 < bitcacheSize := by decide

theorem Cached.start (cmem : ℕ → Bool) : Cached (newCache cmem) 0 [] :=
  ⟨by simp [newCache], rfl, List.take_zero⟩

theorem Cached.push (h : Cached C ind cur) (hind : ind < bitcacheSize) (x : Bool) :
    Cached (C.set ind x) (ind + 1) (cur ++ [x]) := by
  have hlt : ind < (C.set ind x).length := by rw [List.length_set, h.length_eq]; exact hind
  refine ⟨by rw [List.length_set, h.length_eq], by rw [List.length_append, ← h.ind_eq, List.length_singleton], ?_⟩
  rw [List.take_succ_eq_append_getElem hlt, List.take_set_of_le (le_refl ind), h.take_eq, List.getElem_set_self]

theorem Cached.restart (h : Cached C ind cur) : Cached C 0 [] := ⟨h.length_eq, rfl, List.take_zero⟩

theorem Cached.getD_full (h : Cached C ind cur) (hind : ind = bitcacheSize) (j : ℕ) : C.getD j false = cur.getD j false := by
  rw [← h.take_eq, List.take_of_length_le (by rw [h.length_eq, hind])]

theorem Cached.getD_clearRest (h : Cached C ind cur) (j : ℕ) : (clearRest C ind).getD j false = cur.getD j false := by
  rw [clearRest, h.take_eq, getD_append_ite]
  by_cases hj : j < cur.length
  · rw [if_pos hj]
  · rw [if_neg hj, List.getD_eq_default cur _ (by omega)]
    simp [List.getD, List.getElem?_replicate]
    split <;> rfl

theorem numBitChunks_add (n m : ℕ) : numBitChunks (64 * n + m) = n + numBitChunks m := by
  unfold numBitChunks
  rw [Nat.mul_add_mod, Nat.mul_add_div (by omega), Nat.add_assoc]

-- The vector grows by the values of the cache, which are then written.
theorem flush_repr {B : BitVector} (h : Represents B flushed) (hlen : flushed.length = 64 * cind)
    (hC : ∀ j, C.getD j false = cur.getD j false) (hpos : 0 < cur.length) (hcur : cur.length ≤ bitcacheSize) :
    ∃ B', resize mem B (B.len + cur.length : ℕ) = .ok B' ∧
      Represents ⟨dumpbitcache B'.chunks cind C, B'.len⟩ (flushed ++ cur) := by
  have hBlen : B.len = 64 * cind := by rw [h.len_eq, hlen]
  obtain ⟨hgrown, hold, -⟩ := growTo_spec mem h (Nat.le_add_right B.len cur.length)
  have hchunks : numBitChunks (B.len + cur.length) = cind + numBitChunks cur.length := by
    rw [hBlen, numBitChunks_add]
  have hcap := numBitChunks_pred_le cur.length
  have hcover := numBitChunks_le cur.length
  have hmax : numBitChunks cur.length ≤ bitcacheChunks := numBitChunks_mono hcur
  have hcind : cind ≤ (growTo mem B (B.len + cur.length)).length := by omega
  refine ⟨⟨growTo mem B (B.len + cur.length), B.len + cur.length⟩, ?_, ?_⟩
  · rw [resize, if_neg (by omega), dif_neg (by omega), dif_neg (by omega), Int.toNat_natCast]
  · refine ⟨by rw [length_dumpbitcache hcind, hgrown], by rw [List.length_append, h.len_eq], fun i => ?_⟩
    rw [bitcacheChunks] at hmax
    by_cases hi : i < 64 * (growTo mem B (B.len + cur.length)).length
    · exact bitAt_flush hlen hcind (fun i hi => hold i (by omega)) hC (by rw [bitcacheSize, bitcacheChunks]; omega) hi
    · rw [bitAt_of_length_le (by rw [length_dumpbitcache hcind]; omega),
        List.getD_eq_default _ _ (by rw [List.length_append]; omega)]

-- What the first loop keeps: the values read are those of the vector and those of the cache.
structure Generating (done : List Bool) (state : BitVector × List Bool × ℕ × ℕ) : Prop where
  parts : ∃ flushed cur, done = flushed ++ cur ∧ Represents state.1 flushed ∧ flushed.length = 64 * state.2.2.2 ∧
    Cached state.2.1 state.2.2.1 cur ∧ state.2.2.1 < bitcacheSize

theorem Generating.step {done : List Bool} {state : BitVector × List Bool × ℕ × ℕ} (h : Generating done state) (x : Bool) :
    ∃ next, genStep mem state x = .ok next ∧ Generating (done ++ [x]) next := by
  obtain ⟨B, C, ind, cind⟩ := state
  obtain ⟨flushed, cur, rfl, hrepr, hlen, hcache, hind⟩ := h.parts
  dsimp only at hrepr hlen hcache hind
  have hpush := hcache.push hind x
  have hcount : (cur ++ [x]).length = ind + 1 := hpush.ind_eq.symm
  rw [List.append_assoc]
  by_cases hfull : ind + 1 ≥ bitcacheSize
  · have hsize : ind + 1 = bitcacheSize := by omega
    obtain ⟨B', hresize, hrepr'⟩ := flush_repr mem hrepr hlen (hpush.getD_full hsize) (by omega) (by omega)
    rw [hcount, hsize] at hresize
    refine ⟨(⟨dumpbitcache B'.chunks cind (C.set ind x), B'.len⟩, C.set ind x, 0, cind + bitcacheChunks), ?_, ⟨?_⟩⟩
    · simp only [genStep, if_pos hfull, hresize, ok_bind, pure_eq_ok]
    · refine ⟨flushed ++ (cur ++ [x]), [], (List.append_nil _).symm, hrepr', ?_, hpush.restart, bitcacheSize_pos⟩
      rw [List.length_append, hlen, hcount, hsize, bitcacheSize]
      exact (Nat.mul_add 64 cind bitcacheChunks).symm
  · have hroom : ind + 1 < bitcacheSize := by omega
    refine ⟨(B, C.set ind x, ind + 1, cind), ?_, ⟨flushed, cur ++ [x], rfl, hrepr, hlen, hpush, hroom⟩⟩
    simp only [genStep, if_neg hfull, pure_eq_ok]

theorem genBitarrayFromItr_spec (itr : List Bool) :
    ∃ B, genBitarrayFromItr mem cmem itr = .ok B ∧ Represents B itr := by
  have hstart : Generating [] (BitVector.new, newCache cmem, 0, 0) := by
    refine ⟨[], [], rfl, new_repr, rfl, ?_, bitcacheSize_pos⟩
    dsimp only
    exact Cached.start cmem
  obtain ⟨⟨B, C, ind, cind⟩, hloop, hlast⟩ := foldlM_spec Generating itr hstart
    fun done x state _ h => h.step mem x
  obtain ⟨flushed, cur, rfl, hrepr, hlen, hcache, hind⟩ := hlast.parts
  dsimp only at hrepr hlen hcache hind
  simp only [genBitarrayFromItr, hloop, ok_bind]
  by_cases hpos : ind > 0
  · obtain ⟨B', hresize, hrepr'⟩ := flush_repr mem hrepr hlen hcache.getD_clearRest
      (by rw [← hcache.ind_eq]; exact hpos) (by rw [← hcache.ind_eq]; omega)
    rw [← hcache.ind_eq] at hresize
    rw [if_pos hpos, hresize]
    exact ⟨_, rfl, hrepr'⟩
  · have hnil : cur = [] := List.length_eq_zero_iff.mp (by rw [← hcache.ind_eq]; omega)
    rw [if_neg hpos, hnil, List.append_nil]
    exact ⟨B, rfl, hrepr⟩

-- The chunks that are there from the start: the values before the cache are in them, the rest of the last one is clear.
structure Filling (n : ℕ) (flushed : List Bool) (bc : List Word) : Prop where
  length_eq : bc.length = numBitChunks n
  bitAt_eq : ∀ i, i < flushed.length → bitAt bc i = flushed.getD i false
  last_eq : ∀ i, flushed.length ≤ i → 64 * (numBitChunks n - 1) ≤ i → bitAt bc i = false

theorem Filling.flush {n : ℕ} (h : Filling n flushed bc) (hlen : flushed.length = 64 * cind)
    (hC : ∀ j, C.getD j false = cur.getD j false) (hroom : flushed.length + cur.length ≤ n)
    (hcur : cur.length ≤ bitcacheSize) : Filling n (flushed ++ cur) (dumpbitcache bc cind C) := by
  have hcover := numBitChunks_le n
  have hlength := h.length_eq
  have hcind : cind ≤ bc.length := by omega
  have hsize : bitcacheSize = 4096 := by decide
  refine ⟨by rw [length_dumpbitcache hcind, hlength], fun i hi => ?_, fun i hi hlast => ?_⟩
  · rw [List.length_append] at hi
    exact bitAt_flush hlen hcind (fun i hi => h.bitAt_eq i (by omega)) hC (by omega) (by omega)
  · by_cases hin : i < 64 * bc.length
    · rw [bitAt_dumpbitcache hcind hin]
      rw [List.length_append] at hi
      split
      · rw [hC, List.getD_eq_default _ _ (by omega)]
      · exact h.last_eq i (by omega) hlast
    · exact bitAt_of_length_le (by rw [length_dumpbitcache hcind]; omega)

theorem undefBitVector_filling (n : ℕ) : Filling n [] (undefBitVector mem n).chunks := by
  refine ⟨by simp [undefBitVector], fun i hi => absurd hi (Nat.not_lt_zero i), fun i _ hlast => ?_⟩
  by_cases hn : n = 0
  · subst hn
    exact bitAt_of_length_le (by simp [undefBitVector, numBitChunks])
  · have hcover := numBitChunks_le n
    have hne : (List.range (numBitChunks n)).map mem ≠ [] := by
      refine List.ne_nil_of_length_pos ?_
      rw [List.length_map, List.length_range]
      omega
    rw [undefBitVector, bitAt_setLast hne, List.length_map, List.length_range]
    split
    · simp
    · refine bitAt_of_length_le ?_
      rw [List.length_map, List.length_range]
      omega

-- What the second loop keeps, over an array of `n` elements.
structure Filled (n : ℕ) (done : List Bool) (state : List Word × List Bool × ℕ × ℕ) : Prop where
  parts : ∃ flushed cur, done = flushed ++ cur ∧ Filling n flushed state.1 ∧ flushed.length = 64 * state.2.2.2 ∧
    bitcacheSize ∣ flushed.length ∧ Cached state.2.1 state.2.2.1 cur ∧ state.2.2.1 < bitcacheSize

theorem Filled.step {n : ℕ} {done : List Bool} {state : List Word × List Bool × ℕ × ℕ} (h : Filled n done state)
    (x : Bool) (hroom : done.length < n) : Filled n (done ++ [x]) (fillStep state x) := by
  obtain ⟨bc, C, ind, cind⟩ := state
  obtain ⟨flushed, cur, rfl, hfill, hlen, hdvd, hcache, hind⟩ := h.parts
  dsimp only at hfill hlen hcache hind
  have hpush := hcache.push hind x
  have hcount : (cur ++ [x]).length = ind + 1 := hpush.ind_eq.symm
  have hcur := hcache.ind_eq
  rw [List.length_append] at hroom
  rw [List.append_assoc]
  by_cases hfull : ind + 1 ≥ bitcacheSize
  · have hsize : ind + 1 = bitcacheSize := by omega
    have hnext := hfill.flush hlen (hpush.getD_full hsize) (by omega) (by omega)
    rw [fillStep, if_pos hfull]
    refine ⟨flushed ++ (cur ++ [x]), [], (List.append_nil _).symm, hnext, ?_, ?_, hpush.restart, bitcacheSize_pos⟩
    · rw [List.length_append, hlen, hcount, hsize, bitcacheSize]
      exact (Nat.mul_add 64 cind bitcacheChunks).symm
    · rw [List.length_append, hcount, hsize]
      exact Nat.dvd_add hdvd (Nat.dvd_refl _)
  · have hleft : ind + 1 < bitcacheSize := by omega
    rw [fillStep, if_neg hfull]
    exact ⟨flushed, cur ++ [x], rfl, hfill, hlen, hdvd, hpush, hleft⟩

theorem Filled.run {n : ℕ} (itr : List Bool) (hle : itr.length ≤ n) :
    Filled n itr (itr.foldl fillStep ((undefBitVector mem n).chunks, newCache cmem, 0, 0)) := by
  induction itr using List.reverseRecOn with
  | nil =>
      refine ⟨[], [], rfl, undefBitVector_filling mem n, rfl, Nat.dvd_zero _, ?_, bitcacheSize_pos⟩
      dsimp only [List.foldl_nil]
      exact Cached.start cmem
  | append_singleton itr x ih =>
      rw [List.length_append, List.length_singleton] at hle
      rw [List.foldl_append]
      exact (ih (by omega)).step x (by omega)

theorem Filling.full {l : List Bool} (h : Filling l.length l bc) (i : ℕ) : bitAt bc i = l.getD i false := by
  by_cases hi : i < l.length
  · exact h.bitAt_eq i hi
  · have hlast := numBitChunks_pred_le l.length
    rw [h.last_eq i (by omega) (by omega), List.getD_eq_default _ _ (by omega)]

-- The last dump is not made for a single value, which is then read as false.
theorem fillBitarrayFromItr_spec (itr : List Bool) :
    (fillBitarrayFromItr cmem (undefBitVector mem itr.length) itr).len = itr.length ∧
      (fillBitarrayFromItr cmem (undefBitVector mem itr.length) itr).chunks.length = numBitChunks itr.length ∧
      ∀ i, bitAt (fillBitarrayFromItr cmem (undefBitVector mem itr.length) itr).chunks i =
        if itr.length % bitcacheSize = 1 ∧ i + 1 = itr.length then false else itr.getD i false := by
  have hrun := Filled.run mem cmem itr (le_refl _)
  rw [fillBitarrayFromItr]
  rcases hstate : itr.foldl fillStep ((undefBitVector mem itr.length).chunks, newCache cmem, 0, 0) with ⟨bc, C, ind, cind⟩
  rw [hstate] at hrun
  obtain ⟨flushed, cur, hitr, hfill, hlen, hdvd, hcache, hind⟩ := hrun.parts
  dsimp only at hfill hlen hcache hind ⊢
  have hlength : itr.length = flushed.length + ind := by rw [hitr, List.length_append, hcache.ind_eq]
  have hmod : itr.length % bitcacheSize = ind := by
    rw [hlength, ← Nat.mod_add_mod, Nat.mod_eq_zero_of_dvd hdvd, Nat.zero_add, Nat.mod_eq_of_lt hind]
  have hcur := hcache.ind_eq
  rw [hmod]
  by_cases hmany : ind > 1
  · have hnext := hfill.flush hlen hcache.getD_clearRest (by omega) (by omega)
    rw [← hitr] at hnext
    rw [if_pos hmany]
    refine ⟨rfl, hnext.length_eq, fun i => ?_⟩
    rw [if_neg (by omega)]
    exact hnext.full i
  · rw [if_neg hmany]
    refine ⟨rfl, hfill.length_eq, fun i => ?_⟩
    by_cases hone : ind = 1
    · have hchunks : numBitChunks itr.length = cind + 1 := by
        rw [hlength, hlen, hone, numBitChunks_add]
        rfl
      by_cases hi : i < flushed.length
      · rw [if_neg (by omega), hfill.bitAt_eq i hi, hitr, getD_append_ite, if_pos hi]
      · rw [hfill.last_eq i (by omega) (by omega)]
        split
        · rfl
        · rw [List.getD_eq_default _ _ (by omega)]
    · have hnil : cur = [] := List.length_eq_zero_iff.mp (by omega)
      rw [hnil, List.append_nil] at hitr
      rw [if_neg (by omega)]
      exact (hitr ▸ hfill : Filling itr.length itr bc).full i

end Runs

-- Every value is at its place, and no bit past the end is set, unless the length is known
-- and the only value left for the last dump is true.
theorem bitArray_keeps_values (mem : ℕ → Word) (cmem : ℕ → Bool) (lengthKnown : Bool) (itr : List Bool) :
    ∃ B, bitArray mem cmem lengthKnown itr = .ok B ∧ B.len = itr.length ∧ WellFormed B ∧
      ((∀ k, (hk : k < itr.length) → unsafeBitgetindex B.chunks k = itr[k]) ↔
        ¬ (lengthKnown = true ∧ itr.length % bitcacheSize = 1 ∧ itr.getLast? = some true)) := by
  cases lengthKnown with
  | false =>
      obtain ⟨B, hB, hrepr⟩ := genBitarrayFromItr_spec mem cmem itr
      refine ⟨B, hB, hrepr.len_eq, hrepr.wellFormed, iff_of_true (fun k hk => ?_) (fun h => Bool.false_ne_true h.1)⟩
      rw [unsafeBitgetindex_eq, hrepr.bitAt_eq, List.getD_eq_getElem _ _ hk]
  | true =>
      obtain ⟨hlen, hchunks, hbits⟩ := fillBitarrayFromItr_spec mem cmem itr
      refine ⟨_, rfl, hlen, ⟨by rw [hchunks, hlen], fun i hi => ?_⟩, ?_⟩
      · rw [hbits]
        split
        · rfl
        · exact List.getD_eq_default _ _ (by omega)
      · constructor
        · rintro hkeep ⟨-, hmod, hlast⟩
          have hpos : itr ≠ [] := by
            rintro rfl
            cases hlast
          have hlength := List.length_pos_iff.mpr hpos
          have hkeep := hkeep (itr.length - 1) (by omega)
          rw [unsafeBitgetindex_eq, hbits, if_pos ⟨hmod, by omega⟩, ← List.getLast_eq_getElem hpos] at hkeep
          rw [List.getLast?_eq_some_getLast hpos, ← hkeep] at hlast
          cases hlast
        · intro hcond k hk
          rw [unsafeBitgetindex_eq, hbits]
          split
          · rename_i hlost
            have hpos : itr ≠ [] := List.ne_nil_of_length_pos (by omega)
            have hfalse : itr.getLast hpos ≠ true := fun htrue =>
              hcond ⟨rfl, hlost.1, by rw [List.getLast?_eq_some_getLast hpos, htrue]⟩
            have hk' : k = itr.length - 1 := by omega
            subst hk'
            rw [← List.getLast_eq_getElem hpos]
            exact (Bool.eq_false_of_not_eq_true hfalse).symm
          · exact List.getD_eq_getElem _ _ hk

-- A single known value is lost.
theorem bitArray_loses_single_value :
    ∃ B, bitArray (fun _ => 0) (fun _ => false) true [true] = .ok B ∧ unsafeBitgetindex B.chunks 0 = false :=
  ⟨_, rfl, rfl⟩

end Joolia.BitArray
