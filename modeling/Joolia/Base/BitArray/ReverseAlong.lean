import Joolia.Base.BitArray.Cache
import Joolia.Base.Range
import Joolia.Library.Fallible
import Joolia.Library.MixedRadix

namespace Joolia.BitArray

open Words MixedRadix

-- `BitArray{N}`, of any number of dimensions; `len` is what `length` returns.
structure BitArrayN extends BitVector where
  dims : List ℕ
deriving DecidableEq, Repr

-- The bits fit the dimensions, which are `Int`s, and so is their product.
structure Shaped (A : BitArrayN) : Prop where
  packed : WellFormed A.toBitVector
  len_eq : A.len = A.dims.prod
  len_lt : A.len < 2 ^ 63
  dims_lt : ∀ d ∈ A.dims, d < 2 ^ 63

-- The element at a Cartesian position, the first dimension running fastest.
def BitArrayN.at (A : BitArrayN) (is : List ℕ) : Bool := bitAt A.chunks (value A.dims is)

-- `similar(A)`
def similar (mem : ℕ → Word) (A : BitArrayN) : BitArrayN := ⟨undefBitVector mem A.len, A.dims⟩

-- `A[i]` and `B[i] = x` with one index, checked.
def getindex (A : BitArrayN) (i : ℤ) : Except BitError Bool :=
  if 0 ≤ i ∧ i < A.len then .ok (unsafeBitgetindex A.chunks i.toNat) else .error (.BoundsError i)

def setindexChecked (B : BitArrayN) (x : Bool) (i : ℤ) : Except BitError BitArrayN :=
  if 0 ≤ i ∧ i < B.len then .ok { B with chunks := setindex B.chunks x i.toNat } else .error (.BoundsError i)

-- `Int` arithmetic
def wrap (x : ℤ) : ℤ := x.bmod (2 ^ 64)

theorem wrap_of_lt {x : ℤ} (hlo : 0 ≤ x) (hhi : x < 2 ^ 63) : wrap x = x := Int.bmod_eq_of_le (by omega) (by omega)

theorem wrap_natCast {n : ℕ} (h : n < 2 ^ 63) : wrap n = n := wrap_of_lt (Int.natCast_nonneg n) (by omega)

theorem undefBitVector_wellFormed (mem : ℕ → Word) (n : ℕ) : WellFormed (undefBitVector mem n) := by
  have hfill := undefBitVector_filling mem n
  refine ⟨hfill.length_eq, fun i hi => hfill.last_eq i (Nat.zero_le i) ?_⟩
  have hle := numBitChunks_pred_le n
  exact hle.trans hi

theorem Shaped.similar {A : BitArrayN} (hA : Shaped A) (mem : ℕ → Word) : Shaped (similar mem A) :=
  ⟨undefBitVector_wellFormed mem A.len, hA.len_eq, hA.len_lt, hA.dims_lt⟩

end Joolia.BitArray

namespace Joolia.BitArray

open Words Fallible MixedRadix

-- The values of `0:stride:last`.
def steps (stride last : ℤ) : Except BitError (List ℤ) :=
  if stride = 0 then .error (.ArgumentError "step cannot be zero")
  else .ok ((List.range (Range.elementCount 0 stride last)).map fun k : ℕ => k * stride)

-- `copy_chunks!` between two vectors. It does not check its arguments: `Outside` is an
-- access to memory that is none of the chunks.
def copyChunksAt (dest : List Word) (pos_d : ℤ) (src : List Word) (pos_s numbits : ℤ) : Except BitError (List Word) :=
  if numbits = 0 then .ok dest
  else if 0 < numbits ∧ 0 ≤ pos_d ∧ pos_d + numbits ≤ 64 * dest.length ∧ 0 ≤ pos_s ∧ pos_s + numbits ≤ 64 * src.length then
    .ok (copyChunks dest pos_d.toNat (.other src) pos_s.toNat numbits.toNat)
  else .error .Outside

-- `_reverse(A, d)`; a product of `Int`s wraps as a whole.
def reverseAlong (mem : ℕ → Word) (A : BitArrayN) (d : ℤ) : Except BitError BitArrayN :=
  let nd := A.dims.length
  if ¬(0 ≤ d ∧ d < nd) then .error (.ArgumentError s!"dimension {d} is not 0 ≤ {d} < {nd}")
  else
    let sd := A.dims.getD d.toNat 1
    if sd = 1 then .ok A
    else
      let B := similar mem A
      let nnd := (List.range nd).countP fun i => A.dims.getD i 1 = 1 ∨ i = d.toNat
      if nnd = nd then
        (List.range sd).foldlM (fun B (i : ℕ) => getindex A (sd - 1 - i : ℕ) >>= fun x => setindexChecked B x i) B
      else
        let leading := A.dims.take d.toNat
        let M := wrap leading.prod
        let N : ℤ := A.len
        let stride := wrap (M * sd)
        if M = 1 then
          steps stride (wrap (N - stride)) >>= fun js => js.foldlM (fun B j =>
            (List.range sd).foldlM (fun B (i : ℕ) =>
              let ri := sd - 1 - i
              getindex A (wrap (j + i)) >>= fun x => setindexChecked B x (wrap (j + ri))) B) B
        else
          (List.range sd).foldlM (fun B (i : ℕ) =>
            let ri := sd - 1 - i
            steps stride (wrap (N - stride)) >>= fun js => js.foldlM (fun B j =>
              let offs := wrap (j + wrap (i * M))
              let boffs := wrap (j + wrap (ri * M))
              (copyChunksAt B.chunks boffs A.chunks offs M).map fun chunks => { B with chunks := chunks }) B) B

section Mirror

-- The position whose coordinate along the axis is turned around; `M` is the product of
-- the axes in front of it.
def mirror (M sd p : ℕ) : ℕ := p % M + M * (sd - 1 - p / M % sd + sd * (p / M / sd))

theorem mirror_value {dims is : List ℕ} (h : Below is dims) {d : ℕ} (hd : d < dims.length) :
    value dims (is.set d (dims.getD d 1 - 1 - is.getD d 0)) = mirror (dims.take d).prod (dims.getD d 1) (value dims is) := by
  induction h generalizing d with
  | nil => simp at hd
  | @cons i n is dims hin h ih =>
      have hn : 0 < n := by omega
      cases d with
      | zero =>
          simp only [List.set_cons_zero, List.getD_cons_zero, List.take_zero, List.prod_nil, value, mirror, Nat.mod_one, Nat.div_one,
            Nat.add_mul_mod_self_left, Nat.mod_eq_of_lt hin, Nat.add_mul_div_left _ _ hn, Nat.div_eq_of_lt hin, Nat.zero_add, Nat.one_mul]
      | succ d =>
          simp only [List.set_cons_succ, List.getD_cons_succ, List.take_succ_cons, List.prod_cons, value]
          rw [ih (by simpa using hd), mirror, mirror, Nat.mod_mul, ← Nat.div_div_eq_div_mul, Nat.add_mul_mod_self_left,
            Nat.mod_eq_of_lt hin, Nat.add_mul_div_left _ _ hn, Nat.div_eq_of_lt hin, Nat.zero_add]
          ring

-- Where a block of `M` positions comes from.
theorem mirror_block {M sd i b k : ℕ} (hi : i < sd) (hk : k < M) :
    mirror M sd (M * (sd * b + (sd - 1 - i)) + k) = M * (sd * b + i) + k := by
  have hsd : 0 < sd := by omega
  have hdiv : (M * (sd * b + (sd - 1 - i)) + k) / M = sd * b + (sd - 1 - i) := by
    rw [Nat.mul_add_div (by omega), Nat.div_eq_of_lt hk, Nat.add_zero]
  rw [mirror, hdiv, Nat.mul_add_mod, Nat.mod_eq_of_lt hk, Nat.mul_add_mod, Nat.mod_eq_of_lt (by omega : sd - 1 - i < sd),
    Nat.mul_add_div hsd, Nat.div_eq_of_lt (by omega : sd - 1 - i < sd), show sd - 1 - (sd - 1 - i) = i by omega]
  ring

end Mirror

section Progress

variable {A : BitArrayN} {M sd : ℕ}

-- The positions in `done` are those of the mirrored array.
structure Progress (A : BitArrayN) (M sd : ℕ) (done : ℕ → Prop) (B : BitArrayN) : Prop where
  packed : WellFormed B.toBitVector
  len_eq : B.len = A.len
  dims_eq : B.dims = A.dims
  right : ∀ p < A.len, done p → bitAt B.chunks p = bitAt A.chunks (mirror M sd p)

theorem Progress.start (A : BitArrayN) (M sd : ℕ) (mem : ℕ → Word) : Progress A M sd (fun _ => False) (similar mem A) :=
  ⟨undefBitVector_wellFormed mem A.len, rfl, rfl, fun _ _ h => h.elim⟩

variable {done : ℕ → Prop} {B : BitArrayN}

theorem Progress.weaken (h : Progress A M sd done B) {done' : ℕ → Prop} (hdone : ∀ p < A.len, done' p → done p) :
    Progress A M sd done' B := ⟨h.packed, h.len_eq, h.dims_eq, fun p hp h' => h.right p hp (hdone p hp h')⟩

theorem Progress.set (h : Progress A M sd done B) {q : ℕ} (hq : q < A.len) (hmirror : mirror M sd q < A.len) :
    ∃ B', (getindex A (mirror M sd q : ℕ) >>= fun x => setindexChecked B x q) = .ok B' ∧
      Progress A M sd (fun p => done p ∨ p = q) B' := by
  have hle := numBitChunks_le B.len
  have hlen := h.packed.length_chunks
  have hlenA := h.len_eq
  have hcap : q < 64 * B.chunks.length := by omega
  refine ⟨{ B with chunks := setindex B.chunks (unsafeBitgetindex A.chunks (mirror M sd q)) q }, ?_, ?_, h.len_eq, h.dims_eq, ?_⟩
  · rw [getindex, if_pos (by omega), ok_bind, setindexChecked, if_pos (by omega)]
    rfl
  · refine ⟨?_, fun i hi => ?_⟩
    · dsimp only
      rw [setindex, unsafeBitsetindex]
      split_ifs <;> rw [List.length_set, hlen]
    · dsimp only at hi ⊢
      rw [bitAt_setindex _ _ hcap, if_neg (by omega), h.packed.past_end i hi]
  · intro p hp hdone
    dsimp only
    rw [bitAt_setindex _ _ hcap, unsafeBitgetindex_eq]
    split_ifs with heq
    · rw [heq]
    · exact h.right p hp (hdone.resolve_right heq)

theorem Progress.copy (h : Progress A M sd done B) (hA : WellFormed A.toBitVector) (boffs offs : ℕ) (hM : 0 < M)
    (hdest : boffs + M ≤ A.len) (hsrc : offs + M ≤ A.len) (hmirror : ∀ k < M, mirror M sd (boffs + k) = offs + k) :
    ∃ B', ((copyChunksAt B.chunks boffs A.chunks offs M).map fun chunks => { B with chunks := chunks }) = .ok B' ∧
      Progress A M sd (fun p => done p ∨ boffs ≤ p ∧ p < boffs + M) B' := by
  have hle := numBitChunks_le B.len
  have hlen := h.packed.length_chunks
  have hleA := numBitChunks_le A.len
  have hlenA := hA.length_chunks
  have hlenB := h.len_eq
  have hcopy := copyChunks_spec B.chunks boffs (.other A.chunks) offs M (by omega)
  refine ⟨{ B with chunks := copyChunks B.chunks boffs (.other A.chunks) offs M }, ?_, ⟨?_, fun i hi => ?_⟩, h.len_eq, h.dims_eq, ?_⟩
  · rw [copyChunksAt, if_neg (by omega), if_pos (by omega)]
    rfl
  · exact hcopy.length_eq.trans hlen
  · dsimp only at hi ⊢
    rw [hcopy.bitAt_eq, if_neg (by omega), h.packed.past_end i hi]
  · intro p hp hdone
    dsimp only
    rw [hcopy.bitAt_eq]
    split_ifs with hin
    · have hblock := hmirror (p - boffs) (by omega)
      rw [show boffs + (p - boffs) = p by omega] at hblock
      rw [hblock]
      rfl
    · exact h.right p hp (hdone.resolve_right hin)

end Progress

section Loops

theorem steps_exact {stride R : ℕ} (hstride : 0 < stride) (hR : 0 < R) {N : ℤ} (hN : N = stride * R) :
    steps stride (N - stride) = .ok ((List.range R).map fun k : ℕ => ((k * stride : ℕ) : ℤ)) := by
  have hstop : N - stride = ((R - 1 : ℕ) : ℤ) * stride := by
    rw [hN, Nat.cast_sub hR]
    push_cast
    ring
  have hcount : Range.elementCount 0 stride (N - stride) = R := by
    have hbetween : Range.Between 0 stride (N - stride) 0 := by
      unfold Range.Between
      rw [if_pos (by omega), hstop]
      exact ⟨le_refl 0, by positivity⟩
    rw [Range.elementCount, if_pos hbetween, Range.stepCount, hstop, sub_zero, Int.natAbs_mul, Int.natAbs_natCast, Int.natAbs_natCast,
      Nat.mul_div_cancel _ hstride]
    omega
  rw [steps, if_neg (by omega), hcount]
  simp only [Nat.cast_mul]

variable {A : BitArrayN} {M sd R : ℕ} {B : BitArrayN}

-- A block lies inside the array.
theorem block_le {i k : ℕ} (hi : i < sd) (hk : k < R) : M * (sd * k + i) + M ≤ M * (sd * R) := by
  calc M * (sd * k + i) + M = M * (sd * k + (i + 1)) := by ring
    _ ≤ M * (sd * k + sd) := Nat.mul_le_mul_left M (by omega)
    _ = M * (sd * (k + 1)) := by ring
    _ ≤ M * (sd * R) := Nat.mul_le_mul_left M (Nat.mul_le_mul_left sd hk)

variable (hlen : A.len = M * (sd * R)) (hlt : A.len < 2 ^ 63)

-- The only axis of more than one element.
theorem reverseOnly_spec (hlen : A.len = sd) (h : Progress A 1 sd (fun _ => False) B) :
    ∃ B', (List.range sd).foldlM (fun B i => getindex A (sd - 1 - i : ℕ) >>= fun x => setindexChecked B x i) B = .ok B' ∧
      Progress A 1 sd (fun _ => True) B' := by
  obtain ⟨B', hB', hprog⟩ := foldlM_spec (fun done B => Progress A 1 sd (fun p => p ∈ done) B) (List.range sd)
    (f := fun B i => getindex A (sd - 1 - i : ℕ) >>= fun x => setindexChecked B x i) (h.weaken fun p _ hp => by simp at hp) fun done i B hi hB => by
      have hi := List.mem_range.1 hi
      have hmirror : mirror 1 sd i = sd - 1 - i := by
        simp only [mirror, Nat.mod_one, Nat.div_one, Nat.mod_eq_of_lt hi, Nat.div_eq_of_lt hi, Nat.mul_zero, Nat.add_zero, Nat.zero_add,
          Nat.one_mul]
      obtain ⟨B', hB', hprog⟩ := hB.set (q := i) (by omega) (by omega)
      rw [hmirror] at hB'
      exact ⟨B', hB', hprog.weaken fun p _ hp => by simpa using hp⟩
  exact ⟨B', hB', hprog.weaken fun p hp _ => List.mem_range.2 (by omega)⟩

include hlt in
-- A leading block of one bit: column by column.
theorem reverseBits_spec (hlen : A.len = sd * R) (hsd : 0 < sd) (hR : 0 < R) (h : Progress A 1 sd (fun _ => False) B) :
    ∃ B', (steps sd (A.len - sd) >>= fun js => js.foldlM (fun B j => (List.range sd).foldlM (fun B (i : ℕ) =>
        getindex A (wrap (j + i)) >>= fun x => setindexChecked B x (wrap (j + (sd - 1 - i : ℕ)))) B) B) = .ok B' ∧
      Progress A 1 sd (fun _ => True) B' := by
  rw [steps_exact hsd hR (by rw [hlen]; push_cast; ring), ok_bind, List.foldlM_map]
  obtain ⟨B', hB', hprog⟩ := foldlM_spec (fun done B => Progress A 1 sd (fun p => p / sd ∈ done) B) (List.range R)
    (f := fun B (k : ℕ) => (List.range sd).foldlM (fun B (i : ℕ) =>
      getindex A (wrap ((k * sd : ℕ) + i)) >>= fun x => setindexChecked B x (wrap ((k * sd : ℕ) + (sd - 1 - i : ℕ)))) B)
    (h.weaken fun p _ hp => by simp at hp) fun done k B hk hB => by
      have hk := List.mem_range.1 hk
      obtain ⟨B', hB', hprog⟩ := foldlM_spec
        (fun done' B => Progress A 1 sd (fun p => p / sd ∈ done ∨ p / sd = k ∧ sd - 1 - p % sd ∈ done') B) (List.range sd)
        (f := fun B (i : ℕ) => getindex A (wrap ((k * sd : ℕ) + i)) >>= fun x => setindexChecked B x (wrap ((k * sd : ℕ) + (sd - 1 - i : ℕ))))
        (hB.weaken fun p _ hp => by simpa using hp) fun done' i B hi hB => by
          have hi := List.mem_range.1 hi
          have hblock := block_le (M := 1) hi hk
          have hblock' := block_le (M := 1) (i := sd - 1 - i) (by omega : sd - 1 - i < sd) hk
          have hmirror := mirror_block (M := 1) (b := k) (k := 0) hi Nat.one_pos
          simp only [Nat.one_mul, Nat.add_zero] at hblock hblock' hmirror
          have hcomm : k * sd = sd * k := Nat.mul_comm k sd
          obtain ⟨B', hB', hprog⟩ := hB.set (q := sd * k + (sd - 1 - i)) (by omega) (by omega)
          refine ⟨B', ?_, hprog.weaken fun p _ hp => ?_⟩
          · rw [hcomm, ← Nat.cast_add, ← Nat.cast_add, wrap_of_lt (by omega) (by omega), wrap_of_lt (by omega) (by omega), ← hmirror]
            exact hB'
          · rcases hp with hp | ⟨hquot, hp⟩
            · exact .inl (.inl hp)
            · rcases List.mem_append.1 hp with hp | hp
              · exact .inl (.inr ⟨hquot, hp⟩)
              · have hrem := Nat.mod_lt p hsd
                have hdiv := Nat.div_add_mod p sd
                rw [hquot] at hdiv
                rw [List.mem_singleton] at hp
                exact .inr (by omega)
      refine ⟨B', hB', hprog.weaken fun p _ hp => ?_⟩
      rcases List.mem_append.1 hp with hp | hp
      · exact .inl hp
      · have hrem := Nat.mod_lt p hsd
        exact .inr ⟨List.mem_singleton.1 hp, List.mem_range.2 (by omega)⟩
  exact ⟨B', hB', hprog.weaken fun p hp _ => List.mem_range.2 (Nat.div_lt_of_lt_mul (hlen ▸ hp))⟩

include hlen hlt in
-- A leading block of more bits: one copy for each block.
theorem reverseBlocks_spec (hA : WellFormed A.toBitVector) (hM : 0 < M) (hsd : 0 < sd) (hR : 0 < R)
    (h : Progress A M sd (fun _ => False) B) :
    ∃ B', (List.range sd).foldlM (fun B (i : ℕ) => steps (M * sd : ℕ) (A.len - (M * sd : ℕ)) >>= fun js => js.foldlM (fun B j =>
        (copyChunksAt B.chunks (wrap (j + wrap ((sd - 1 - i : ℕ) * M))) A.chunks (wrap (j + wrap (i * M))) M).map
          fun chunks => { B with chunks := chunks }) B) B = .ok B' ∧
      Progress A M sd (fun _ => True) B' := by
  have hstride : 0 < M * sd := Nat.mul_pos hM hsd
  obtain ⟨B', hB', hprog⟩ := foldlM_spec (fun done B => Progress A M sd (fun p => sd - 1 - p / M % sd ∈ done) B) (List.range sd)
    (f := fun B (i : ℕ) => steps (M * sd : ℕ) (A.len - (M * sd : ℕ)) >>= fun js => js.foldlM (fun B j =>
        (copyChunksAt B.chunks (wrap (j + wrap ((sd - 1 - i : ℕ) * M))) A.chunks (wrap (j + wrap (i * M))) M).map
          fun chunks => { B with chunks := chunks }) B)
    (h.weaken fun p _ hp => by simp at hp) fun done i B hi hB => by
      have hi := List.mem_range.1 hi
      rw [steps_exact hstride hR (by rw [hlen]; push_cast; ring), ok_bind, List.foldlM_map]
      obtain ⟨B', hB', hprog⟩ := foldlM_spec
        (fun done' B => Progress A M sd (fun p => sd - 1 - p / M % sd ∈ done ∨ sd - 1 - p / M % sd = i ∧ p / M / sd ∈ done') B)
        (List.range R)
        (f := fun B (k : ℕ) => (copyChunksAt B.chunks (wrap ((k * (M * sd) : ℕ) + wrap ((sd - 1 - i : ℕ) * M))) A.chunks
          (wrap ((k * (M * sd) : ℕ) + wrap (i * M))) M).map fun chunks => { B with chunks := chunks })
        (hB.weaken fun p _ hp => by simpa using hp) fun done' k B hk hB => by
          have hk := List.mem_range.1 hk
          have hblock := block_le (M := M) hi hk
          have hblock' := block_le (M := M) (i := sd - 1 - i) (by omega : sd - 1 - i < sd) hk
          have hoffs : ∀ i : ℕ, M * (sd * k + i) + M ≤ M * (sd * R) →
              wrap ((k * (M * sd) : ℕ) + wrap (i * M)) = (M * (sd * k + i) : ℕ) := by
            intro i hle
            have hsum : M * (sd * k + i) = k * (M * sd) + i * M := by ring
            have hbound : k * (M * sd) + i * M < 2 ^ 63 := by
              rw [← hsum]
              omega
            have hinner : wrap ((i : ℤ) * M) = (i * M : ℕ) := by
              rw [← Nat.cast_mul]
              exact wrap_natCast (Nat.lt_of_le_of_lt (Nat.le_add_left _ _) hbound)
            rw [hinner, ← Nat.cast_add, wrap_natCast hbound, hsum]
          rw [hoffs i hblock, hoffs _ hblock']
          obtain ⟨B', hB', hprog⟩ := hB.copy hA (M * (sd * k + (sd - 1 - i))) (M * (sd * k + i)) hM
            (by omega) (by omega) fun l hl => mirror_block hi hl
          refine ⟨B', hB', hprog.weaken fun p _ hp => ?_⟩
          rcases hp with hp | ⟨hcol, hp⟩
          · exact .inl (.inl hp)
          · rcases List.mem_append.1 hp with hp | hp
            · exact .inl (.inr ⟨hcol, hp⟩)
            · have hrem := Nat.mod_lt (p / M) hsd
              have hdiv := Nat.div_add_mod (p / M) sd
              have hdivM := Nat.div_add_mod p M
              have hremM := Nat.mod_lt p hM
              rw [List.mem_singleton.1 hp] at hdiv
              rw [show p / M = sd * k + (sd - 1 - i) by omega] at hdivM
              exact .inr (by omega)
      refine ⟨B', hB', hprog.weaken fun p hp hmem => ?_⟩
      rcases List.mem_append.1 hmem with hmem | hmem
      · exact .inl hmem
      · refine .inr ⟨List.mem_singleton.1 hmem, List.mem_range.2 ?_⟩
        exact Nat.div_lt_of_lt_mul (Nat.div_lt_of_lt_mul (hlen ▸ hp))
  refine ⟨B', hB', hprog.weaken fun p _ _ => List.mem_range.2 ?_⟩
  omega

end Loops

section Shapes

variable {dims : List ℕ} {d : ℕ}

theorem prod_split (hd : d < dims.length) : dims.prod = (dims.take d).prod * (dims.getD d 1 * (dims.drop (d + 1)).prod) := by
  rw [← List.prod_take_mul_prod_drop dims d, List.drop_eq_getElem_cons hd, List.prod_cons, List.getD_eq_getElem _ _ hd]

-- The test for a single axis of more than one element.
theorem countP_axes : (List.range dims.length).countP (fun i => decide (dims.getD i 1 = 1 ∨ i = d)) = dims.length ↔
    ∀ i < dims.length, i ≠ d → dims.getD i 1 = 1 := by
  have hcount := List.countP_eq_length (p := fun i => decide (dims.getD i 1 = 1 ∨ i = d)) (l := List.range dims.length)
  rw [List.length_range] at hcount
  rw [hcount]
  simp only [List.mem_range, decide_eq_true_eq]
  exact forall₂_congr fun i _ => ⟨fun h hne => h.resolve_right hne, fun h => or_iff_not_imp_right.2 h⟩

theorem prod_others (honly : ∀ i < dims.length, i ≠ d → dims.getD i 1 = 1) : (dims.take d).prod = 1 ∧ (dims.drop (d + 1)).prod = 1 := by
  constructor
  · refine List.prod_eq_one fun x hx => ?_
    obtain ⟨i, hi, rfl⟩ := List.mem_take_iff_getElem.1 hx
    have hlt : i < dims.length := by omega
    have hone := honly i hlt (by omega)
    rwa [List.getD_eq_getElem _ _ hlt] at hone
  · refine List.prod_eq_one fun x hx => ?_
    obtain ⟨i, hi, rfl⟩ := List.mem_drop_iff_getElem.1 hx
    have hone := honly (d + 1 + i) (by omega) (by omega)
    rwa [List.getD_eq_getElem _ _ (by omega)] at hone

end Shapes

section Reverse

variable {A : BitArrayN} (hA : Shaped A) {d : ℕ} (hd : d < A.dims.length) (mem : ℕ → Word)

include hA hd

theorem reverseAlong_nonempty (hne : A.len ≠ 0) : ∃ B, reverseAlong mem A d = .ok B ∧
    Progress A (A.dims.take d).prod (A.dims.getD d 1) (fun _ => True) B := by
  have hsplit := hA.len_eq.trans (prod_split hd)
  obtain ⟨M, hM⟩ : ∃ M, M = (A.dims.take d).prod := ⟨_, rfl⟩
  obtain ⟨R, hR⟩ : ∃ R, R = (A.dims.drop (d + 1)).prod := ⟨_, rfl⟩
  obtain ⟨sd, hsd⟩ : ∃ sd, sd = A.dims.getD d 1 := ⟨_, rfl⟩
  rw [← hM, ← hR, ← hsd] at hsplit
  have hMpos : 0 < M := Nat.pos_of_ne_zero fun h => hne (by rw [hsplit, h, Nat.zero_mul])
  have hsdpos : 0 < sd := Nat.pos_of_ne_zero fun h => hne (by rw [hsplit, h, Nat.zero_mul, Nat.mul_zero])
  have hRpos : 0 < R := Nat.pos_of_ne_zero fun h => hne (by rw [hsplit, h, Nat.mul_zero, Nat.mul_zero])
  have hlt := hA.len_lt
  have hMsd : M * sd ≤ A.len := by
    rw [hsplit]
    exact Nat.mul_le_mul_left M (Nat.le_mul_of_pos_right sd hRpos)
  have hMle : M ≤ M * sd := Nat.le_mul_of_pos_right M hsdpos
  unfold reverseAlong
  rw [if_neg (by omega)]
  dsimp only
  rw [Int.toNat_natCast, ← hsd, ← hM, wrap_natCast (by omega : M < 2 ^ 63), ← Nat.cast_mul, wrap_natCast (by omega : M * sd < 2 ^ 63),
    wrap_of_lt (by omega) (by omega)]
  by_cases hone : sd = 1
  · rw [if_pos hone]
    refine ⟨A, rfl, hA.packed, rfl, rfl, fun p _ _ => ?_⟩
    rw [mirror, hone, Nat.mod_one, Nat.div_one, Nat.one_mul, Nat.sub_zero, Nat.sub_self, Nat.zero_add, Nat.mod_add_div]
  rw [if_neg hone]
  by_cases honly : (List.range A.dims.length).countP (fun i => decide (A.dims.getD i 1 = 1 ∨ i = d)) = A.dims.length
  · rw [if_pos honly]
    obtain ⟨hfront, hback⟩ := prod_others (countP_axes.1 honly)
    rw [hM, hfront]
    exact reverseOnly_spec (by rw [hsplit, hM, hR, hfront, hback, Nat.one_mul, Nat.mul_one]) (Progress.start A 1 sd mem)
  rw [if_neg honly]
  by_cases hbit : M = 1
  · subst hbit
    rw [if_pos Nat.cast_one, Nat.one_mul]
    exact reverseBits_spec hlt (by rw [hsplit, Nat.one_mul]) hsdpos hRpos (Progress.start A 1 sd mem)
  · rw [if_neg (by omega)]
    exact reverseBlocks_spec hsplit hlt hA.packed hMpos hsdpos hRpos (Progress.start A M sd mem)

end Reverse

section Empty

-- The shapes whose loops step by zero, or step out of an empty array.
def Refused (dims : List ℕ) (d : ℕ) : Prop :=
  let sd := dims.getD d 1
  let M := wrap (dims.take d).prod
  let stride := wrap (M * sd)
  sd ≠ 1 ∧ ¬(∀ i < dims.length, i ≠ d → dims.getD i 1 = 1) ∧
    (M = 1 ∧ sd = 0 ∨ M ≠ 1 ∧ sd ≠ 0 ∧ dims.prod = 0 ∧ (stride = 0 ∨ stride = -2 ^ 63))

theorem wrap_bounds (x : ℤ) : -2 ^ 63 ≤ wrap x ∧ wrap x < 2 ^ 63 := by
  have hlo := Int.le_bmod (x := x) (m := 2 ^ 64) (by omega)
  have hhi := Int.bmod_lt (x := x) (m := 2 ^ 64) (by omega)
  unfold wrap
  omega

theorem wrap_of_bounds {x : ℤ} (hlo : -2 ^ 63 ≤ x) (hhi : x < 2 ^ 63) : wrap x = x := Int.bmod_eq_of_le (by omega) (by omega)

-- The columns of an empty array.
theorem steps_empty {stride : ℤ} (hlo : -2 ^ 63 ≤ stride) (hhi : stride < 2 ^ 63) (hzero : stride ≠ 0) (hmin : stride ≠ -2 ^ 63) :
    steps stride (wrap (0 - stride)) = .ok [] := by
  have hcount : Range.elementCount 0 stride (wrap (0 - stride)) = 0 := by
    rw [wrap_of_bounds (by omega) (by omega), Range.elementCount, if_neg]
    unfold Range.Between
    split_ifs <;> omega
  rw [steps, if_neg hzero, hcount]
  rfl

theorem steps_min : ∃ js, steps (-2 ^ 63) (wrap (0 - -2 ^ 63)) = .ok (0 :: js) := by
  have hstop : wrap (0 - -2 ^ 63) = -2 ^ 63 := by decide
  have hcount : Range.elementCount 0 (-2 ^ 63) (-2 ^ 63) = 2 := by decide
  rw [hstop, steps, if_neg (by decide), hcount]
  exact ⟨_, rfl⟩

theorem copyChunksAt_outside {dest : List Word} (hdest : dest.length = 0) (pos_d : ℤ) (src : List Word) (pos_s : ℤ) {numbits : ℤ}
    (hnum : numbits ≠ 0) : copyChunksAt dest pos_d src pos_s numbits = .error .Outside := by
  rw [copyChunksAt, if_neg hnum, if_neg (by omega)]

variable {A : BitArrayN} (hA : Shaped A) {d : ℕ} (hd : d < A.dims.length) (mem : ℕ → Word)

include hA hd

theorem reverseAlong_empty (hempty : A.len = 0) :
    (∃ B, reverseAlong mem A d = .ok B ∧ B.dims = A.dims ∧ Shaped B) ↔ ¬Refused A.dims d := by
  have hprod := hA.len_eq
  rw [hempty] at hprod
  have hsimilar := hA.similar mem
  unfold reverseAlong Refused
  rw [if_neg (by omega)]
  dsimp only
  rw [Int.toNat_natCast, ← hprod]
  by_cases hone : A.dims.getD d 1 = 1
  · rw [if_pos hone]
    exact ⟨fun _ h => h.1 hone, fun _ => ⟨A, rfl, rfl, hA⟩⟩
  rw [if_neg hone]
  by_cases honly : ∀ i < A.dims.length, i ≠ d → A.dims.getD i 1 = 1
  · rw [if_pos (countP_axes.2 honly)]
    obtain ⟨hfront, hback⟩ := prod_others honly
    have hsplit := prod_split hd
    rw [← hprod, hfront, hback, Nat.one_mul, Nat.mul_one] at hsplit
    rw [← hsplit]
    exact ⟨fun _ h => h.2.1 honly, fun _ => ⟨_, rfl, rfl, hsimilar⟩⟩
  rw [if_neg fun h => honly (countP_axes.1 h), hempty]
  have hsd : A.dims.getD d 1 < 2 ^ 63 := by
    rw [List.getD_eq_getElem _ _ hd]
    exact hA.dims_lt _ (List.getElem_mem hd)
  generalize A.dims.getD d 1 = sd at hone hsd ⊢
  generalize wrap (A.dims.take d).prod = M
  obtain ⟨hlo, hhi⟩ := wrap_bounds (M * sd)
  by_cases hbit : M = 1
  · rw [if_pos hbit]
    by_cases hzero : sd = 0
    · have hstride : wrap (M * (sd : ℕ)) = 0 := by
        rw [hzero, Nat.cast_zero, mul_zero]
        rfl
      rw [hstride]
      constructor
      · rintro ⟨B, hB, -⟩
        cases hB
      · exact fun h => (h ⟨hone, honly, .inl ⟨hbit, hzero⟩⟩).elim
    · have hstride : wrap (M * (sd : ℕ)) = sd := by rw [hbit, one_mul, wrap_natCast hsd]
      rw [hstride, Nat.cast_zero, steps_empty (by omega) (by omega) (by omega) (by omega)]
      refine ⟨fun _ h => ?_, fun _ => ⟨_, rfl, rfl, hsimilar⟩⟩
      rcases h.2.2 with ⟨-, h⟩ | ⟨h, -⟩
      · exact hzero h
      · exact h hbit
  rw [if_neg hbit]
  by_cases hzero : sd = 0
  · subst hzero
    refine ⟨fun _ h => ?_, fun _ => ⟨_, rfl, rfl, hsimilar⟩⟩
    rcases h.2.2 with ⟨h, -⟩ | ⟨-, h, -⟩
    · exact hbit h
    · exact h rfl
  generalize hstride : wrap (M * (sd : ℕ)) = stride at hlo hhi ⊢
  by_cases hbad : stride = 0 ∨ stride = -2 ^ 63
  · refine ⟨fun ⟨B, hB, _⟩ => ?_, fun h => (h ⟨hone, honly, .inr ⟨hbit, hzero, rfl, hbad⟩⟩).elim⟩
    obtain ⟨n, rfl⟩ := Nat.exists_eq_succ_of_ne_zero hzero
    rw [List.range_succ_eq_map, List.foldlM_cons] at hB
    rcases hbad with rfl | rfl
    · cases hB
    · have hM : M ≠ 0 := by
        rintro rfl
        rw [zero_mul] at hstride
        exact absurd hstride (by decide)
      have hnone : (similar mem A).chunks.length = 0 := by
        rw [hsimilar.packed.length_chunks, similar, undefBitVector, hempty]
        rfl
      obtain ⟨js, hjs⟩ := steps_min
      rw [Nat.cast_zero, hjs, ok_bind, List.foldlM_cons, copyChunksAt_outside hnone _ _ _ hM] at hB
      cases hB
  · refine ⟨fun _ h => ?_, fun _ => ?_⟩
    · rcases h.2.2 with ⟨h, -⟩ | ⟨-, -, -, h⟩
      · exact hbit h
      · exact hbad h
    · obtain ⟨B, hB, rfl⟩ := foldlM_spec (fun _ B => B = similar mem A) (List.range sd)
        (f := fun B (i : ℕ) => steps stride (wrap (0 - stride)) >>= fun js => js.foldlM (fun B j =>
          (copyChunksAt B.chunks (wrap (j + wrap ((sd - 1 - i : ℕ) * M))) A.chunks (wrap (j + wrap (i * M))) M).map
            fun chunks => { B with chunks := chunks }) B) rfl fun done i B _ hB =>
          ⟨B, by rw [steps_empty hlo hhi (fun h => hbad (.inl h)) fun h => hbad (.inr h)]; rfl, hB⟩
      exact ⟨similar mem A, hB, rfl, hsimilar⟩

end Empty

-- Element `i` along the axis is element `sd - 1 - i` of the old array, and nothing is thrown.
def ReversesAlong (mem : ℕ → Word) (A : BitArrayN) (d : ℕ) : Prop :=
  ∃ B, reverseAlong mem A d = .ok B ∧ B.dims = A.dims ∧ Shaped B ∧
    ∀ is, Below is A.dims → B.at is = A.at (is.set d (A.dims.getD d 1 - 1 - is.getD d 0))

-- Arrays are reversed along an axis if and only if their shape is not refused.
theorem reverses_iff_not_refused (mem : ℕ → Word) {A : BitArrayN} (hA : Shaped A) {d : ℕ} (hd : d < A.dims.length) :
    ReversesAlong mem A d ↔ ¬Refused A.dims d := by
  by_cases hempty : A.len = 0
  · rw [← reverseAlong_empty hA hd mem hempty]
    constructor
    · rintro ⟨B, hB, hdims, hshaped, -⟩
      exact ⟨B, hB, hdims, hshaped⟩
    · rintro ⟨B, hB, hdims, hshaped⟩
      refine ⟨B, hB, hdims, hshaped, fun is his => ?_⟩
      have hlt := value_lt his
      rw [← hA.len_eq] at hlt
      omega
  · obtain ⟨B, hB, hprog⟩ := reverseAlong_nonempty hA hd mem hempty
    have hprod := hA.len_eq
    have hsplit := hprod.trans (prod_split hd)
    have hsd : A.dims.getD d 1 ≠ 0 := by
      intro h
      rw [h, Nat.zero_mul, Nat.mul_zero] at hsplit
      exact hempty hsplit
    constructor
    · rintro - ⟨-, -, ⟨-, h⟩ | ⟨-, -, h, -⟩⟩
      · exact hsd h
      · exact hempty (hprod.trans h)
    · intro _
      refine ⟨B, hB, hprog.dims_eq, ⟨hprog.packed, ?_, ?_, ?_⟩, fun is his => ?_⟩
      · rw [hprog.len_eq, hprog.dims_eq, hprod]
      · rw [hprog.len_eq]
        exact hA.len_lt
      · rw [hprog.dims_eq]
        exact hA.dims_lt
      · have hlt := value_lt his
        rw [BitArrayN.at, BitArrayN.at, hprog.dims_eq, hprog.right _ (by omega) trivial, mirror_value his hd]

-- A matrix of two by two bits, and one without rows.
theorem reverses_square : ReversesAlong (fun _ => 7) ⟨⟨[5], 4⟩, [2, 2]⟩ 1 ↔ ¬Refused [2, 2] 1 :=
  reverses_iff_not_refused (fun _ => 7) ⟨wellFormed_chunk (by decide) (by decide), rfl, by decide, by decide⟩ (by decide)

theorem reverse_no_rows : Shaped ⟨⟨[], 0⟩, [0, 3]⟩ ∧
    reverseAlong (fun _ => 0) ⟨⟨[], 0⟩, [0, 3]⟩ 0 = .error (.ArgumentError "step cannot be zero") ∧
    ¬ReversesAlong (fun _ => 0) ⟨⟨[], 0⟩, [0, 3]⟩ 0 := by
  have herror : reverseAlong (fun _ => 0) ⟨⟨[], 0⟩, [0, 3]⟩ 0 = .error (.ArgumentError "step cannot be zero") := by decide
  refine ⟨⟨new_repr.wellFormed, rfl, by decide, by decide⟩, herror, ?_⟩
  rintro ⟨B, hB, -⟩
  rw [Nat.cast_zero, herror] at hB
  cases hB

end Joolia.BitArray
