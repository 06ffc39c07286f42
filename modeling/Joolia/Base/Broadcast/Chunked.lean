import Joolia.Base.Broadcast

namespace Joolia.Broadcast

open BitArray Words Fallible MixedRadix

section Results

-- The array that holds the values `v` in the shape of `dest`
structure Elementwise (dest : BitArrayN) (v : List ℕ → Bool) (r : BitArrayN) : Prop where
  len_eq : r.len = dest.len
  dims_eq : r.dims = dest.dims
  shaped : Shaped r
  at_eq : ∀ is, Below is dest.dims → r.at is = v is

variable {dest : BitArrayN} {v : List ℕ → Bool}

theorem elementwise_of_bits (hdest : Shaped dest) {chunks : List Word} (hlen : chunks.length = dest.chunks.length)
    (hbits : ∀ k < dest.len, bitAt chunks k = v (digits dest.dims k)) (hpad : ∀ k, dest.len ≤ k → bitAt chunks k = false) :
    Elementwise dest v { dest with chunks := chunks } := by
  refine ⟨rfl, rfl, ⟨⟨hlen.trans hdest.packed.length_chunks, hpad⟩, hdest.len_eq, hdest.len_lt, hdest.dims_lt⟩, fun is his => ?_⟩
  have hlt := value_lt his
  rw [BitArrayN.at, hbits _ (hdest.len_eq ▸ hlt), digits_value his]

theorem Elementwise.unique {r s : BitArrayN} (hr : Elementwise dest v r) (hs : Elementwise dest v s) : r = s := by
  have hlen : r.len = s.len := hr.len_eq.trans hs.len_eq.symm
  have hdims : r.dims = s.dims := hr.dims_eq.trans hs.dims_eq.symm
  have hchunks : r.chunks = s.chunks := by
    refine ext_bitAt (by rw [hr.shaped.packed.length_chunks, hs.shaped.packed.length_chunks, hlen]) fun k => ?_
    by_cases hk : k < r.len
    · have hprod : k < dest.dims.prod := by rwa [← hr.dims_eq, ← hr.shaped.len_eq]
      have hbelow := below_digits hprod
      have heq := (hr.at_eq _ hbelow).trans (hs.at_eq _ hbelow).symm
      rwa [BitArrayN.at, BitArrayN.at, hr.dims_eq, hs.dims_eq, value_digits hprod] at heq
    · rw [hr.shaped.packed.past_end k (by omega), hs.shaped.packed.past_end k (by omega)]
  obtain ⟨⟨rchunks, rlen⟩, rdims⟩ := r
  obtain ⟨⟨schunks, slen⟩, sdims⟩ := s
  cases hlen
  cases hdims
  cases hchunks
  rfl

-- A position of the array, not changed by its own dimensions
theorem bitGetindex_eq {dims : List ℕ} (chunks : List Word) {is : List ℕ} (h : Below is dims) :
    bitGetindex dims chunks (is.map fun i : ℕ => (i : ℤ)) = bitAt chunks (value dims is) := by
  have hindex : (newindex dims (is.map fun i : ℕ => (i : ℤ))).map Int.toNat = is := by
    induction h with
    | nil => rfl
    | @cons i d is ds hid _ ih =>
        rw [newindex, List.map_cons, List.zipWith_cons_cons, List.map_cons]
        refine congrArg₂ List.cons ?_ ih
        split_ifs with hd
        · exact Int.toNat_natCast i
        · obtain rfl : i = 0 := by omega
          rfl
  rw [bitGetindex, hindex, unsafeBitgetindex_eq]

end Results

section Bitwise

-- A function of words that works on each bit like a function of `Bool`s
def Bitwise (g : List Word → Except BroadcastError Word) (k : List Bool → Except BroadcastError Bool) : Prop :=
  ∀ (ws : List Word) (bs : List Bool) (b : Bool), bs.length = ws.length → k bs = .ok b →
    ∃ w, g ws = .ok w ∧ ∀ p < 64, k (ws.map (·.getLsbD p)) = .ok (w.getLsbD p)

theorem foldl_getLsbD {opW : Word → Word → Word} {opB : Bool → Bool → Bool} {p : ℕ}
    (h : ∀ x y, (opW x y).getLsbD p = opB (x.getLsbD p) (y.getLsbD p)) (ws : List Word) (x : Word) :
    (ws.foldl opW x).getLsbD p = (ws.map (·.getLsbD p)).foldl opB (x.getLsbD p) := by
  induction ws generalizing x with
  | nil => rfl
  | cons w ws ih => rw [List.foldl_cons, ih, h, List.map_cons, List.foldl_cons]

theorem reduce_bitwise {opW : Word → Word → Word} {opB : Bool → Bool → Bool}
    (h : ∀ x y p, (opW x y).getLsbD p = opB (x.getLsbD p) (y.getLsbD p)) : Bitwise (reduce opW) (reduce opB) := by
  intro ws bs b hlen hb
  cases ws with
  | nil =>
      obtain rfl := List.length_eq_zero_iff.1 hlen
      cases hb
  | cons w ws => exact ⟨_, rfl, fun p _ => by rw [foldl_getLsbD fun x y => h x y p]; rfl⟩

theorem unary_bitwise {opW : Word → Word} {opB : Bool → Bool} (h : ∀ x p, p < 64 → (opW x).getLsbD p = opB (x.getLsbD p)) :
    Bitwise (unary opW) (unary opB) := by
  intro ws bs b hlen hb
  match ws, bs, hlen, hb with
  | [w], [x], _, _ => exact ⟨_, rfl, fun p hp => by rw [h w p hp]; rfl⟩
  | [], [], _, hb => cases hb
  | _ :: _ :: _, _ :: _ :: _, _, hb => cases hb

theorem getLsbD_not (w : Word) {p : ℕ} (hp : p < 64) : (~~~w).getLsbD p = !w.getLsbD p := by
  rw [BitVec.getLsbD_not, decide_eq_true hp, Bool.true_and]

theorem notXor_bitwise : Bitwise LiftedOp.notXor.onWords (binary (· == ·)) := by
  intro ws bs b hlen hb
  match ws, bs, hlen, hb with
  | [x, y], [_, _], _, _ =>
      refine ⟨~~~(x ^^^ y), rfl, fun p hp => ?_⟩
      have hxor : ∀ a b : Bool, (a == b) = !(a ^^ b) := by decide
      rw [getLsbD_not _ hp, BitVec.getLsbD_xor, ← hxor]
      rfl
  | [], [], _, hb => cases hb
  | [_], [_], _, hb => cases hb
  | _ :: _ :: _ :: _, _ :: _ :: _ :: _, _, hb => cases hb

theorem lift_bitwise (o : ChunkableOp) : Bitwise o.lift.onWords o.onBools := by
  cases o with
  | and => exact reduce_bitwise fun _ _ _ => BitVec.getLsbD_and
  | or => exact reduce_bitwise fun _ _ _ => BitVec.getLsbD_or
  | xor => exact reduce_bitwise fun _ _ _ => BitVec.getLsbD_xor
  | tilde => exact unary_bitwise fun x _ hp => getLsbD_not x hp
  | identity => exact unary_bitwise fun _ _ _ => rfl
  | bang => exact unary_bitwise fun x _ hp => getLsbD_not x hp
  | times => exact reduce_bitwise fun _ _ _ => BitVec.getLsbD_and
  | equal => exact notXor_bitwise

end Bitwise

section Trees

variable {α : Type} (O : Others α)

theorem bools_map (bs : List Bool) : bools (bs.map Value.bool : List (Value α)) = some bs := by
  induction bs with
  | nil => rfl
  | cons b bs ih => rw [List.map_cons, bools, ih]; rfl

theorem run_bools (o : ChunkableOp) (bs : List Bool) : Func.run O (.op o) (bs.map .bool) = (o.onBools bs).map .bool := by
  by_cases ho : o = .identity
  · subst ho
    match bs with
    | [] => rfl
    | [b] => rfl
    | b :: c :: bs => rfl
  · rw [Func.run, bools_map]
    exact ho

variable {dims : List ℕ} {P : ℕ → Prop} {g : ℕ → Leaf α → Value α} {chunk : Leaf α → Word}

-- Where the leaves are chunks of the elements at the positions in `P`, so is the value of a chunkable tree, as soon as
-- it has a value at one of them.
mutual

theorem chunkable_arg (hleaf : ∀ x : Leaf α, x.ischunked dims = true → ∀ p < 64, P p → g p x = .bool ((chunk x).getLsbD p))
    {p0 : ℕ} (hp0 : p0 < 64) (hP0 : P p0) (a : Arg (Func α) (Leaf α)) (ha : ischunkedArg dims a = true) {y : Value α}
    (hy : broadcastGetindex (Func.run O) (g p0) a = .ok y) :
    ∃ w, broadcastGetindex Func.onWords chunk a = .ok w ∧
      ∀ p < 64, P p → broadcastGetindex (Func.run O) (g p) a = .ok (.bool (w.getLsbD p)) := by
  match a with
  | .leaf x =>
      rw [ischunkedArg] at ha
      refine ⟨chunk x, by rw [broadcastGetindex], fun p hp hP => ?_⟩
      rw [broadcastGetindex, hleaf x ha p hp hP]
  | .nested (.fn f) args =>
      rw [ischunkedArg] at ha
      cases ha
  | .nested (.op o) args =>
      rw [ischunkedArg] at ha
      rw [broadcastGetindex, bind_eq_ok] at hy
      obtain ⟨ys, hys, hrun⟩ := hy
      obtain ⟨ws, hws, helems⟩ := chunkable_args hleaf hp0 hP0 args ha hys
      have hvals : ∀ p : ℕ, ws.map (fun w => (Value.bool (w.getLsbD p) : Value α)) = (ws.map (·.getLsbD p)).map Value.bool :=
        fun p => List.map_map.symm
      have hrun' : ∀ p < 64, P p → broadcastGetindex (Func.run O) (g p) (.nested (.op o) args) =
          (o.onBools (ws.map (·.getLsbD p))).map .bool := by
        intro p hp hP
        rw [broadcastGetindex, helems p hp hP, ok_bind, hvals, run_bools]
      have hp0' := hrun' p0 hp0 hP0
      rw [broadcastGetindex, hys, ok_bind, hrun] at hp0'
      cases hb : o.onBools (ws.map (·.getLsbD p0)) with
      | error e =>
          rw [hb] at hp0'
          cases hp0'
      | ok b =>
          obtain ⟨w, hw, hbits⟩ := lift_bitwise o ws _ b (List.length_map _) hb
          refine ⟨w, ?_, fun p hp hP => ?_⟩
          · rw [broadcastGetindex, hws]
            exact hw
          · rw [hrun' p hp hP, hbits p hp]
            rfl

theorem chunkable_args (hleaf : ∀ x : Leaf α, x.ischunked dims = true → ∀ p < 64, P p → g p x = .bool ((chunk x).getLsbD p))
    {p0 : ℕ} (hp0 : p0 < 64) (hP0 : P p0) (args : Args (Func α) (Leaf α)) (hargs : ischunkedArgs dims args = true)
    {ys : List (Value α)} (hys : getindexArgs (Func.run O) (g p0) args = .ok ys) :
    ∃ ws, getindexArgs Func.onWords chunk args = .ok ws ∧
      ∀ p < 64, P p → getindexArgs (Func.run O) (g p) args = .ok (ws.map fun w => .bool (w.getLsbD p)) := by
  match args with
  | .nil => exact ⟨[], by rw [getindexArgs], fun p _ _ => by rw [getindexArgs]; rfl⟩
  | .cons a args =>
      rw [ischunkedArgs, Bool.and_eq_true] at hargs
      rw [getindexArgs, bind_eq_ok] at hys
      obtain ⟨y, hy, hrest⟩ := hys
      rw [bind_eq_ok] at hrest
      obtain ⟨ys, hys, -⟩ := hrest
      obtain ⟨w, hw, helem⟩ := chunkable_arg hleaf hp0 hP0 a hargs.1 hy
      obtain ⟨ws, hws, helems⟩ := chunkable_args hleaf hp0 hP0 args hargs.2 hys
      refine ⟨w :: ws, ?_, fun p hp hP => ?_⟩
      · rw [getindexArgs, hw, ok_bind, hws, ok_bind]
      · rw [getindexArgs, helem p hp hP, ok_bind, helems p hp hP, ok_bind, List.map_cons]

end

end Trees

section Chunks

variable {α : Type} (O : Others α) {dims : List ℕ}

def Leaf.chunk (dc : List Word) (i : ℕ) : Leaf α → Word
  | .bits .self => word dc i
  | .bits (.other B) => word B.val.chunks i
  | .bool b => if b then msk64 else 0
  | .scalar _ => 0
  | .array _ => 0

theorem ithchunk_eq {x : Leaf α} (h : x.ischunked dims = true) (dc : List Word) (i : ℕ) : x.ithchunk dc i = .ok (x.chunk dc i) := by
  match x, h with
  | .bits .self, _ => rfl
  | .bits (.other B), _ => rfl
  | .bool b, _ => rfl

mutual

theorem ischunked_of_mem_arg {x : Leaf α} (a : Arg (Func α) (Leaf α)) (ha : ischunkedArg dims a = true) (hx : x ∈ catNested a) :
    x.ischunked dims = true := by
  match a with
  | .leaf y =>
      rw [ischunkedArg] at ha
      rw [catNested, List.mem_singleton] at hx
      rw [hx, ha]
  | .nested (.fn f) args =>
      rw [ischunkedArg] at ha
      cases ha
  | .nested (.op o) args =>
      rw [ischunkedArg] at ha
      rw [catNested] at hx
      exact ischunked_of_mem_args args ha hx

theorem ischunked_of_mem_args {x : Leaf α} (args : Args (Func α) (Leaf α)) (hargs : ischunkedArgs dims args = true)
    (hx : x ∈ catNestedArgs args) : x.ischunked dims = true := by
  match args with
  | .nil =>
      rw [catNestedArgs] at hx
      cases hx
  | .cons a args =>
      rw [ischunkedArgs, Bool.and_eq_true] at hargs
      rw [catNestedArgs, List.mem_append] at hx
      rcases hx with hx | hx
      · exact ischunked_of_mem_arg a hargs.1 hx
      · exact ischunked_of_mem_args args hargs.2 hx

end

theorem mapM_ithchunk {xs : List (Leaf α)} (h : ∀ x ∈ xs, x.ischunked dims = true) (dc : List Word) (i : ℕ) :
    xs.mapM (Leaf.ithchunk dc i) = .ok (xs.map (Leaf.chunk dc i)) := by
  induction xs with
  | nil => rfl
  | cons x xs ih =>
      rw [List.mapM_cons, ithchunk_eq (h x List.mem_cons_self), ok_bind, ih fun y hy => h y (List.mem_cons_of_mem x hy)]
      rfl

-- A chunk of a leaf holds its elements at 64 positions in a row.
theorem read_eq_chunk {chunks dc : List Word} {i : ℕ} (hdc : word dc i = word chunks i) {x : Leaf α}
    (hx : x.ischunked dims = true) {p : ℕ} (hp : p < 64) (hlt : 64 * i + p < dims.prod) :
    x.read dims chunks ((digits dims (64 * i + p)).map fun i : ℕ => (i : ℤ)) = .bool ((x.chunk dc i).getLsbD p) := by
  have hbelow := below_digits hlt
  match x with
  | .bits .self => rw [Leaf.read, bitGetindex_eq chunks hbelow, value_digits hlt, bitAt_word _ _ hp, Leaf.chunk, hdc]
  | .bits (.other B) =>
      rw [Leaf.ischunked, beq_iff_eq] at hx
      rw [Leaf.read, ← hx, bitGetindex_eq _ hbelow, value_digits hlt, bitAt_word _ _ hp, Leaf.chunk]
  | .bool b =>
      rw [Leaf.read, Leaf.chunk]
      cases b with
      | false => simp
      | true => rw [if_pos rfl, msk64, getLsbD_not _ hp]; simp

theorem numBitChunks_pred_lt {n : ℕ} (h : 0 < n) : 64 * (numBitChunks n - 1) < n := by
  unfold numBitChunks
  split <;> omega

-- The mask of the last chunk clears the bits past the end, and only these.
theorem bitAt_masked {n : ℕ} (hpos : 0 < n) {d : List Word} (hlen : d.length = numBitChunks n) (k : ℕ) :
    bitAt (setLast d (word d (d.length - 1) &&& mskEnd n)) k = if k < n then bitAt d k else false := by
  have hbits := numBitChunks_le n
  have hpred := numBitChunks_pred_lt hpos
  have hne : d ≠ [] := by
    rintro rfl
    rw [List.length_nil] at hlen
    omega
  rw [bitAt_setLast hne]
  split_ifs with hlast hk hk
  · have hkeep : n % 64 = 0 ∨ k % 64 < n % 64 := by omega
    rw [BitVec.getLsbD_and, getLsbD_mskEnd n (Nat.mod_lt k (by omega)), decide_eq_true hkeep, Bool.and_true, bitAt, hlast]
  · have hdrop : ¬(n % 64 = 0 ∨ k % 64 < n % 64) := by omega
    rw [BitVec.getLsbD_and, getLsbD_mskEnd n (Nat.mod_lt k (by omega)), decide_eq_false hdrop, Bool.and_false]
  · rfl
  · exact bitAt_of_length_le (by omega)

section Copy

variable {dest : BitArrayN} {bc : Broadcasted α} {v : List ℕ → Bool}

-- What one pass of the loop stores
theorem chunk_value (hdest : Shaped dest)
    (hbool : ∀ is, Below is dest.dims → bc.getbool O dest.dims dest.chunks (is.map fun i : ℕ => (i : ℤ)) = .ok (v is))
    (hchunked : ischunkedbroadcast dest.dims bc = true) {i : ℕ} (hi : 64 * i < dest.len) {dc : List Word}
    (hdc : word dc i = word dest.chunks i) :
    ∃ ws w, (flatten Func.onWords bc.f bc.args).2.mapM (Leaf.ithchunk dc i) = .ok ws ∧
      (flatten Func.onWords bc.f bc.args).1 ws = .ok w ∧
      ∀ p < 64, 64 * i + p < dest.len → w.getLsbD p = v (digits dest.dims (64 * i + p)) := by
  rw [hdest.len_eq] at hi
  have hvalue : ∀ p, 64 * i + p < dest.dims.prod → ∃ y, bc.getindex O dest.dims dest.chunks
      ((digits dest.dims (64 * i + p)).map fun i : ℕ => (i : ℤ)) = .ok y ∧ O.convertBool y = .ok (v (digits dest.dims (64 * i + p))) :=
    fun p hp => bind_eq_ok.1 (hbool _ (below_digits hp))
  obtain ⟨y, hy, -⟩ := hvalue 0 hi
  obtain ⟨w, hw, helem⟩ := chunkable_arg O (P := fun p => 64 * i + p < dest.dims.prod)
    (g := fun p => Leaf.read dest.dims dest.chunks ((digits dest.dims (64 * i + p)).map fun i : ℕ => (i : ℤ)))
    (fun x hx p hp hlt => read_eq_chunk hdc hx hp hlt) (by omega) hi (.nested bc.f bc.args) hchunked hy
  have hleaves : ∀ x ∈ (flatten Func.onWords bc.f bc.args).2, x.ischunked dest.dims = true := by
    rw [flatten_args]
    intro x hx
    exact ischunked_of_mem_arg (.nested bc.f bc.args) hchunked (by rwa [catNested])
  refine ⟨_, w, mapM_ithchunk hleaves dc i, by rw [flatten_spec, hw], fun p hp hlt => ?_⟩
  rw [hdest.len_eq] at hlt
  obtain ⟨y, hy, hconv⟩ := hvalue p hlt
  obtain rfl : Value.bool (w.getLsbD p) = y := Except.ok.inj ((helem p hp hlt).symm.trans hy)
  exact Except.ok.inj hconv

theorem chunkedcopyto_spec (hdest : Shaped dest)
    (hbool : ∀ is, Below is dest.dims → bc.getbool O dest.dims dest.chunks (is.map fun i : ℕ => (i : ℤ)) = .ok (v is))
    (hchunked : ischunkedbroadcast dest.dims bc = true) : ∃ r, chunkedcopyto dest bc = .ok r ∧ Elementwise dest v r := by
  rw [chunkedcopyto]
  split_ifs with hempty
  · exact ⟨dest, rfl, elementwise_of_bits hdest rfl (fun k hk => absurd hk (by omega)) hdest.packed.past_end⟩
  · have hchunks := hdest.packed.length_chunks
    have hbits := numBitChunks_le dest.len
    have hpred := numBitChunks_pred_lt (Nat.pos_of_ne_zero hempty)
    obtain ⟨dc, hloop, hlen, -, hstored⟩ := foldlM_up (f := fun dc (i : ℕ) => do
        let ws ← (flatten Func.onWords bc.f bc.args).2.mapM (Leaf.ithchunk dc i)
        let w ← (flatten Func.onWords bc.f bc.args).1 ws
        .ok (dc.set i w)) (s := dest.chunks) (a := 0) (b := dest.chunks.length)
      (fun i dc => dc.length = dest.chunks.length ∧ (∀ m, i ≤ m → word dc m = word dest.chunks m) ∧
        ∀ k < 64 * i, k < dest.len → bitAt dc k = v (digits dest.dims k)) (Nat.zero_le _)
      ⟨rfl, fun _ _ => rfl, fun k hk => absurd hk (by omega)⟩ (by
        rintro i dc - hi ⟨hlen, hrest, hstored⟩
        obtain ⟨ws, w, hws, hw, hval⟩ := chunk_value O hdest hbool hchunked (i := i) (by omega) (hrest i (Nat.le_refl i))
        refine ⟨dc.set i w, by rw [hws, ok_bind, hw, ok_bind], by rw [List.length_set, hlen], fun m hm => ?_, fun k hk hlt => ?_⟩
        · rw [word_set, if_neg (by omega), hrest m (by omega)]
        · rw [bitAt_set dc (by omega)]
          split_ifs with hki
          · have hsplit : 64 * i + k % 64 = k := by omega
            rw [hval _ (Nat.mod_lt k (by omega)) (by omega), hsplit]
          · exact hstored k (by omega) hlt)
    rw [Nat.sub_zero, ← List.range_eq_range'] at hloop
    dsimp only
    rw [hloop]
    have hmasked := bitAt_masked (Nat.pos_of_ne_zero hempty) (hlen.trans hchunks)
    refine ⟨_, rfl, elementwise_of_bits hdest (by rw [length_setLast, hlen]) (fun k hk => ?_) fun k hk => ?_⟩
    · rw [hmasked, if_pos hk]
      exact hstored k (by omega) hk
    · rw [hmasked, if_neg (by omega)]

end Copy

end Chunks

end Joolia.Broadcast

namespace Joolia.Broadcast

open BitArray Words Fallible MixedRadix

-- The first `done` values are written: those of whole chunks to the memory, the others to the register.
structure Packed (init : List Word) (vals : ℕ → Bool) (done : ℕ) (s : Packer) : Prop where
  count : 64 * s.indc + s.bitst = done
  bitst_lt : s.bitst < 64
  length_eq : s.destc.length = init.length
  untouched : ∀ m, s.indc ≤ m → word s.destc m = word init m
  stored : ∀ k < 64 * s.indc, bitAt s.destc k = vals k
  register : ∀ p < 64, s.remain.getLsbD p = (decide (p < s.bitst) && vals (64 * s.indc + p))

-- The values of the column `I` come after `first` others. They may be read as long as the chunks from theirs on
-- are those of the beginning.
def Reads (get : Getbool) (init : List Word) (vals : ℕ → Bool) (L first : ℕ) (I : List ℤ) : Prop :=
  ∀ destc m i, (∀ j, m ≤ j → word destc j = word init j) → i < L → 64 * m ≤ i + first →
    get destc ((i : ℤ) :: I) = .ok (vals (i + first))

section Column

variable {get : Getbool} {init : List Word} {vals : ℕ → Bool} {L first : ℕ} {I : List ℤ}

theorem getLsbD_or_boolWord {z : Word} {b : Bool} {j : ℕ} (hj : j < 64) {f : ℕ → Bool} (hb : b = f j)
    (hz : ∀ p < 64, z.getLsbD p = (decide (p < j) && f p)) {p : ℕ} (hp : p < 64) :
    (z ||| (boolWord b <<< (j % 64))).getLsbD p = (decide (p < j + 1) && f p) := by
  rw [BitVec.getLsbD_or, hz p hp, getLsbD_boolWord_shiftLeft _ _ hp, Nat.mod_eq_of_lt hj, hb]
  by_cases hpj : p = j
  · subst hpj
    simp
  · rw [decide_eq_false hpj, Bool.and_false, Bool.or_false, decide_eq_decide.2 (by omega : p < j ↔ p < j + 1)]

theorem gather_spec (hreads : Reads get init vals L first I) {destc : List Word} {m k l e : ℕ}
    (huntouched : ∀ j, m ≤ j → word destc j = word init j) (hlo : l ≤ 64) (hi : e + (64 - l) ≤ L)
    (hbase : k + l = e + first) (hm : 64 * m ≤ e + first) {z : Word}
    (hz : ∀ p < 64, z.getLsbD p = (decide (p < l) && vals (k + p))) :
    ∃ w, gather get destc I l z ((e : ℤ) - 1) = .ok (w, ((e + (64 - l) : ℕ) : ℤ) - 1) ∧
      ∀ p < 64, w.getLsbD p = vals (k + p) := by
  obtain ⟨⟨w, i⟩, hloop, hlast, hbits⟩ := foldlM_up (f := fun (state : Word × ℤ) j => do
      let b ← get destc ((state.2 + 1) :: I)
      .ok (state.1 ||| (boolWord b <<< (j % 64)), state.2 + 1)) (s := (z, (e : ℤ) - 1)) (a := l) (b := 64)
    (fun j state => state.2 = ((e + (j - l) : ℕ) : ℤ) - 1 ∧ ∀ p < 64, state.1.getLsbD p = (decide (p < j) && vals (k + p)))
    hlo ⟨by rw [Nat.sub_self, Nat.add_zero], hz⟩ (by
      rintro j ⟨z, i⟩ hlj hj ⟨hi', hbits⟩
      dsimp only at hi' hbits ⊢
      have hnext : i + 1 = ((e + (j - l) : ℕ) : ℤ) := by omega
      rw [hnext, hreads destc m _ huntouched (by omega) (by omega)]
      refine ⟨_, rfl, by omega, fun p hp => ?_⟩
      exact getLsbD_or_boolWord hj (f := fun p => vals (k + p)) (congrArg vals (by omega)) hbits hp)
  refine ⟨w, ?_, fun p hp => ?_⟩
  · rw [gather, hloop]
    dsimp only at hlast
    rw [hlast]
  · have hbit := hbits p hp
    rwa [decide_eq_true hp, Bool.true_and] at hbit

theorem store_spec {destc : List Word} {k : ℕ} (hk : k < destc.length) (w : Word) : store destc k w = .ok (destc.set k w) := if_pos hk

-- A full register becomes the next chunk.
theorem Packed.store {done : ℕ} {s : Packer} (h : Packed init vals done s) (hcap : s.indc < init.length) {w : Word}
    (hw : ∀ p < 64, w.getLsbD p = vals (64 * s.indc + p)) {r : Word} (hremain : ∀ p < 64, r.getLsbD p = false) :
    Packed init vals (64 * (s.indc + 1)) ⟨s.destc.set s.indc w, s.indc + 1, 0, r⟩ := by
  have hlen := h.length_eq
  refine ⟨rfl, (by decide : 0 < 64), by rw [List.length_set, hlen], fun m hm => ?_, fun k hk => ?_, fun p hp => ?_⟩
  · dsimp only at hm ⊢
    rw [word_set, if_neg (by omega), h.untouched m (by omega)]
  · dsimp only at hk ⊢
    rw [bitAt_set _ (by omega)]
    split_ifs with hchunk
    · rw [hw _ (Nat.mod_lt k (by omega))]
      exact congrArg vals (by omega)
    · exact h.stored k (by omega)
  · rw [hremain p hp, decide_eq_false (Nat.not_lt_zero p), Bool.false_and]

theorem Packed.remain_zero {done : ℕ} {s : Packer} (h : Packed init vals done s) (hz : s.bitst = 0) {p : ℕ} (hp : p < 64) :
    s.remain.getLsbD p = false := by
  rw [h.register p hp, hz, decide_eq_false (Nat.not_lt_zero p), Bool.false_and]

theorem wholeChunks_spec (hreads : Reads get init vals L first I) (hcap : L + first ≤ 64 * init.length) {fuel : ℕ} {s : Packer}
    {i0 : ℕ} (h : Packed init vals (i0 + first) s) (hz : s.bitst = 0) (hi : i0 ≤ L) (hfuel : L - i0 ≤ fuel) :
    ∃ s' i1, wholeChunks get ((L : ℤ) - 1) I fuel s ((i0 : ℤ) - 1) = .ok (s', ((i1 : ℕ) : ℤ) - 1) ∧
      Packed init vals (i1 + first) s' ∧ s'.bitst = 0 ∧ i1 ≤ L ∧ L - i1 < 64 := by
  induction fuel generalizing s i0 with
  | zero => exact ⟨s, i0, rfl, h, hz, hi, by omega⟩
  | succ fuel ih =>
      rw [wholeChunks]
      have hcount := h.count
      split_ifs with hmore
      · obtain ⟨w, hgather, hw⟩ := gather_spec hreads (k := 64 * s.indc) (l := 0) (e := i0) (z := 0) h.untouched
          (by omega) (by omega) (by omega) (by omega) (fun p _ => by simp)
        have hstep := h.store (by omega) hw (r := s.remain) fun p hp => h.remain_zero hz hp
        rw [hgather, ok_bind]
        dsimp only
        rw [store_spec (by rw [h.length_eq]; omega), ok_bind, hz]
        have hdone : 64 * (s.indc + 1) = i0 + (64 - 0) + first := by omega
        exact ih (hdone ▸ hstep) rfl (by omega) (by omega)
      · exact ⟨s, i0, rfl, h, hz, hi, by omega⟩

theorem rest_spec (hreads : Reads get init vals L first I) {s : Packer} {i0 : ℕ} (h : Packed init vals (i0 + first) s)
    (hi : i0 ≤ L) (hfit : s.bitst + (L - i0) < 64) :
    ∃ s', rest get ((L : ℤ) - 1) I s ((i0 : ℤ) - 1) = .ok s' ∧ Packed init vals (L + first) s' := by
  obtain ⟨s', hloop, hpacked, -⟩ := foldlM_up (f := fun (s : Packer) (k : ℕ) => do
      let b ← get s.destc (((i0 : ℤ) - 1 + 1 + k) :: I)
      .ok { s with remain := s.remain ||| (boolWord b <<< (s.bitst % 64)), bitst := s.bitst + 1 }) (s := s) (a := 0) (b := L - i0)
    (fun k t => Packed init vals (i0 + k + first) t ∧ t.bitst = s.bitst + k) (Nat.zero_le _) ⟨h, rfl⟩ (by
      rintro k t - hk ⟨ht, hbitst⟩
      have hcount := ht.count
      have hindex : (i0 : ℤ) - 1 + 1 + k = ((i0 + k : ℕ) : ℤ) := by omega
      rw [hindex, hreads t.destc t.indc _ ht.untouched (by omega) (by omega)]
      refine ⟨_, rfl, ⟨by dsimp only; omega, by dsimp only; omega, ht.length_eq, ht.untouched, ht.stored, fun p hp => ?_⟩, by
        dsimp only; omega⟩
      exact getLsbD_or_boolWord ht.bitst_lt (f := fun p => vals (64 * t.indc + p)) (congrArg vals (by omega)) ht.register hp)
  have hcount : ((L : ℤ) - 1 - ((i0 : ℤ) - 1)).toNat = L - i0 := by omega
  rw [Nat.sub_zero, ← List.range_eq_range'] at hloop
  refine ⟨s', by rw [rest, hcount, hloop], ?_⟩
  rwa [Nat.add_sub_cancel' hi] at hpacked

theorem packColumn_empty {nd : ℕ} {ax1 : UnitRange} (hlen : ax1.length = 0) {s : Packer} (hlt : s.bitst < 64) :
    packColumn get nd ax1 s I = .ok s := by
  have hvalid := ax1.valid
  rw [UnitRange.length] at hlen
  have hnone : (ax1.stop - (ax1.start - 1)).toNat = 0 := by omega
  rw [packColumn]
  dsimp only
  rw [UnitRange.length, hlen]
  split_ifs with h1 h2
  · omega
  · rw [ok_bind]
    dsimp only
    rw [wholeChunks, ok_bind]
    dsimp only
    rw [rest, hnone]
    rfl
  · rw [ok_bind]
    dsimp only
    rw [rest, hnone]
    rfl

theorem packColumn_spec (hreads : Reads get init vals L first I) (hcap : L + first ≤ 64 * init.length) {nd : ℕ} {s : Packer}
    (h : Packed init vals first s) (hpos : 0 < nd) (hnd : nd = 1 → s.bitst = 0) {ax1 : UnitRange} (hstart : ax1.start = 0)
    (hstop : ax1.stop = (L : ℤ) - 1) : ∃ s', packColumn get nd ax1 s I = .ok s' ∧ Packed init vals (L + first) s' := by
  have hlen : ax1.length = L := by
    rw [UnitRange.length]
    omega
  have hcount := h.count
  have hlt := h.bitst_lt
  have hzero : Packed init vals (0 + first) s := by rwa [Nat.zero_add]
  have hfinish : ∀ {t : Packer} {i1 : ℕ}, Packed init vals (i1 + first) t → t.bitst = 0 → i1 ≤ L → L - i1 < 64 →
      ∃ s', rest get ((L : ℤ) - 1) I t ((i1 : ℤ) - 1) = .ok s' ∧ Packed init vals (L + first) s' :=
    fun ht hz hle hfew => rest_spec hreads ht hle (by omega)
  rw [packColumn, hstart, hstop, hlen]
  dsimp only
  by_cases hfull : nd = 1 ∨ (s.bitst : ℤ) ≥ 64 - (L : ℤ)
  · rw [if_pos hfull]
    by_cases hpartial : nd > 1 ∧ s.bitst ≠ 0
    · -- the column fills the register
      obtain ⟨w, hgather, hw⟩ := gather_spec hreads (k := 64 * s.indc) (l := s.bitst) (e := 0) h.untouched hlt.le
        (by omega) (by omega) (by omega) h.register
      have hstored := h.store (by omega) hw (r := 0) fun p _ => by simp
      have hdone : 64 * (s.indc + 1) = 0 + (64 - s.bitst) + first := by omega
      obtain ⟨t, i1, hwhole, ht, hz, hle, hfew⟩ := wholeChunks_spec hreads hcap (hdone ▸ hstored) rfl (by omega) (Nat.sub_le L _)
      rw [if_pos hpartial]
      rw [Nat.cast_zero] at hgather
      rw [hgather, ok_bind]
      dsimp only
      have hcapacity : s.indc < s.destc.length := by
        rw [h.length_eq]
        omega
      rw [store_spec hcapacity, ok_bind, ok_bind]
      dsimp only
      rw [hwhole, ok_bind]
      exact hfinish ht hz hle hfew
    · have hz : s.bitst = 0 := by omega
      obtain ⟨t, i1, hwhole, ht, hz', hle, hfew⟩ := wholeChunks_spec hreads hcap hzero hz (Nat.zero_le L) (Nat.sub_le L 0)
      rw [if_neg hpartial, ok_bind]
      rw [Nat.cast_zero] at hwhole
      dsimp only
      rw [hwhole, ok_bind]
      exact hfinish ht hz' hle hfew
  · rw [if_neg hfull, ok_bind]
    dsimp only
    exact rest_spec hreads hzero (Nat.zero_le L) (by omega)

end Column

end Joolia.Broadcast
