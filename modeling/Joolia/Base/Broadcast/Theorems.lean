import Joolia.Base.Broadcast.Chunked

namespace Joolia.Broadcast

open BitArray Words Fallible MixedRadix

section Columns

theorem sameRange_axis {d : ℕ} {r : UnitRange} (h : sameRange (axis d) r = true) :
    r.length = d ∧ (d ≠ 0 → r.start = 0 ∧ r.stop = (d : ℤ) - 1) := by
  have hvalid := r.valid
  rw [sameRange, Bool.or_eq_true, Bool.and_eq_true, Bool.and_eq_true, beq_iff_eq, beq_iff_eq, beq_iff_eq, beq_iff_eq] at h
  unfold UnitRange.length axis at *
  dsimp only at h
  omega

theorem sameAxes_length {ds : List ℕ} {axes : List UnitRange} (h : sameAxes (ds.map axis) axes = true) : axes.length = ds.length := by
  induction ds generalizing axes with
  | nil =>
      cases axes with
      | nil => rfl
      | cons r rs => cases h
  | cons d ds ih =>
      cases axes with
      | nil => cases h
      | cons r rs =>
          rw [List.map_cons, sameAxes, Bool.and_eq_true] at h
          rw [List.length_cons, List.length_cons, ih h.2]

def coordinate (r : UnitRange) : ℕ → ℤ := fun k => r.start + k

theorem columns_eq {ds : List ℕ} {axes : List UnitRange} (h : sameAxes (ds.map axis) axes = true) :
    columnMajor (axes.map UnitRange.toList) = (List.range ds.prod).map (point (axes.map coordinate) ds) := by
  have hlen := sameAxes_length h
  rw [← columnMajor_eq _ _ (by rw [List.length_map, hlen])]
  congr 1
  induction ds generalizing axes with
  | nil =>
      cases axes with
      | nil => rfl
      | cons r rs => cases h
  | cons d ds ih =>
      cases axes with
      | nil => cases h
      | cons r rs =>
          rw [List.map_cons, sameAxes, Bool.and_eq_true] at h
          rw [List.map_cons, List.map_cons, List.zipWith_cons_cons, ih h.2 (by simpa using hlen), UnitRange.toList,
            (sameRange_axis h.1).1]
          rfl

-- No axis is empty where there is a column, so each one begins with 0.
theorem point_coordinate {ds : List ℕ} {axes : List UnitRange} (h : sameAxes (ds.map axis) axes = true) {c : ℕ} (hc : c < ds.prod) :
    point (axes.map coordinate) ds c = (digits ds c).map fun i : ℕ => (i : ℤ) := by
  induction ds generalizing axes c with
  | nil =>
      cases axes with
      | nil => rfl
      | cons r rs => cases h
  | cons d ds ih =>
      cases axes with
      | nil => cases h
      | cons r rs =>
          have hd := pos_of_lt_prod hc
          rw [List.map_cons, sameAxes, Bool.and_eq_true] at h
          rw [List.map_cons, point, digits, List.map_cons, ih h.2 (div_lt_prod hc), coordinate,
            ((sameRange_axis h.1).2 (by omega)).1, Int.zero_add]

end Columns

section Elements

variable {α : Type} (O : Others α) {dest : BitArrayN} {bc : Broadcasted α} {v : List ℕ → Bool}

-- A part of the destination that is not overwritten yet reads as at the beginning.
theorem getbool_congr {dims : List ℕ} {destc init : List Word} {is : List ℕ} (his : Below is dims)
    (h : word destc (value dims is / 64) = word init (value dims is / 64)) :
    bc.getbool O dims destc (is.map fun i : ℕ => (i : ℤ)) = bc.getbool O dims init (is.map fun i : ℕ => (i : ℤ)) := by
  have hread : Leaf.read (α := α) dims destc (is.map fun i : ℕ => (i : ℤ)) = Leaf.read dims init (is.map fun i : ℕ => (i : ℤ)) := by
    funext x
    match x with
    | .bits .self => rw [Leaf.read, Leaf.read, bitGetindex_eq _ his, bitGetindex_eq _ his, bitAt, bitAt, h]
    | .bits (.other B) => rfl
    | .bool b => rfl
    | .scalar y => rfl
    | .array getindex => rfl
  rw [Broadcasted.getbool, Broadcasted.getbool, Broadcasted.getindex, Broadcasted.getindex, hread]

theorem getbool_reads {L : ℕ} {ds : List ℕ} (hdims : dest.dims = L :: ds)
    (hbool : ∀ is, Below is dest.dims → bc.getbool O dest.dims dest.chunks (is.map fun i : ℕ => (i : ℤ)) = .ok (v is))
    {c : ℕ} (hc : c < ds.prod) :
    Reads (fun destc I => bc.getbool O dest.dims destc I) dest.chunks (fun k => v (digits dest.dims k)) L (L * c)
      ((digits ds c).map fun i : ℕ => (i : ℤ)) := by
  intro destc m i huntouched hi hm
  have hbelow : Below (i :: digits ds c) dest.dims := by
    rw [hdims]
    exact .cons hi (below_digits hc)
  have hvalue : value dest.dims (i :: digits ds c) = i + L * c := by rw [hdims, value, value_digits hc]
  have hread := @getbool_congr _ O bc _ _ _ _ hbelow (huntouched (value dest.dims (i :: digits ds c) / 64) (by omega))
  rw [List.map_cons] at hread
  dsimp only
  rw [hread, ← List.map_cons, hbool _ hbelow, ← hvalue, digits_value hbelow]

-- The register after the last column becomes the last chunk, its upper bits zero.
theorem flush_spec (hdest : Shaped dest) {s : Packer} (h : Packed dest.chunks (fun k => v (digits dest.dims k)) dest.len s) :
    ∃ destc, flush s = .ok destc ∧ Elementwise dest v { dest with chunks := destc } := by
  have hchunks := hdest.packed.length_chunks
  have hbits := numBitChunks_le dest.len
  have hcount := h.count
  have hlt := h.bitst_lt
  have hlen := h.length_eq
  have hlen' : 64 * dest.chunks.length < dest.len + 64 := by
    rw [hchunks]
    unfold numBitChunks
    split <;> omega
  by_cases hz : s.bitst = 0
  · refine ⟨s.destc, if_neg (not_not.2 hz), elementwise_of_bits hdest hlen (fun k hk => h.stored k (by omega)) fun k hk => ?_⟩
    exact bitAt_of_length_le (by omega)
  · rw [flush, if_pos hz, store_spec (by omega)]
    refine ⟨_, rfl, elementwise_of_bits hdest (by rw [List.length_set, hlen]) (fun k hk => ?_) fun k hk => ?_⟩
    · rw [bitAt_set _ (by omega)]
      split_ifs with hlast
      · have hk' : 64 * s.indc + k % 64 = k := by omega
        rw [h.register _ (Nat.mod_lt k (by omega)), decide_eq_true (by omega), Bool.true_and, hk']
      · exact h.stored k (by omega)
    · rw [bitAt_set _ (by omega)]
      split_ifs with hlast
      · rw [h.register _ (Nat.mod_lt k (by omega)), decide_eq_false (by omega), Bool.false_and]
      · exact bitAt_of_length_le (by omega)

theorem packColumns_spec (hdest : Shaped dest) {L : ℕ} {ds : List ℕ} (hdims : dest.dims = L :: ds) {ax1 : UnitRange}
    {tail : List UnitRange} (hax1 : sameRange (axis L) ax1 = true) (htail : sameAxes (ds.map axis) tail = true)
    (hbool : ∀ is, Below is dest.dims → bc.getbool O dest.dims dest.chunks (is.map fun i : ℕ => (i : ℤ)) = .ok (v is)) :
    ∃ s, (columnMajor (tail.map UnitRange.toList)).foldlM
        (packColumn (fun destc I => bc.getbool O dest.dims destc I) (tail.length + 1) ax1) ⟨dest.chunks, 0, 0, 0⟩ = .ok s ∧
      Packed dest.chunks (fun k => v (digits dest.dims k)) dest.len s := by
  have hlen : dest.len = L * ds.prod := by rw [hdest.len_eq, hdims, List.prod_cons]
  have hbits : L * ds.prod ≤ 64 * dest.chunks.length := by
    rw [← hlen, hdest.packed.length_chunks]
    exact numBitChunks_le dest.len
  have hrange := sameRange_axis hax1
  have hnd := sameAxes_length htail
  obtain ⟨s, hloop, hpacked, -⟩ := foldlM_up
    (f := fun s (c : ℕ) => packColumn (fun destc I => bc.getbool O dest.dims destc I) (tail.length + 1) ax1 s
      (point (tail.map coordinate) ds c)) (s := ⟨dest.chunks, 0, 0, 0⟩) (a := 0) (b := ds.prod)
    (fun c s => Packed dest.chunks (fun k => v (digits dest.dims k)) (L * c) s ∧ (c = 0 → s.bitst = 0)) (Nat.zero_le _)
    ⟨⟨rfl, (by decide : 0 < 64), rfl, fun _ _ => rfl, fun k hk => absurd hk (Nat.not_lt_zero k), fun p _ => by simp⟩, fun _ => rfl⟩ (by
      rintro c s - hc ⟨h, hfirst⟩
      rw [point_coordinate htail hc]
      have hcap : L * c + L ≤ L * ds.prod := Nat.mul_succ L c ▸ Nat.mul_le_mul_left L hc
      by_cases hL : L = 0
      · refine ⟨s, packColumn_empty (hrange.1.trans hL) h.bitst_lt, ?_, fun hc' => absurd hc' (Nat.succ_ne_zero c)⟩
        rwa [hL, Nat.zero_mul] at h ⊢
      · -- one axis means one column
        have hone : tail.length + 1 = 1 → s.bitst = 0 := by
          intro hnil
          obtain rfl : ds = [] := List.length_eq_zero_iff.1 (by omega)
          rw [List.prod_nil] at hc
          exact hfirst (by omega)
        obtain ⟨s', hs', hpacked⟩ := packColumn_spec (getbool_reads O hdims hbool hc) (by omega) h (Nat.succ_pos _) hone
          (hrange.2 hL).1 (hrange.2 hL).2
        refine ⟨s', hs', ?_, fun hc' => absurd hc' (Nat.succ_ne_zero c)⟩
        rwa [Nat.mul_succ, Nat.add_comm])
  rw [columns_eq htail, List.foldlM_map, List.range_eq_range']
  exact ⟨s, hloop, hlen ▸ hpacked⟩

theorem elementcopyto_spec (hdest : Shaped dest) (haxes : sameAxes (dest.dims.map axis) bc.axes = true)
    (hbool : ∀ is, Below is dest.dims → bc.getbool O dest.dims dest.chunks (is.map fun i : ℕ => (i : ℤ)) = .ok (v is)) :
    ∃ r, elementcopyto O dest bc = .ok r ∧ Elementwise dest v r := by
  rw [elementcopyto]
  cases hax : bc.axes with
  | nil =>
      have hdims : dest.dims = [] := by
        have hlen := sameAxes_length haxes
        rw [hax] at hlen
        exact List.length_eq_zero_iff.1 hlen.symm
      have hone : dest.len = 1 := by rw [hdest.len_eq, hdims, List.prod_nil]
      have hchunks : dest.chunks.length = 1 := by rw [hdest.packed.length_chunks, hone]; rfl
      have hvalue := hbool [] (hdims ▸ .nil)
      rw [List.map_nil] at hvalue
      dsimp only
      rw [hvalue]
      refine ⟨_, rfl, elementwise_of_bits hdest (length_setindex _ _ _) (fun k hk => ?_) fun k hk => ?_⟩
      · rw [bitAt_setindex _ _ (by omega), if_pos (by omega), hdims]
        rfl
      · rw [bitAt_setindex _ _ (by omega), if_neg (by omega)]
        exact hdest.packed.past_end k hk
  | cons ax1 tail =>
      obtain ⟨L, ds, hdims⟩ : ∃ L ds, dest.dims = L :: ds := by
        refine List.exists_cons_of_length_pos ?_
        rw [← sameAxes_length haxes, hax]
        exact Nat.succ_pos _
      rw [hax, hdims, List.map_cons, sameAxes, Bool.and_eq_true] at haxes
      obtain ⟨s, hloop, hpacked⟩ := packColumns_spec O hdest hdims haxes.1 haxes.2 hbool
      obtain ⟨destc, hflush, hresult⟩ := flush_spec hdest hpacked
      dsimp only
      rw [List.length_cons, hloop, ok_bind, hflush]
      exact ⟨_, rfl, hresult⟩

end Elements

section Copyto

variable {α : Type} (O : Others α) {dest : BitArrayN} {v : List ℕ → Bool}

theorem fill_spec (hdest : Shaped dest) {y : Bool} (hv : ∀ is, Below is dest.dims → v is = y) : Elementwise dest v (fill dest y) := by
  have hvals : ∀ k < dest.len, v (digits dest.dims k) = y := fun k hk => hv _ (below_digits (hdest.len_eq ▸ hk))
  have hword : ∀ w : Word, ∀ k < dest.len, word (dest.chunks.map fun _ => w) (k / 64) = w := by
    intro w k hk
    have hbits := numBitChunks_le dest.len
    have hlt : k / 64 < dest.chunks.length := by
      rw [hdest.packed.length_chunks]
      omega
    simp [word, List.getD, hlt]
  rw [fill]
  split_ifs with hempty hy
  · exact elementwise_of_bits hdest rfl (fun k hk => absurd hk (by omega)) hdest.packed.past_end
  · obtain rfl : y = false := by simpa using hy
    refine elementwise_of_bits hdest (List.length_map _) (fun k hk => ?_) fun k _ => ?_
    · rw [hvals k hk, bitAt, hword 0 k hk, BitVec.ofNat_eq_ofNat, BitVec.getLsbD_zero]
    · have hzero : word (dest.chunks.map fun _ => (0 : Word)) (k / 64) = 0 := by
        rw [List.map_const', word_replicate]
      rw [bitAt, hzero, BitVec.ofNat_eq_ofNat, BitVec.getLsbD_zero]
  · obtain rfl : y = true := by simpa using hy
    have hmasked := bitAt_masked (Nat.pos_of_ne_zero hempty) (d := dest.chunks.map fun _ => msk64)
      ((List.length_map _).trans hdest.packed.length_chunks)
    refine elementwise_of_bits hdest (by rw [length_setLast, List.length_map]) (fun k hk => ?_) fun k hk => ?_
    · rw [hmasked, if_pos hk, hvals k hk, bitAt, hword msk64 k hk, msk64, getLsbD_not _ (Nat.mod_lt k (by omega)),
        BitVec.ofNat_eq_ofNat, BitVec.getLsbD_zero, Bool.not_false]
    · rw [hmasked, if_neg (by omega)]

-- The values of a broadcast convert to the `Bool`s `v`; one that is a scalar has its value also for an empty destination.
structure BoolValued (dest : BitArrayN) (bc : Broadcasted α) (v : List ℕ → Bool) : Prop where
  matching : sameAxes (dest.dims.map axis) bc.axes = true
  values : ∀ is, Below is dest.dims → bc.getbool O dest.dims dest.chunks (is.map fun i : ℕ => (i : ℤ)) = .ok (v is)
  style : bc.style = .zero → zeroDimArgs dest.dims bc.args = true ∧ ∃ y, bc.getbool O dest.dims dest.chunks [] = .ok y

theorem read_of_zeroDim {dims : List ℕ} {destc : List Word} {x : Leaf α} (h : x.zeroDim dims = true) (I : List ℤ) :
    x.read dims destc I = x.read dims destc [] := by
  match x, h with
  | .bits .self, h =>
      obtain rfl : dims = [] := List.isEmpty_iff.1 h
      rfl
  | .bits (.other B), h =>
      have hnil : B.val.dims = [] := List.isEmpty_iff.1 h
      rw [Leaf.read, Leaf.read, hnil]
      rfl
  | .bool b, _ => rfl
  | .scalar y, _ => rfl

theorem getbool_identity {bc : Broadcasted α} {x : Leaf α} (hf : bc.f = .op .identity) (hargs : bc.args = .cons (.leaf x) .nil)
    (dims : List ℕ) (destc : List Word) (I : List ℤ) : bc.getbool O dims destc I = O.convertBool (x.read dims destc I) := by
  rw [Broadcasted.getbool, Broadcasted.getindex, hf, hargs, broadcastGetindex, getindexArgs, broadcastGetindex, getindexArgs]
  rfl

theorem copytoNothing_spec (hdest : Shaped dest) {bc : Broadcasted α} (h : BoolValued O dest bc v) :
    ∃ r, copytoNothing O dest bc = .ok r ∧ Elementwise dest v r := by
  rw [copytoNothing, if_neg (not_not.2 h.matching)]
  split_ifs with hchunked
  · exact chunkedcopyto_spec O hdest h.values hchunked
  · exact elementcopyto_spec O hdest h.matching h.values

theorem copyto_spec (hdest : Shaped dest) {bc : Broadcasted α} (h : BoolValued O dest bc v) :
    ∃ r, copyto O dest bc = .ok r ∧ Elementwise dest v r := by
  rw [copyto]
  split
  · rename_i x hstyle hf hargs
    obtain ⟨hzero, y, hy⟩ := h.style hstyle
    rw [hargs, zeroDimArgs, zeroDimArg, zeroDimArgs, Bool.and_true] at hzero
    rw [getbool_identity O hf hargs] at hy
    rw [hy]
    refine ⟨_, rfl, fill_spec hdest fun is his => ?_⟩
    have hvalue := h.values is his
    rw [getbool_identity O hf hargs, read_of_zeroDim hzero, hy] at hvalue
    exact (Except.ok.inj hvalue).symm
  · exact copytoNothing_spec O hdest h

end Copyto

end Joolia.Broadcast
