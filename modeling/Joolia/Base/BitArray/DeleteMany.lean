import Joolia.Base.BitArray.Repr
import Joolia.Library.Fallible
import Mathlib.Tactic.Ring

namespace Joolia.BitArray

open Words Fallible

-- `num_bit_chunks`, at a length that may be negative.
def numBitChunksInt (n : ℤ) : ℤ := n / 64 + if n % 64 = 0 then 0 else 1

-- The loop of `deleteat!(B, inds)` over the indices after the first: the chunks, the position to write to, the position
-- after the last index, the new length.
def deleteatLoop (n : ℤ) : List ℤ → List Word × ℤ × ℤ × ℤ → Except BitError (List Word × ℤ × ℤ × ℤ)
  | [], state => .ok state
  | i :: inds, (bc, p, q, new_l) =>
    if ¬(q ≤ i ∧ i ≤ n) then
      if i < q then .error (.ArgumentError "indices must be unique and sorted") else .error (.BoundsError i)
    else
      let new_l := new_l - 1
      let (bc, p) := if i > q then (copyChunks bc p.toNat .self q.toNat (i - q).toNat, p + (i - q)) else (bc, p)
      deleteatLoop n inds (bc, p, i + 1, new_l)

-- `deleteat!(B, inds)`: the chunks and the length of `B` afterwards.
def deleteatInds (B : BitVector) (inds : List ℤ) : Except BitError (List Word × ℤ) :=
  match inds with
  | [] => .ok (B.chunks, B.len)
  | p :: inds =>
    let n : ℤ := B.len
    if ¬(0 ≤ p ∧ p < n) then .error (.BoundsError p)
    else do
      let (bc, p, q, new_l) ← deleteatLoop n inds (B.chunks, p, p + 1, n - 1)
      let bc := if q ≤ n then copyChunks bc p.toNat .self q.toNat (n - q).toNat else bc
      let delta_k := numBitChunksInt new_l - bc.length
      let bc := if delta_k < 0 then deleteend bc (-delta_k).toNat else bc
      .ok (if new_l > 0 then setLast bc (word bc (bc.length - 1) &&& mskEnd new_l.toNat) else bc, new_l)

-- The indices that the call has to accept.
structure Deletable (n : ℕ) (inds : List ℤ) : Prop where
  sorted : inds.Pairwise (· < ·)
  inside : ∀ i ∈ inds, 0 ≤ i ∧ i < n

-- The positions below `m` that stay, and the elements there.
def kept (inds : List ℤ) (m : ℕ) : List ℕ := (List.range m).filter fun k => (k : ℤ) ∉ inds

def remaining (l : List Bool) (inds : List ℤ) : List Bool := (kept inds l.length).map fun k => l.getD k false

-- The list of indices that the call accepts although it should not: the last one is the length.
structure EndsAtLength (n : ℕ) (inds : List ℤ) : Prop where
  several : 2 ≤ inds.length
  sorted : inds.Pairwise (· < ·)
  inside : ∀ i ∈ inds.dropLast, 0 ≤ i ∧ i < n
  last : inds.getLast? = some (n : ℤ)

section Kept

variable {inds : List ℤ} {m k : ℕ}

theorem kept_length_le : (kept inds m).length ≤ m := by
  simpa [kept] using List.length_filter_le (fun k : ℕ => decide ((k : ℤ) ∉ inds)) (List.range m)

-- Nothing is deleted between `m` and `k`.
theorem kept_append (h : ∀ i ∈ inds, i < m) (hmk : m ≤ k) : kept inds k = kept inds m ++ List.range' m (k - m) := by
  have hsplit : List.range k = List.range m ++ List.range' m (k - m) := by
    have h := List.range'_append_1 (s := 0) (m := m) (n := k - m)
    rw [Nat.zero_add, Nat.add_sub_cancel' hmk] at h
    rw [List.range_eq_range', List.range_eq_range', h]
  rw [kept, hsplit, List.filter_append, kept]
  congr 1
  rw [List.filter_eq_self]
  intro j hj
  have hmj := (List.mem_range'_1.mp hj).1
  simp only [decide_eq_true_eq]
  intro hmem
  have := h j hmem
  omega

theorem kept_snoc (inds : List ℤ) (k : ℕ) : kept (inds ++ [(k : ℤ)]) (k + 1) = kept inds k := by
  rw [kept, List.range_succ, List.filter_append, kept]
  have hlast : List.filter (fun j : ℕ => decide ((j : ℤ) ∉ inds ++ [(k : ℤ)])) [k] = [] := by simp
  rw [hlast, List.append_nil]
  refine List.filter_congr fun j hj => ?_
  have hjk : (j : ℤ) ≠ k := by
    have := List.mem_range.mp hj
    omega
  simp [hjk]

end Kept

section Moving

variable {l : List Bool} {done : List ℤ} {m k cap : ℕ} {bc : List Word} {p : ℤ}

-- The elements before position `m` have been moved together, those from there on are where they were.
structure Moved (l : List Bool) (cap : ℕ) (done : List ℤ) (m : ℕ) (bc : List Word) (p : ℤ) : Prop where
  length_eq : bc.length = cap
  below : ∀ i ∈ done, i < m
  position : p = (kept done m).length
  count : (kept done m).length + done.length = m
  front : ∀ j < (kept done m).length, bitAt bc j = ((kept done m).map fun k => l.getD k false).getD j false
  back : ∀ j, m ≤ j → bitAt bc j = l.getD j false

-- The gap up to `k` is closed.
theorem Moved.copy (h : Moved l cap done m bc p) (hmk : m ≤ k) (hk : k ≤ 64 * cap) :
    Moved l cap done k (copyChunks bc p.toNat .self m (k - m)) (p + (k - m : ℕ)) := by
  have hle : (kept done m).length ≤ m := kept_length_le
  have hp : p.toNat = (kept done m).length := by rw [h.position, Int.toNat_natCast]
  have happend := kept_append h.below hmk
  have hlen : (kept done k).length = (kept done m).length + (k - m) := by rw [happend]; simp
  have hcopy := copyChunks_spec bc p.toNat .self m (k - m) (by rw [hp, h.length_eq]; omega)
  rw [hp] at hcopy ⊢
  have hcount := h.count
  refine ⟨by rw [hcopy.length_eq, h.length_eq], fun i hi => ?_, ?_, by omega, fun j hj => ?_, fun j hj => ?_⟩
  · have := h.below i hi
    omega
  · rw [h.position, hlen]
    push_cast
    ring
  · rw [hcopy.bitAt_eq, happend, List.map_append, List.getD, List.getElem?_append, List.length_map]
    by_cases hin : j < (kept done m).length
    · rw [if_neg (by omega), if_pos hin]
      exact h.front j hin
    · have hoff : j - (kept done m).length < k - m := by omega
      rw [if_pos ⟨by omega, by omega⟩, if_neg hin, Source.read, h.back _ (by omega), List.getElem?_map,
        List.getElem?_range' hoff]
      simp
  · rw [hcopy.bitAt_eq, if_neg (by omega), h.back j (by omega)]

-- The element at `k` is passed over.
theorem Moved.skip (h : Moved l cap done k bc p) : Moved l cap (done ++ [(k : ℤ)]) (k + 1) bc p := by
  have hkept := kept_snoc done k
  have hcount := h.count
  refine ⟨h.length_eq, fun i hi => ?_, ?_, by rw [hkept, List.length_append, List.length_singleton]; omega, ?_,
    fun j hj => h.back j (by omega)⟩
  · rcases List.mem_append.mp hi with hi | hi
    · have := h.below i hi
      push_cast
      omega
    · rw [List.mem_singleton.mp hi]
      push_cast
      omega
  · rw [hkept]
    exact h.position
  · rw [hkept]
    exact h.front

-- The indices that the loop accepts.
def Accepted (n : ℤ) : ℤ → List ℤ → Prop
  | _, [] => True
  | q, i :: inds => (q ≤ i ∧ i ≤ n) ∧ Accepted n (i + 1) inds

theorem accepted_iff {n q : ℤ} {inds : List ℤ} :
    Accepted n q inds ↔ inds.Pairwise (· < ·) ∧ ∀ i ∈ inds, q ≤ i ∧ i ≤ n := by
  induction inds generalizing q with
  | nil => simp [Accepted]
  | cons i inds ih =>
      rw [Accepted, ih, List.pairwise_cons]
      constructor
      · rintro ⟨hi, hsorted, hall⟩
        refine ⟨⟨fun j hj => by have := hall j hj; omega, hsorted⟩, fun j hj => ?_⟩
        rcases List.mem_cons.mp hj with rfl | hj
        · exact hi
        · have := hall j hj
          omega
      · rintro ⟨⟨hlt, hsorted⟩, hall⟩
        refine ⟨hall i (by simp), hsorted, fun j hj => ?_⟩
        have h1 := hlt j hj
        have h2 := hall j (List.mem_cons_of_mem _ hj)
        omega

theorem deleteatLoop_refused (bc : List Word) (p new_l : ℤ) {n q : ℤ} {inds : List ℤ} (h : ¬ Accepted n q inds) :
    ∃ e, deleteatLoop n inds (bc, p, q, new_l) = .error e := by
  induction inds generalizing q bc p new_l with
  | nil => exact absurd trivial h
  | cons i inds ih =>
      rw [deleteatLoop]
      by_cases hi : q ≤ i ∧ i ≤ n
      · rw [if_neg (not_not_intro hi)]
        exact ih _ _ _ fun hrest => h ⟨hi, hrest⟩
      · rw [if_pos hi]
        by_cases hlt : i < q
        · rw [if_pos hlt]
          exact ⟨_, rfl⟩
        · rw [if_neg hlt]
          exact ⟨_, rfl⟩

theorem deleteatLoop_accepted {n : ℕ} {inds : List ℤ} (hcap : n ≤ 64 * cap) (h : Moved l cap done m bc p)
    (hacc : Accepted n m inds) (new_l : ℤ) : ∃ bc' p', ∃ m' : ℕ, deleteatLoop n inds (bc, p, m, new_l)
      = .ok (bc', p', (m' : ℤ), new_l - inds.length) ∧ Moved l cap (done ++ inds) m' bc' p' ∧
        ((∀ i ∈ inds, i < n) → m ≤ n → m' ≤ n) := by
  induction inds generalizing done m bc p new_l with
  | nil => exact ⟨bc, p, m, by simp [deleteatLoop], by simpa using h, fun _ hm => hm⟩
  | cons i inds ih =>
      obtain ⟨⟨hmi, hin⟩, hrest⟩ := hacc
      obtain ⟨k, rfl⟩ : ∃ k : ℕ, i = k := ⟨i.toNat, by omega⟩
      have hmk : m ≤ k := by omega
      have hcopied : Moved l cap done k (if (k : ℤ) > m then copyChunks bc p.toNat .self m (k - m) else bc)
          (if (k : ℤ) > m then p + (k - m : ℕ) else p) := by
        by_cases hgt : (k : ℤ) > m
        · rw [if_pos hgt, if_pos hgt]
          exact h.copy hmk (by omega)
        · obtain rfl : k = m := by omega
          rw [if_neg hgt, if_neg hgt]
          exact h
      obtain ⟨bc', p', m', hrun, hmoved, hle⟩ := ih hcopied.skip (by exact_mod_cast hrest) (new_l - 1)
      refine ⟨bc', p', m', ?_, by simpa using hmoved, fun hall hm => hle (fun j hj => hall j (by simp [hj])) ?_⟩
      · rw [deleteatLoop, if_neg (not_not_intro ⟨hmi, hin⟩)]
        rw [show new_l - ((k : ℤ) :: inds).length = new_l - 1 - inds.length by simp; ring, ← hrun]
        by_cases hgt : (k : ℤ) > m
        · simp only [if_pos hgt]
          rw [show ((k : ℤ) - m).toNat = k - m by omega, show (k : ℤ) - m = ((k - m : ℕ) : ℤ) by omega]
          simp
        · simp only [if_neg hgt]
          simp
      · have := hall k (by simp)
        omega

end Moving

section Calls

variable {B : BitVector} {l : List Bool}

-- The first index has been checked by itself.
theorem Represents.moved_first (h : Represents B l) (k : ℕ) : Moved l B.chunks.length [(k : ℤ)] (k + 1) B.chunks k := by
  have hkept : kept [] k = List.range k := by simp [kept]
  have hstart : Moved l B.chunks.length [] k B.chunks k := by
    refine ⟨rfl, by simp, by simp [hkept], by simp [hkept], fun j hj => ?_, fun j _ => h.bitAt_eq j⟩
    have hjk : j < k := by simpa [hkept] using hj
    rw [h.bitAt_eq, hkept, getD_map_range, if_pos hjk]
  exact hstart.skip

-- The end of the call: the rest is moved, and the chunks past the new length are given up.
theorem trim_remaining {bc : List Word} {inds : List ℤ} {p : ℤ} (h : Represents B l)
    (hmoved : Moved l B.chunks.length inds l.length bc p) :
    Represents (trim bc (numBitChunks (l.length - inds.length) - B.chunks.length) (l.length - inds.length))
      (remaining l inds) := by
  have hcount := hmoved.count
  have hchunks := h.length_chunks
  have hlen := h.len_eq
  have hmono := numBitChunks_mono (Nat.sub_le l.length inds.length)
  have hrem : (remaining l inds).length = l.length - inds.length := by
    rw [remaining, List.length_map]
    omega
  obtain ⟨htlen, htbits⟩ := trim_spec bc B.chunks.length (l.length - inds.length) (by rw [hmoved.length_eq, hchunks, hlen]; omega)
  refine ⟨htlen, hrem.symm, fun i => ?_⟩
  rw [htbits]
  by_cases hi : i < l.length - inds.length
  · rw [if_pos hi, hmoved.front i (by omega)]
    rfl
  · rw [if_neg hi, List.getD_eq_default _ _ (by omega)]

theorem numBitChunksInt_natCast (n : ℕ) : numBitChunksInt n = numBitChunks n := by
  unfold numBitChunksInt numBitChunks
  split <;> split <;> omega

theorem deleteatInds_deletable (h : Represents B l) {inds : List ℤ} (hinds : Deletable l.length inds) :
    ∃ B' : BitVector, deleteatInds B inds = .ok (B'.chunks, B'.len) ∧ Represents B' (remaining l inds) := by
  have hlen := h.len_eq
  have hcap := numBitChunks_le B.len
  have hchunks := h.length_chunks
  cases inds with
  | nil =>
      refine ⟨B, rfl, ?_⟩
      have hsame : remaining l [] = l := by
        refine List.ext_getElem (by simp [remaining, kept]) fun i h1 h2 => ?_
        simp [remaining, kept, List.getD, h2]
      rwa [hsame]
  | cons i rest =>
      obtain ⟨hlo, hhi⟩ := hinds.inside i (by simp)
      obtain ⟨k, rfl⟩ : ∃ k : ℕ, i = k := ⟨i.toNat, by omega⟩
      have hsorted := List.pairwise_cons.mp hinds.sorted
      have hacc : Accepted l.length (k + 1 : ℕ) rest := by
        refine accepted_iff.mpr ⟨hsorted.2, fun j hj => ⟨?_, (hinds.inside j (by simp [hj])).2.le⟩⟩
        have := hsorted.1 j hj
        push_cast
        omega
      obtain ⟨bc, p, m, hrun, hmoved, hle⟩ := deleteatLoop_accepted (by omega) (h.moved_first k) hacc (B.len - 1)
      have hm : m ≤ l.length := hle (fun j hj => (hinds.inside j (by simp [hj])).2) (by omega)
      have hall := hmoved.copy hm (by omega)
      have hcount := hall.count
      rw [List.singleton_append] at hall hcount
      have hnew : ((l.length - ((k : ℤ) :: rest).length : ℕ) : ℤ) = B.len - 1 - rest.length := by
        simp only [List.length_cons] at hcount ⊢
        omega
      refine ⟨_, ?_, trim_remaining h hall⟩
      have hgap : ((B.len : ℤ) - m).toNat = l.length - m := by omega
      have hbc := hall.length_eq
      have hk : ((k + 1 : ℕ) : ℤ) = (k : ℤ) + 1 := by push_cast; rfl
      rw [hk, ← hlen] at hrun
      rw [deleteatInds]
      simp only [if_neg (not_not_intro (show (0 : ℤ) ≤ k ∧ (k : ℤ) < B.len by omega)), hrun, ok_bind, Int.toNat_natCast,
        if_pos (show (m : ℤ) ≤ B.len by omega), hgap, ← hnew, numBitChunksInt_natCast, hbc, trim]
      simp only [Int.natCast_pos, gt_iff_lt]

-- A list that is not accepted is refused, and one that ends with the length is taken.
theorem deleteatInds_refused {inds : List ℤ} {i : ℤ} (h : ¬ (0 ≤ i ∧ i < B.len) ∨ ¬ Accepted B.len (i + 1) inds) :
    ∃ e, deleteatInds B (i :: inds) = .error e := by
  rw [deleteatInds]
  by_cases hi : 0 ≤ i ∧ i < B.len
  · obtain ⟨e, he⟩ := deleteatLoop_refused B.chunks i (B.len - 1) (h.resolve_left (not_not_intro hi))
    simp only [if_neg (not_not_intro hi), he, error_bind]
    exact ⟨e, rfl⟩
  · simp only [if_pos hi]
    exact ⟨_, rfl⟩

theorem deleteatInds_taken {inds : List ℤ} {i : ℤ} (h : Represents B l) (hi : 0 ≤ i ∧ i < B.len)
    (hacc : Accepted B.len (i + 1) inds) : ∃ r, deleteatInds B (i :: inds) = .ok r := by
  obtain ⟨k, rfl⟩ : ∃ k : ℕ, i = k := ⟨i.toNat, by omega⟩
  have hk : ((k + 1 : ℕ) : ℤ) = (k : ℤ) + 1 := by push_cast; rfl
  rw [← hk] at hacc
  obtain ⟨bc, p, m, hrun, -⟩ := deleteatLoop_accepted (by have := numBitChunks_le B.len; rw [h.length_chunks]; exact this)
    (h.moved_first k) hacc (B.len - 1)
  rw [hk] at hrun
  rw [deleteatInds]
  simp only [if_neg (not_not_intro hi), hrun, ok_bind]
  exact ⟨_, rfl⟩

end Calls

-- What the call has to do: refuse the lists that are not sorted or leave the range of the indices, and for the others
-- keep the remaining elements in a well-formed vector.
structure DeletesInds (B : BitVector) (inds : List ℤ) : Prop where
  throws : (∃ e, deleteatInds B inds = .error e) ↔ ¬ Deletable B.len inds
  deletes : Deletable B.len inds →
    ∃ B' : BitVector, deleteatInds B inds = .ok (B'.chunks, B'.len) ∧ Represents B' (remaining B.toList inds)

theorem endsAtLength_cons_iff {n : ℕ} {i : ℤ} {inds : List ℤ} : EndsAtLength n (i :: inds) ↔
    (0 ≤ i ∧ i < n) ∧ Accepted n (i + 1) inds ∧ ¬ ∀ j ∈ inds, j < n := by
  rw [accepted_iff]
  constructor
  · rintro ⟨hseveral, hsorted, hinside, hlast⟩
    obtain ⟨hlt, hrest⟩ := List.pairwise_cons.mp hsorted
    rcases List.eq_nil_or_concat inds with rfl | ⟨init, x, rfl⟩
    · simp at hseveral
    · rw [List.concat_eq_append] at *
      rw [← List.cons_append] at hinside hlast
      rw [List.dropLast_concat] at hinside
      rw [List.getLast?_concat, Option.some.injEq] at hlast
      subst hlast
      refine ⟨hinside i (by simp), ⟨hrest, fun j hj => ⟨by have := hlt j hj; omega, ?_⟩⟩, fun hall => ?_⟩
      · rcases List.mem_append.mp hj with hj | hj
        · exact (hinside j (by simp [hj])).2.le
        · rw [List.mem_singleton.mp hj]
      · exact absurd (hall n (by simp)) (lt_irrefl _)
  · rintro ⟨hi, ⟨hsorted, hbounds⟩, hnot⟩
    rcases List.eq_nil_or_concat inds with rfl | ⟨init, x, rfl⟩
    · simp at hnot
    · rw [List.concat_eq_append] at *
      -- the last index is the greatest
      have hbelow : ∀ j ∈ init, j < x := fun j hj => (List.pairwise_append.mp hsorted).2.2 j hj x (by simp)
      have hx : x = n := by
        by_contra hne
        have hxn := (hbounds x (by simp)).2
        refine hnot fun j hj => ?_
        rcases List.mem_append.mp hj with hj | hj
        · have := hbelow j hj
          omega
        · rw [List.mem_singleton.mp hj]
          omega
      subst hx
      refine ⟨by simp, List.pairwise_cons.mpr ⟨fun j hj => ?_, hsorted⟩, fun j hj => ?_, by
        rw [← List.cons_append, List.getLast?_concat]⟩
      · have := (hbounds j hj).1
        omega
      · rw [← List.cons_append, List.dropLast_concat] at hj
        rcases List.mem_cons.mp hj with rfl | hj
        · exact hi
        · have h1 := (hbounds j (by simp [hj])).1
          have h2 := hbelow j hj
          omega

-- The call does so except for the lists that end with the length of the vector.
theorem deleteat_inds_exact {B : BitVector} (hB : WellFormed B) (inds : List ℤ) :
    DeletesInds B inds ↔ ¬ EndsAtLength B.len inds := by
  have hrep := hB.repr
  have hlen := hrep.len_eq
  have hok : Deletable B.len inds →
      ∃ B' : BitVector, deleteatInds B inds = .ok (B'.chunks, B'.len) ∧ Represents B' (remaining B.toList inds) :=
    fun h => deleteatInds_deletable hrep (hlen ▸ h)
  have hmeets : (∃ e, deleteatInds B inds = .error e) ∨ Deletable B.len inds → DeletesInds B inds := by
    rintro (herr | hdel)
    · refine ⟨⟨fun _ hdel => ?_, fun _ => herr⟩, hok⟩
      obtain ⟨e, he⟩ := herr
      obtain ⟨B', hB', -⟩ := hok hdel
      rw [he] at hB'
      cases hB'
    · refine ⟨⟨?_, fun h => absurd hdel h⟩, hok⟩
      rintro ⟨e, he⟩
      obtain ⟨B', hB', -⟩ := hok hdel
      rw [he] at hB'
      cases hB'
  cases inds with
  | nil =>
      refine ⟨fun _ h => ?_, fun _ => hmeets (.inr ⟨List.Pairwise.nil, by simp⟩)⟩
      have := h.several
      simp at this
  | cons i inds =>
      rw [endsAtLength_cons_iff]
      by_cases hi : 0 ≤ i ∧ i < B.len
      · by_cases hacc : Accepted B.len (i + 1) inds
        · by_cases hall : ∀ j ∈ inds, j < (B.len : ℤ)
          · refine ⟨fun _ h => h.2.2 hall, fun _ => hmeets (.inr ⟨?_, ?_⟩)⟩
            · refine List.pairwise_cons.mpr ⟨fun j hj => ?_, (accepted_iff.mp hacc).1⟩
              have := ((accepted_iff.mp hacc).2 j hj).1
              omega
            · intro j hj
              rcases List.mem_cons.mp hj with rfl | hj
              · exact hi
              · have h1 := hall j hj
                have h2 := ((accepted_iff.mp hacc).2 j hj).1
                omega
          · refine ⟨fun hdel _ => ?_, fun h => absurd ⟨hi, hacc, hall⟩ h⟩
            -- the call returns, although the last index is outside
            obtain ⟨r, hr⟩ := deleteatInds_taken hrep hi hacc
            have hnot : ¬ Deletable B.len (i :: inds) := fun h => hall fun j hj => (h.inside j (by simp [hj])).2
            obtain ⟨e, he⟩ := hdel.throws.mpr hnot
            rw [hr] at he
            cases he
        · exact ⟨fun _ h => hacc h.2.1, fun _ => hmeets (.inl (deleteatInds_refused (.inr hacc)))⟩
      · exact ⟨fun _ h => hi h.1, fun _ => hmeets (.inl (deleteatInds_refused (.inl hi)))⟩

theorem wellFormed_three : WellFormed ⟨[5], 3⟩ := wellFormed_chunk (by decide) (by decide)

theorem deleteat_inds_exact_first : DeletesInds ⟨[5], 3⟩ [0, 2] ↔ ¬ EndsAtLength 3 [0, 2] :=
  deleteat_inds_exact wellFormed_three [0, 2]

-- Of three elements the first and one past the end are deleted, and the last one is gone as well.
theorem deleteat_takes_the_length : WellFormed ⟨[5], 3⟩ ∧ ¬ DeletesInds ⟨[5], 3⟩ [0, 3] := by
  refine ⟨wellFormed_three, fun hdel => ?_⟩
  have hnot : ¬ Deletable 3 [0, 3] := fun h => absurd (h.inside 3 (by simp)) (by decide)
  obtain ⟨e, he⟩ := hdel.throws.mpr hnot
  have hok : deleteatInds ⟨[5], 3⟩ [0, 3] = .ok ([0], 1) := by decide
  rw [hok] at he
  cases he

end Joolia.BitArray
