import Joolia.Base.Sort.Insertion
import Mathlib.Tactic.Ring

namespace Joolia.Sort

open Fallible Sorting Segment

variable {α : Type} {lt : α → α → Bool}

section Partition

variable {v t t₀ L R xs : List α} {f : α → Bool} {base n : ℕ}

-- What a partition has stored: `L` from the start of the segment, `R` from its end.
structure Filled (base n : ℕ) (L R t₀ t : List α) : Prop where
  outside : SameOutside base n t₀ t
  left : ∀ i < L.length, t[base + i]? = L[i]?
  right : ∀ i < R.length, t[base + n - 1 - i]? = R[i]?

theorem Filled.push_left {x : α} (h : Filled base n L R t₀ t) (hroom : L.length + R.length < n) (hfit : base + n ≤ t.length) :
    Filled base n (L ++ [x]) R t₀ (t.set (base + L.length) x) := by
  refine ⟨h.outside.trans (.set (by omega) (by omega) x), fun i hi => ?_, fun i hi => ?_⟩
  · rw [List.length_append, List.length_singleton] at hi
    rcases Nat.eq_or_lt_of_le (Nat.le_of_lt_succ hi) with rfl | hlt
    · rw [List.getElem?_set_self (by omega), List.getElem?_concat_length]
    · rw [List.getElem?_set_ne (by omega), h.left i hlt, List.getElem?_append_left hlt]
  · rw [List.getElem?_set_ne (by omega), h.right i hi]

theorem Filled.push_right {x : α} (h : Filled base n L R t₀ t) (hroom : L.length + R.length < n) (hfit : base + n ≤ t.length) :
    Filled base n L (R ++ [x]) t₀ (t.set (base + n - 1 - R.length) x) := by
  refine ⟨h.outside.trans (.set (by omega) (by omega) x), fun i hi => ?_, fun i hi => ?_⟩
  · rw [List.getElem?_set_ne (by omega), h.left i hi]
  · rw [List.length_append, List.length_singleton] at hi
    rcases Nat.eq_or_lt_of_le (Nat.le_of_lt_succ hi) with rfl | hlt
    · rw [List.getElem?_set_self (by omega), List.getElem?_concat_length]
    · rw [List.getElem?_set_ne (by omega), h.right i hlt, List.getElem?_append_left hlt]

-- One loop of the partition distributes `xs`.
theorem partitionLoop_spec (xs : List α) (ahead : ℤ) {hi : ℤ} (fuel : ℕ) {lo offset : ℤ} (hfuel : xs.length < fuel)
    (h : Filled base n L R t₀ t) (hfit : base + n ≤ t.length) (hroom : L.length + R.length + xs.length < n)
    (hread : ∀ i, ∀ hi : i < xs.length, read v (lo + i + ahead) = .ok xs[i])
    (hlo : lo - offset = base + L.length) (hhi : hi - offset = (base + n - 1 : ℕ) - R.length) :
    ∃ t', partitionLoop v f ahead (lo + xs.length) hi fuel t lo offset =
        .ok (t', lo + xs.length, offset + (xs.filter f).length) ∧
      Filled base n (L ++ xs.filter fun x => !f x) (R ++ xs.filter f) t₀ t' := by
  induction xs generalizing fuel L R t lo offset with
  | nil =>
      obtain ⟨fuel, rfl⟩ : ∃ k, fuel = k + 1 := ⟨fuel - 1, by simp at hfuel; omega⟩
      rw [partitionLoop, if_neg (by simp)]
      exact ⟨t, by simp, by simpa using h⟩
  | cons x xs ih =>
      obtain ⟨fuel, rfl⟩ : ∃ k, fuel = k + 1 := ⟨fuel - 1, by simp at hfuel; omega⟩
      rw [List.length_cons] at hfuel hroom
      have hx := hread 0 (by simp)
      rw [Nat.cast_zero, Int.add_zero, List.getElem_cons_zero] at hx
      have hread' : ∀ i, ∀ hi : i < xs.length, read v (lo + 1 + i + ahead) = .ok xs[i] := fun i hi => by
        have hnext := hread (i + 1) (by simpa using hi)
        rw [List.getElem_cons_succ] at hnext
        rw [← hnext]
        congr 1
        push_cast
        ring
      have hbound : lo + ((x :: xs).length : ℕ) = lo + 1 + xs.length := by
        rw [List.length_cons]
        push_cast
        ring
      rw [partitionLoop, if_pos (by simp), hx, ok_bind]
      dsimp only
      cases hf : f x with
      | true =>
          have hstep := h.push_right (x := x) (by omega) hfit
          rw [if_pos rfl, if_pos rfl, write_eq (n := base + n - 1 - R.length) (by omega) (by omega), ok_bind, hbound]
          obtain ⟨t', hrun, hfilled⟩ := ih fuel (by omega) hstep (by rw [List.length_set]; exact hfit)
            (by rw [List.length_append, List.length_singleton]; omega) hread'
            (by omega : lo + 1 - (offset + 1) = base + L.length) (by rw [List.length_append, List.length_singleton]; omega)
          refine ⟨t', ?_, ?_⟩
          · rw [hrun, List.filter_cons_of_pos hf, List.length_cons]
            push_cast
            congr 3
            ring
          · rw [List.filter_cons_of_pos hf, List.filter_cons_of_neg (by simp [hf]), List.append_cons R]
            exact hfilled
      | false =>
          have hstep := h.push_left (x := x) (by omega) hfit
          rw [if_neg Bool.false_ne_true, if_neg Bool.false_ne_true, write_eq (n := base + L.length) (by omega) (by omega), ok_bind,
            hbound]
          obtain ⟨t', hrun, hfilled⟩ := ih fuel (by omega) hstep (by rw [List.length_set]; exact hfit)
            (by rw [List.length_append, List.length_singleton]; omega) hread'
            (by rw [List.length_append, List.length_singleton]; omega : lo + 1 - offset = base + (L ++ [x]).length) (by omega)
          refine ⟨t', ?_, ?_⟩
          · rw [hrun, List.filter_cons_of_neg (by simp [hf])]
          · rw [List.filter_cons_of_neg (p := f) (by simp [hf]), List.filter_cons_of_pos (by simp [hf]), List.append_cons L]
            exact hfilled

-- A test that sends no element to the wrong side of the pivot
def Divides (lt : α → α → Bool) (pivot : α) (f : α → Bool) : Prop :=
  ∀ x, (f x = true → lt x pivot = false) ∧ (f x = false → lt pivot x = false)

theorem divides_before (hlt : StrictWeak lt) (rev : Bool) (pivot : α) :
    Divides lt pivot fun x => if rev then !lt x pivot else lt pivot x := by
  intro x
  cases rev with
  | true =>
      simp only [if_true, Bool.not_eq_true', Bool.not_eq_false']
      exact ⟨id, hlt.asymm⟩
  | false =>
      simp only [Bool.false_eq_true, if_false]
      exact ⟨hlt.asymm, id⟩

theorem divides_after (hlt : StrictWeak lt) (rev : Bool) (pivot : α) :
    Divides lt pivot fun x => if rev then lt pivot x else !lt x pivot := by
  intro x
  cases rev with
  | true =>
      simp only [if_true]
      exact ⟨hlt.asymm, id⟩
  | false =>
      simp only [Bool.false_eq_true, if_false, Bool.not_eq_true', Bool.not_eq_false']
      exact ⟨id, hlt.asymm⟩

theorem modRange_mem (x : ℤ) {lo n : ℕ} (hn : 0 < n) : ∃ m < n, modRange x lo (lo + n - 1) = (lo + m : ℕ) := by
  have hpos : (0 : ℤ) < lo + n - 1 + 1 - lo := by omega
  have h0 := Int.emod_nonneg ((x - lo) % 2 ^ 64) hpos.ne'
  have hlt := Int.emod_lt_of_pos ((x - lo) % 2 ^ 64) hpos
  refine ⟨((x - lo) % 2 ^ 64 % (lo + n - 1 + 1 - lo)).toNat, by omega, ?_⟩
  rw [modRange]
  omega

-- `L` before the place of the pivot and `R` behind it, the latter from its end.
structure Partitioned (lt : α → α → Bool) (D : List α) (base n : ℕ) (t t' L : List α) (pivot : α) (R : List α) : Prop where
  length : L.length + R.length + 1 = n
  perm : (L ++ pivot :: R).Perm D
  sublist : L.Sublist D
  lower : ∀ a ∈ L, lt pivot a = false
  upper : ∀ b ∈ R, lt b pivot = false
  outside : SameOutside base n t t'
  left : seg t' base L.length = L
  right : seg t' (base + L.length + 1) R.length = R.reverse

-- The elements before the pivot and those after it, each list divided by its own test
theorem divided {f g : α → Bool} (xs ys : List α) {pivot : α} (hf : Divides lt pivot f) (hg : Divides lt pivot g) :
    (((xs.filter fun x => !f x) ++ (ys.filter fun x => !g x)) ++ pivot :: (xs.filter f ++ ys.filter g)).Perm
        (xs ++ pivot :: ys) ∧
      (∀ a ∈ (xs.filter fun x => !f x) ++ (ys.filter fun x => !g x), lt pivot a = false) ∧
      ∀ b ∈ xs.filter f ++ ys.filter g, lt b pivot = false := by
  refine ⟨?_, fun a ha => ?_, fun b hb => ?_⟩
  · classical
    refine List.perm_iff_count.2 fun a => ?_
    have hx := (List.filter_append_perm f xs).count_eq a
    have hy := (List.filter_append_perm g ys).count_eq a
    simp only [List.count_append, List.count_cons] at hx hy ⊢
    omega
  · simp only [List.mem_append, List.mem_filter, Bool.not_eq_true'] at ha
    rcases ha with ha | ha
    · exact (hf a).2 ha.2
    · exact (hg a).2 ha.2
  · simp only [List.mem_append, List.mem_filter] at hb
    rcases hb with hb | hb
    · exact (hf b).1 hb.2
    · exact (hg b).1 hb.2

theorem Filled.left_eq (h : Filled base n L R t₀ t) (hroom : L.length ≤ n) (hfit : base + n ≤ t.length) : seg t base L.length = L :=
  (seg_eq_iff (by omega)).2 h.left

theorem Filled.right_eq (h : Filled base n L R t₀ t) (hroom : L.length + R.length + 1 = n) (hfit : base + n ≤ t.length) :
    seg t (base + L.length + 1) R.length = R.reverse := by
  have hright : ∀ i < R.reverse.length, t[base + L.length + 1 + i]? = R.reverse[i]? := by
    intro i hi
    rw [List.length_reverse] at hi
    rw [List.getElem?_reverse hi, ← h.right _ (by omega)]
    congr 1
    omega
  have heq := (seg_eq_iff (by rw [List.length_reverse]; omega)).2 hright
  rwa [List.length_reverse] at heq

theorem partition_spec (hlt : StrictWeak lt) (hash : ℤ → ℤ) {lo : ℕ} {offset : ℤ} (hoffset : offset = lo - base) (hn : 0 < n)
    (hv : lo + n ≤ v.length) (ht : base + n ≤ t.length) (rev : Bool) :
    ∃ t' L pivot R, partition lt hash t lo (lo + n - 1) offset v rev = .ok (t', pivot, ((base + L.length : ℕ) : ℤ)) ∧
      Partitioned lt (seg v lo n) base n t t' L pivot R ∧ v[(modRange (hash lo) lo (lo + n - 1)).toNat]? = some pivot := by
  obtain ⟨m, hm, hpivot⟩ := @modRange_mem (hash lo) lo _ hn
  obtain ⟨k, rfl⟩ : ∃ k, n = m + (k + 1) := ⟨n - m - 1, by omega⟩
  obtain ⟨hi, hhi⟩ : ∃ hi : ℤ, hi = lo + (m + (k + 1) : ℕ) - 1 := ⟨_, rfl⟩
  obtain ⟨f, hf⟩ : ∃ f : α → Bool, f = fun x => if rev then !lt x v[lo + m] else lt v[lo + m] x := ⟨_, rfl⟩
  obtain ⟨g, hg⟩ : ∃ g : α → Bool, g = fun x => if rev then lt v[lo + m] x else !lt x v[lo + m] := ⟨_, rfl⟩
  have hlen1 : (seg v lo m).length = m := length_seg (by omega)
  have hlen2 : (seg v (lo + m + 1) k).length = k := length_seg (by omega)
  have hget : ∀ j l i, j + l ≤ v.length → ∀ hi : i < (seg v j l).length, v[j + i]? = some (seg v j l)[i] := fun j l i hjl hi => by
    rw [← List.getElem?_eq_getElem hi, getElem?_seg (by rw [length_seg hjl] at hi; exact hi)]
  have hlength1 := (List.filter_append_perm f (seg v lo m)).length_eq
  have hlength2 := (List.filter_append_perm g (seg v (lo + m + 1) k)).length_eq
  rw [List.length_append, hlen1] at hlength1
  rw [List.length_append, hlen2] at hlength2
  -- the elements before the pivot
  have hstart : Filled base (m + (k + 1)) [] [] t t := ⟨.refl _ _ _, by simp, by simp⟩
  obtain ⟨t1, hrun1, hfilled1⟩ := partitionLoop_spec (f := f) (seg v lo m) 0 ((hi - lo).toNat + 1) (by omega) hstart ht
    (by simp only [List.length_nil]; omega)
    (fun i hi => by rw [Int.add_zero]; exact read_eq_of_getElem? (by omega) (hget lo m i (by omega) hi))
    (by simp only [List.length_nil]; omega : (lo : ℤ) - offset = base + ([] : List α).length)
    (by simp only [List.length_nil]; omega : hi - offset = _)
  rw [List.nil_append, List.nil_append] at hfilled1
  have hfit1 : base + (m + (k + 1)) ≤ t1.length := by rw [hfilled1.outside.length]; exact ht
  -- those after it
  obtain ⟨t2, hrun2, hfilled2⟩ := partitionLoop_spec (f := g) (seg v (lo + m + 1) k) 1
    ((hi - (lo + (seg v lo m).length)).toNat + 1) (by omega) hfilled1 hfit1
    (by omega) (fun i hi => read_eq_of_getElem? (by omega) (hget (lo + m + 1) k i (by omega) hi))
    (by omega : (lo : ℤ) + (seg v lo m).length - (offset + ((seg v lo m).filter f).length) = _) (by omega : hi - _ = _)
  have hfit2 : base + (m + (k + 1)) ≤ t2.length := by rw [hfilled2.outside.length]; exact ht
  obtain ⟨hperm, hlower, hupper⟩ := divided (seg v lo m) (seg v (lo + m + 1) k) (hf ▸ divides_before hlt rev v[lo + m] : Divides lt v[lo + m] f)
    (hg ▸ divides_after hlt rev v[lo + m] : Divides lt v[lo + m] g)
  have hlen : (((seg v lo m).filter fun x => !f x) ++ (seg v (lo + m + 1) k).filter fun x => !g x).length +
      ((seg v lo m).filter f ++ (seg v (lo + m + 1) k).filter g).length + 1 = m + (k + 1) := by
    rw [List.length_append, List.length_append]
    omega
  refine ⟨t2, _, v[lo + m], _, ?_, ⟨hlen, ?_, ?_, hlower, hupper, hfilled2.outside, hfilled2.left_eq (by omega) hfit2,
    hfilled2.right_eq hlen hfit2⟩, by rw [hpivot, Int.toNat_natCast, List.getElem?_eq_getElem]⟩
  · rw [partition, ← hhi, show modRange (hash lo) lo hi = (lo + m : ℕ) by rw [hhi, hpivot], read_eq rfl (by omega), ok_bind, ← hf, ← hg]
    rw [show ((lo + m : ℕ) : ℤ) = lo + (seg v lo m).length by omega, hrun1, ok_bind]
    dsimp only
    rw [show (lo : ℤ) + (seg v lo m).length + (seg v (lo + m + 1) k).length = hi by omega] at hrun2
    rw [hrun2, ok_bind, List.length_append]
    dsimp only
    congr 3
    omega
  · rw [seg_add, seg_cons (by omega)]
    exact hperm
  · rw [seg_add, seg_cons (by omega)]
    exact List.filter_sublist.append (List.filter_sublist.cons _)

-- The `n` elements that are being sorted, in `t` when `swapped`
def live (swapped : Bool) (v t : List α) (lo tlo n : ℕ) : List α := if swapped then seg t tlo n else seg v lo n

@[simp] theorem live_true (v t : List α) (lo tlo n : ℕ) : live true v t lo tlo n = seg t tlo n := rfl

@[simp] theorem live_false (v t : List α) (lo tlo n : ℕ) : live false v t lo tlo n = seg v lo n := rfl

-- The pivot is in its place in `v`; the parts beside it are where the next round takes them from.
structure Split (lt : α → α → Bool) (D : List α) (lo tlo n : ℕ) (v t v' t' : List α) (swapped : Bool) (L : List α) (pivot : α)
    (R : List α) : Prop where
  length : L.length + R.length + 1 = n
  perm : (L ++ pivot :: R).Perm D
  sublist : L.Sublist D
  lower : ∀ a ∈ L, lt pivot a = false
  upper : ∀ b ∈ R, lt b pivot = false
  outV : SameOutside lo n v v'
  outT : SameOutside tlo n t t'
  pivot : v'[lo + L.length]? = some pivot
  left : live swapped v' t' lo tlo L.length = L
  right : live swapped v' t' (lo + L.length + 1) (tlo + L.length + 1) R.length = R.reverse

theorem partitionBoth_spec (hlt : StrictWeak lt) (hash : ℤ → ℤ) {lo tlo : ℕ} {offset : ℤ} (hoffset : offset = tlo - lo) (hn : 0 < n)
    (hv : lo + n ≤ v.length) (ht : tlo + n ≤ t.length) (swapped rev : Bool) :
    ∃ v' t' L pivot R, partitionBoth lt hash v t lo (lo + n - 1) offset swapped rev = .ok (v', t', ((lo + L.length : ℕ) : ℤ)) ∧
      Split lt (live swapped v t lo tlo n) lo tlo n v t v' t' (!swapped) L pivot R ∧
      (swapped = false → v[(modRange (hash lo) lo (lo + n - 1)).toNat]? = some pivot) := by
  cases swapped with
  | true =>
      obtain ⟨v1, L, pivot, R, hrun, hpart, -⟩ := @partition_spec _ _ _ _ lo _ hlt hash tlo _ hoffset hn ht hv rev
      have hlen := hpart.length
      have hvlen := hpart.outside.length
      have hset : SameOutside (lo + L.length) 1 v1 (v1.set (lo + L.length) pivot) := .set (Nat.le_refl _) (Nat.lt_succ_self _) pivot
      refine ⟨v1.set (lo + L.length) pivot, t, L, pivot, R, ?_, ⟨hlen, hpart.perm, hpart.sublist, hpart.lower, hpart.upper,
        hpart.outside.trans (hset.widen (by omega) (by omega)), .refl _ _ _, List.getElem?_set_self (by omega), ?_, ?_⟩,
        fun h => absurd h.symm Bool.false_ne_true⟩
      · rw [partitionBoth, if_pos rfl, show (lo : ℤ) + offset = tlo by omega, show (lo : ℤ) + n - 1 + offset = tlo + n - 1 by omega, hrun,
          ok_bind]
        dsimp only
        rw [write_eq rfl (by omega), ok_bind]
      · rw [Bool.not_true, live_false, hset.seg_eq (by omega)]
        exact hpart.left
      · rw [Bool.not_true, live_false, hset.seg_eq (by omega)]
        exact hpart.right
  | false =>
      obtain ⟨t1, L, pivot, R, hrun, hpart, hpivot⟩ := @partition_spec _ _ _ _ tlo _ hlt hash lo _ (by omega : -offset = _) hn hv ht rev
      have hlen := hpart.length
      have hset : SameOutside (lo + L.length) 1 v (v.set (lo + L.length) pivot) := .set (Nat.le_refl _) (Nat.lt_succ_self _) pivot
      refine ⟨v.set (lo + L.length) pivot, t1, L, pivot, R, ?_, ⟨hlen, hpart.perm, hpart.sublist, hpart.lower,
        hpart.upper, hset.widen (by omega) (by omega), hpart.outside, List.getElem?_set_self (by omega), hpart.left, hpart.right⟩,
        fun _ => hpivot⟩
      rw [partitionBoth, if_neg Bool.false_ne_true, hrun, ok_bind]
      dsimp only
      rw [show ((tlo + L.length : ℕ) : ℤ) - offset = (lo + L.length : ℕ) by omega, write_eq rfl (by omega), ok_bind]

end Partition

end Joolia.Sort
