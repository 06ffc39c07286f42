import Joolia.Library.Segment
import Mathlib.Data.List.Count
import Mathlib.Data.List.Range
import Mathlib.Data.List.Flatten
import Mathlib.Data.Int.Basic

namespace Buckets

open Segment

variable {α : Type*} {key : α → ℕ} {xs done rest : List α} {b k i : ℕ} {x : α}

-- The elements of one key, in their order.
def bucket (key : α → ℕ) (xs : List α) (b : ℕ) : List α := xs.filter fun x => key x = b

theorem mem_bucket : x ∈ bucket key xs b ↔ x ∈ xs ∧ key x = b := by rw [bucket, List.mem_filter, decide_eq_true_eq]

-- How many elements have smaller keys: where the bucket begins.
def start (key : α → ℕ) (xs : List α) (b : ℕ) : ℕ := xs.countP fun x => key x < b

-- The buckets `0, …, k - 1`, one after another.
def distributed (key : α → ℕ) (xs : List α) (k : ℕ) : List α := (List.range k).flatMap (bucket key xs)

theorem bucket_congr {key' : α → ℕ} (h : ∀ x ∈ xs, key x = key' x) (b : ℕ) : bucket key xs b = bucket key' xs b :=
  List.filter_congr fun x hx => by rw [h x hx]

theorem distributed_congr {key' : α → ℕ} (h : ∀ x ∈ xs, key x = key' x) (k : ℕ) : distributed key xs k = distributed key' xs k :=
  List.flatMap_congr fun b _ => bucket_congr h b

@[simp] theorem start_zero (key : α → ℕ) (xs : List α) : start key xs 0 = 0 := by simp [start]

theorem start_succ (key : α → ℕ) (xs : List α) (b : ℕ) : start key xs (b + 1) = start key xs b + (bucket key xs b).length := by
  rw [start, start, bucket, ← List.countP_eq_length_filter]
  induction xs with
  | nil => rfl
  | cons x xs ih =>
      rw [List.countP_cons, List.countP_cons, List.countP_cons, ih]
      simp only [decide_eq_true_eq]
      split_ifs <;> omega

theorem start_mono (h : b ≤ k) : start key xs b ≤ start key xs k :=
  List.countP_mono_left fun x _ hx => by
    rw [decide_eq_true_eq] at hx ⊢
    omega

theorem start_all (h : ∀ x ∈ xs, key x < k) : start key xs k = xs.length :=
  List.countP_eq_length.2 fun x hx => by simpa using h x hx

theorem start_add_le (h : b < k) : start key xs b + (bucket key xs b).length ≤ start key xs k := by
  rw [← start_succ]
  exact start_mono h

theorem start_le_length (key : α → ℕ) (xs : List α) (b : ℕ) : start key xs b ≤ xs.length := List.countP_le_length

theorem distributed_succ (key : α → ℕ) (xs : List α) (k : ℕ) :
    distributed key xs (k + 1) = distributed key xs k ++ bucket key xs k := by
  rw [distributed, List.range_succ, List.flatMap_append, List.flatMap_singleton]
  rfl

theorem length_distributed (key : α → ℕ) (xs : List α) (k : ℕ) : (distributed key xs k).length = start key xs k := by
  induction k with
  | zero => simp [distributed]
  | succ k ih => rw [distributed_succ, List.length_append, ih, start_succ]

theorem getElem?_distributed (hb : b < k) (hi : i < (bucket key xs b).length) :
    (distributed key xs k)[start key xs b + i]? = (bucket key xs b)[i]? := by
  induction k with
  | zero => omega
  | succ k ih =>
      rw [distributed_succ]
      rcases Nat.lt_or_eq_of_le (Nat.le_of_lt_succ hb) with hlt | rfl
      · have hfit := @start_add_le _ key xs _ _ hlt
        rw [List.getElem?_append_left (by rw [length_distributed]; omega), ih hlt]
      · rw [List.getElem?_append_right (by rw [length_distributed]; omega), length_distributed, Nat.add_sub_cancel_left]

theorem distributed_perm_filter (key : α → ℕ) (xs : List α) (k : ℕ) : (distributed key xs k).Perm (xs.filter fun x => key x < k) := by
  induction k with
  | zero => simp [distributed]
  | succ k ih =>
      have hsplit := List.filter_append_perm (fun x => decide (key x < k)) (xs.filter fun x => decide (key x < k + 1))
      rw [List.filter_filter, List.filter_filter] at hsplit
      have hlow : (xs.filter fun x => decide (key x < k) && decide (key x < k + 1)) = xs.filter fun x => key x < k := by
        refine List.filter_congr fun x _ => ?_
        rw [← Bool.decide_and]
        exact decide_eq_decide.2 (by omega)
      have hlast : (xs.filter fun x => (!decide (key x < k)) && decide (key x < k + 1)) = bucket key xs k := by
        refine List.filter_congr fun x _ => ?_
        rw [← decide_not, ← Bool.decide_and]
        exact decide_eq_decide.2 (by omega)
      rw [hlow, hlast] at hsplit
      rw [distributed_succ]
      exact (ih.append_right _).trans hsplit

theorem perm_distributed (h : ∀ x ∈ xs, key x < k) : (distributed key xs k).Perm xs := by
  have hperm := distributed_perm_filter key xs k
  rwa [List.filter_eq_self.2 fun x hx => by simpa using h x hx] at hperm

theorem mem_distributed (hx : x ∈ distributed key xs k) : x ∈ xs ∧ key x < k := by
  have hmem := (distributed_perm_filter key xs k).mem_iff.1 hx
  rwa [List.mem_filter, decide_eq_true_eq] at hmem

-- Distributing is stable: what holds of the elements in their order holds within the buckets.
theorem pairwise_distributed {R : α → α → Prop} (h : xs.Pairwise R) :
    (distributed key xs k).Pairwise fun x y => key x < key y ∨ key x = key y ∧ R x y := by
  induction k with
  | zero => simp [distributed]
  | succ k ih =>
      rw [distributed_succ, List.pairwise_append]
      refine ⟨ih, ?_, fun x hx y hy => ?_⟩
      · refine (h.filter _).imp_of_mem fun hx hy hR => .inr ⟨?_, hR⟩
        rw [(mem_bucket.1 hx).2, (mem_bucket.1 hy).2]
      · rw [(mem_bucket.1 hy).2]
        exact .inl (mem_distributed hx).2

theorem bucket_bucket (key : α → ℕ) (xs : List α) (b c : ℕ) : bucket key (bucket key xs b) c = if b = c then bucket key xs b else [] := by
  split_ifs with h
  · subst h
    exact List.filter_eq_self.2 fun x hx => decide_eq_true (mem_bucket.1 hx).2
  · refine List.filter_eq_nil_iff.2 fun x hx hc => h ?_
    rw [decide_eq_true_eq] at hc
    rw [← (mem_bucket.1 hx).2, hc]

-- Distributing keeps the order within each bucket.
theorem bucket_distributed (key : α → ℕ) (xs : List α) (k b : ℕ) :
    bucket key (distributed key xs k) b = if b < k then bucket key xs b else [] := by
  induction k with
  | zero => simp [distributed, bucket]
  | succ k ih =>
      rw [distributed_succ, bucket, List.filter_append]
      change bucket key (distributed key xs k) b ++ bucket key (bucket key xs k) b = _
      rw [ih, bucket_bucket]
      by_cases hlt : b < k
      · rw [if_pos hlt, if_neg (by omega), if_pos (by omega), List.append_nil]
      · rw [if_neg hlt, List.nil_append]
        by_cases hk : k = b
        · subst hk
          rw [if_pos rfl, if_pos (by omega)]
        · rw [if_neg hk, if_neg (by omega)]

-- The elements by their keys, those of one key in their old order
structure StablySorted (key : α → ℕ) (xs ys : List α) : Prop where
  perm : ys.Perm xs
  sorted : ys.Pairwise fun x y => key x ≤ key y
  stable : ∀ b, bucket key ys b = bucket key xs b

theorem stablySorted_distributed (h : ∀ x ∈ xs, key x < k) : StablySorted key xs (distributed key xs k) := by
  refine ⟨perm_distributed h, ?_, fun b => ?_⟩
  · refine (pairwise_distributed (R := fun _ _ => True) (List.pairwise_of_forall fun _ _ => trivial)).imp fun hxy => ?_
    omega
  · rw [bucket_distributed]
    split_ifs with hb
    · rfl
    · symm
      refine List.filter_eq_nil_iff.2 fun x hx hxb => hb ?_
      rw [decide_eq_true_eq] at hxb
      rw [← hxb]
      exact h x hx

-- The buckets of one key among those of another are the buckets of the two together.
theorem bucket_distributed_other {low high : α → ℕ} {m : ℕ} (h : ∀ x ∈ xs, low x < m) (b : ℕ) :
    bucket high (distributed low xs m) b = (List.range m).flatMap fun i => bucket (fun x => low x + m * high x) xs (i + m * b) := by
  rw [bucket, distributed, List.filter_flatMap]
  refine List.flatMap_congr fun i hi => ?_
  rw [List.mem_range] at hi
  rw [bucket, bucket, List.filter_filter]
  refine List.filter_congr fun x hx => ?_
  have hlow := h x hx
  rw [← Bool.decide_and]
  refine decide_eq_decide.2 ⟨fun ⟨hb, hi⟩ => by rw [hb, hi], fun heq => ?_⟩
  have hmod := congrArg (· % m) heq
  have hdiv := congrArg (· / m) heq
  simp only [Nat.add_mul_mod_self_left, Nat.mod_eq_of_lt hlow, Nat.mod_eq_of_lt hi, Nat.add_mul_div_left _ _ (by omega : 0 < m),
    Nat.div_eq_of_lt hlow, Nat.div_eq_of_lt hi, Nat.zero_add] at hmod hdiv
  exact ⟨hdiv, hmod⟩

-- Distributing by the low part of the keys and then by the high one distributes by both.
theorem distributed_distributed {low high : α → ℕ} {m : ℕ} (h : ∀ x ∈ xs, low x < m) (k : ℕ) :
    distributed high (distributed low xs m) k = distributed (fun x => low x + m * high x) xs (m * k) := by
  induction k with
  | zero => simp [distributed]
  | succ k ih =>
      rw [distributed_succ, ih, bucket_distributed_other h, Nat.mul_succ, distributed, distributed, List.range_add, List.flatMap_append,
        List.flatMap_map]
      refine congrArg _ (List.flatMap_congr fun i _ => ?_)
      rw [Nat.add_comm]

section Distributing

variable {counts : List ℤ} {base : ℕ} {t₀ t : List α}

-- The elements `done` are stored, each behind the others of its bucket; `counts` says where the next ones go.
structure Distributing (key : α → ℕ) (xs : List α) (k base : ℕ) (t₀ : List α) (done : List α) (counts : List ℤ) (t : List α) :
    Prop where
  room : k ≤ counts.length
  next : ∀ b < k, counts[b]? = some ((base + start key xs b + (bucket key done b).length : ℕ) : ℤ)
  outside : SameOutside base xs.length t₀ t
  stored : ∀ b < k, ∀ i < (bucket key done b).length, t[base + start key xs b + i]? = (bucket key done b)[i]?

theorem bucket_concat (key : α → ℕ) (done : List α) (x : α) (b : ℕ) :
    bucket key (done ++ [x]) b = if key x = b then bucket key done b ++ [x] else bucket key done b := by
  rw [bucket, List.filter_append]
  split_ifs with hb
  · rw [List.filter_cons_of_pos (by simpa using hb), List.filter_nil, bucket]
  · rw [List.filter_cons_of_neg (by simpa using hb), List.filter_nil, List.append_nil, bucket]

-- A part of a bucket, with room for the next element
theorem bucket_room (hxs : xs = done ++ x :: rest) : (bucket key done (key x)).length < (bucket key xs (key x)).length := by
  rw [hxs, bucket, bucket, List.filter_append, List.filter_cons_of_pos (by simp), List.length_append, List.length_cons]
  omega

theorem bucket_part (hxs : xs = done ++ rest) (b : ℕ) : (bucket key done b).length ≤ (bucket key xs b).length := by
  rw [hxs, bucket, bucket, List.filter_append, List.length_append]
  exact Nat.le_add_right _ _

-- Places of different elements differ.
theorem place_ne {b c i j : ℕ} (hi : i < (bucket key xs b).length) (hj : j < (bucket key xs c).length) (hbc : b ≠ c) :
    start key xs b + i ≠ start key xs c + j := by
  rcases Nat.lt_or_gt_of_ne hbc with hlt | hlt
  · have hle := @start_add_le _ key xs _ _ hlt
    omega
  · have hle := @start_add_le _ key xs _ _ hlt
    omega

theorem Distributing.place_lt (hxs : xs = done ++ x :: rest) :
    start key xs (key x) + (bucket key done (key x)).length < xs.length := by
  have hroom := @bucket_room _ key _ _ _ _ hxs
  have hsucc := start_succ key xs (key x)
  have hle := start_le_length key xs (key x + 1)
  omega

theorem Distributing.push (h : Distributing key xs k base t₀ done counts t) (hxs : xs = done ++ x :: rest) (hkey : key x < k)
    (hfit : base + xs.length ≤ t.length) :
    Distributing key xs k base t₀ (done ++ [x])
      (counts.set (key x) ((base + start key xs (key x) + (bucket key done (key x)).length : ℕ) + 1))
      (t.set (base + start key xs (key x) + (bucket key done (key x)).length) x) := by
  have hplace := @Distributing.place_lt _ key _ _ _ _ hxs
  have hroom := @bucket_room _ key _ _ _ _ hxs
  have hcounts := h.room
  refine ⟨by rwa [List.length_set], fun b hb => ?_, h.outside.trans (.set (by omega) (by omega) x), fun b hb i hi => ?_⟩
  · rw [bucket_concat]
    by_cases hbx : key x = b
    · rw [if_pos hbx, ← hbx, List.getElem?_set_self (by omega), List.length_append, List.length_singleton]
      congr 1
    · rw [if_neg hbx, List.getElem?_set_ne hbx, h.next b hb]
  · have hpart := @bucket_part _ key _ _ _ hxs b
    rw [bucket_concat] at hi ⊢
    by_cases hbx : key x = b
    · subst hbx
      rw [if_pos rfl] at hi ⊢
      rw [List.length_append, List.length_singleton] at hi
      rcases Nat.lt_or_eq_of_le (Nat.le_of_lt_succ hi) with hlt | rfl
      · rw [List.getElem?_set_ne (by omega), h.stored _ hb i hlt, List.getElem?_append_left hlt]
      · rw [List.getElem?_set_self (by omega), List.getElem?_concat_length]
    · rw [if_neg hbx] at hi ⊢
      have hne := @place_ne _ key xs _ _ _ _ hroom (by omega : i < (bucket key xs b).length) hbx
      rw [List.getElem?_set_ne (by omega), h.stored b hb i hi]

-- When all elements are stored.
theorem Distributing.finish (h : Distributing key xs k base t₀ xs counts t) (hkey : ∀ x ∈ xs, key x < k)
    (hfit : base + xs.length ≤ t.length) : seg t base xs.length = distributed key xs k := by
  have hlen : (distributed key xs k).length = xs.length := by rw [length_distributed, start_all hkey]
  rw [← hlen, seg_eq_iff (by omega)]
  -- every place belongs to some bucket
  have hall : ∀ k' ≤ k, ∀ i < start key xs k', t[base + i]? = (distributed key xs k)[i]? := by
    intro k' hk'
    induction k' with
    | zero => simp
    | succ k' ih =>
        intro i hi
        by_cases hlt : i < start key xs k'
        · exact ih (by omega) i hlt
        · rw [start_succ] at hi
          obtain ⟨j, rfl⟩ : ∃ j, i = start key xs k' + j := ⟨i - start key xs k', by omega⟩
          rw [getElem?_distributed (by omega) (by omega), ← Nat.add_assoc, h.stored k' (by omega) j (by omega)]
  intro i hi
  rw [length_distributed] at hi
  exact hall k (Nat.le_refl k) i hi

end Distributing

end Buckets
