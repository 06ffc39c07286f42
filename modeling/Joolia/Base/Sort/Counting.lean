import Joolia.Base.Sort.Insertion
import Joolia.Base.Sort.Quick
import Joolia.Library.Buckets
import Mathlib.Data.List.Chain

namespace Joolia.Sort

open Fallible Segment Buckets

-- `counts[i] += 1`
def increment (counts : List ℤ) (i : ℤ) : Except SortError (List ℤ) := do
  let c ← read counts i
  write counts i (c + 1)

-- Putting `x` where the counter of `label` points, which then points one further.
def place {α : Type} (counts : List ℤ) (t : List α) (label : ℤ) (x : α) : Except SortError (List ℤ × List α) := do
  let c ← read counts label
  let t ← write t c x
  let counts ← write counts label (c + 1)
  .ok (counts, t)

variable {α : Type} {counts : List ℤ} {xs t : List α} {key : α → ℕ} {index : α → ℤ} {k base m : ℕ}

theorem foldlM_congr {β γ : Type} {f g : β → γ → Except SortError β} {l : List γ} {s : β} (h : ∀ x ∈ l, ∀ s, f s x = g s x) :
    l.foldlM f s = l.foldlM g s := by
  induction l generalizing s with
  | nil => rfl
  | cons x l ih =>
      rw [List.foldlM_cons, List.foldlM_cons, h x List.mem_cons_self]
      exact bind_congr fun s' => ih fun y hy => h y (List.mem_cons_of_mem x hy)

theorem increment_eq {i : ℕ} {c : ℤ} (h : counts[i]? = some c) : increment counts i = .ok (counts.set i (c + 1)) := by
  obtain ⟨hi, rfl⟩ := List.getElem?_eq_some_iff.1 h
  rw [increment, read_eq rfl hi, ok_bind, write_eq rfl hi]

-- The frequencies of the keys.
theorem frequencies_spec (hindex : ∀ x ∈ xs, index x = key x) (hkey : ∀ x ∈ xs, key x < m) :
    ∃ counts, xs.foldlM (fun counts x => increment counts (index x)) (List.replicate m 0) = .ok counts ∧
      counts.length = m ∧ ∀ b < m, counts[b]? = some ((bucket key xs b).length : ℤ) := by
  refine foldlM_spec (fun done (counts : List ℤ) => counts.length = m ∧ ∀ b < m, counts[b]? = some ((bucket key done b).length : ℤ)) xs
    ⟨by simp, fun b hb => ?_⟩ fun done x counts hx hP => ?_
  · rw [List.getElem?_replicate, if_pos hb]
    rfl
  · obtain ⟨hlen, hcounts⟩ := hP
    have hlt := hkey x hx
    refine ⟨_, by rw [hindex x hx]; exact increment_eq (hcounts (key x) hlt), by rw [List.length_set, hlen], fun b hb => ?_⟩
    rw [bucket_concat]
    by_cases hb' : key x = b
    · subst hb'
      rw [if_pos rfl, List.getElem?_set_self (by omega), List.length_append, List.length_singleton]
      rfl
    · rw [if_neg hb', List.getElem?_set_ne hb', hcounts b hb]

-- Every element goes to the place of its bucket.
theorem distribute_spec (hindex : ∀ x ∈ xs, index x = key x) (hkey : ∀ x ∈ xs, key x < k) (hroom : k ≤ counts.length)
    (hcounts : ∀ b < k, counts[b]? = some ((base + start key xs b : ℕ) : ℤ)) (hfit : base + xs.length ≤ t.length) :
    ∃ counts' t', xs.foldlM (fun (s : List ℤ × List α) x => place s.1 s.2 (index x) x) (counts, t) = .ok (counts', t') ∧
      SameOutside base xs.length t t' ∧ counts'.length = counts.length ∧ seg t' base xs.length = distributed key xs k := by
  have hloop := foldlM_split (f := fun (s : List ℤ × List α) x => place s.1 s.2 (index x) x)
    (s := (counts, t)) (fun done s => Distributing key xs k base t done s.1 s.2 ∧ s.1.length = counts.length) xs
    ⟨⟨hroom, fun b hb => ?_, .refl _ _ _, fun b hb i hi => ?_⟩, rfl⟩ fun done x rest s hsplit hP => ?_
  · obtain ⟨⟨counts', t'⟩, hrun, hdist, hlen⟩ := hloop
    have hout := hdist.outside
    exact ⟨counts', t', hrun, hout, hlen, hdist.finish hkey (by rw [hout.length]; exact hfit)⟩
  · rw [bucket, List.filter_nil, List.length_nil, Nat.add_zero]
    exact hcounts b hb
  · rw [bucket, List.filter_nil, List.length_nil] at hi
    exact absurd hi (Nat.not_lt_zero i)
  · obtain ⟨counts', t'⟩ := s
    dsimp only at hP ⊢
    obtain ⟨hdist, hlen⟩ := hP
    have hmem : x ∈ xs := by simp [hsplit]
    have hlt := hkey x hmem
    have ht := hdist.outside.length
    have hroom := hdist.room
    have hplace := @Distributing.place_lt _ key _ _ _ _ hsplit
    obtain ⟨hcounter, hcount⟩ := List.getElem?_eq_some_iff.1 (hdist.next _ hlt)
    rw [place, hindex x hmem, read_eq rfl hcounter, ok_bind, hcount, write_eq rfl (by omega), ok_bind, write_eq rfl hcounter, ok_bind]
    exact ⟨_, rfl, hdist.push hsplit hlt (by omega), by rw [List.length_set, hlen]⟩

end Joolia.Sort

namespace Joolia.Sort

open Fallible Sorting Segment

variable {α : Type}

section Algorithms

variable (lt : α → α → Bool)

def issortedLoop (v : List α) : List ℤ → Except SortError Bool
  | [] => .ok true
  | i :: is => do
      let x ← read v i
      let y ← read v (i - 1)
      if lt x y then .ok false else issortedLoop v is

-- `_issorted(v, lo, hi, o)`
def issorted (v : List α) (lo hi : ℤ) : Except SortError Bool :=
  if lo ≤ hi ∧ ¬(0 ≤ lo ∧ hi < v.length) then .error .Outside else issortedLoop lt v (positions (lo + 1) hi)

-- `_sort!(v, a::Small{N}, o, kw)`
def small (N : ℤ) (big : List α → ℤ → ℤ → Except SortError (List α)) (v : List α) (lo hi : ℤ) : Except SortError (List α) :=
  if hi - lo < N then insertionSort lt v lo hi else big v lo hi

-- `_sort!(v, a::StableCheckSorted, o, kw)`
def stableCheckSorted (next : List α → ℤ → ℤ → Except SortError (List α)) (v : List α) (lo hi : ℤ) : Except SortError (List α) := do
  if ← issorted lt v lo hi then .ok v
  else if ← issorted (fun x y => !lt x y) v lo hi then reverse v lo hi
  else next v lo hi

-- `ScratchQuickSort(alo, ahi)` with a scratch vector of its own, whose elements are not initialized
def freshQuickSort (hash : ℤ → ℤ) (undef : ℕ → α) (alo ahi : Option ℤ) (v : List α) (lo hi : ℤ) : Except SortError (List α) := do
  let (v, _) ← scratchQuickSort lt hash alo ahi (0 - lo) ((hi - lo + 1).toNat + 1) v ((List.range (hi - lo + 1).toNat).map undef) lo hi
    false false
  .ok v

-- `_DEFAULT_ALGORITHMS_FOR_VECTORS` for elements that have no order preserving map to unsigned integers
def defaultSort (hash : ℤ → ℤ) (undef : ℕ → α) : List α → ℤ → ℤ → Except SortError (List α) :=
  small lt 10 (stableCheckSorted lt (freshQuickSort lt hash undef none none))

end Algorithms

variable {lt : α → α → Bool} {v : List α} {lo n : ℕ}

section Checks

theorem issortedLoop_spec (is : List ℤ) (h : ∀ i ∈ is, ∃ k : ℕ, i = k + 1 ∧ k + 1 < v.length) :
    ∃ b, issortedLoop lt v is = .ok b ∧
      (b = true ↔ ∀ (k : ℕ) x y, (k : ℤ) + 1 ∈ is → v[k]? = some x → v[k + 1]? = some y → lt y x = false) := by
  induction is with
  | nil => exact ⟨true, rfl, by simp⟩
  | cons i is ih =>
      obtain ⟨k, rfl, hk⟩ := h i List.mem_cons_self
      obtain ⟨b, hrun, hb⟩ := ih fun j hj => h j (List.mem_cons_of_mem _ hj)
      rw [issortedLoop, read_eq (n := k + 1) (by omega) hk, ok_bind, read_eq (n := k) (by omega) (by omega), ok_bind]
      by_cases hlt : lt v[k + 1] v[k] = true
      · refine ⟨false, if_pos hlt, iff_of_false Bool.false_ne_true fun hall => ?_⟩
        have hnot := hall k v[k] v[k + 1] List.mem_cons_self (List.getElem?_eq_getElem _) (List.getElem?_eq_getElem _)
        rw [hlt] at hnot
        exact Bool.false_ne_true hnot.symm
      · refine ⟨b, by rw [if_neg hlt, hrun], hb.trans ⟨fun hall j x y hj hx hy => ?_, fun hall j x y hj => ?_⟩⟩
        · rcases List.mem_cons.1 hj with hjk | hj
          · obtain rfl : j = k := by omega
            rw [List.getElem?_eq_getElem (by omega), Option.some.injEq] at hx hy
            rw [← hx, ← hy]
            exact Bool.eq_false_iff.2 hlt
          · exact hall j x y hj hx hy
        · exact hall j x y (List.mem_cons_of_mem _ hj)

theorem issorted_spec (hn : 0 < n) (hfit : lo + n ≤ v.length) :
    ∃ b, issorted lt v lo (lo + n - 1) = .ok b ∧ (b = true ↔ (seg v lo n).IsChain fun x y => lt y x = false) := by
  have hlen := length_seg hfit
  have hpositions : ∀ i : ℤ, i ∈ positions (lo + 1) (lo + n - 1) ↔ ∃ k : ℕ, i = lo + k + 1 ∧ k + 1 < n := fun i => by
    rw [positions, List.mem_map]
    refine ⟨?_, ?_⟩
    · rintro ⟨k, hk, rfl⟩
      rw [List.mem_range] at hk
      exact ⟨k, by omega, by omega⟩
    · rintro ⟨k, rfl, hk⟩
      exact ⟨k, List.mem_range.2 (by omega), by omega⟩
  obtain ⟨b, hrun, hb⟩ := @issortedLoop_spec _ lt v (positions (lo + 1) (lo + n - 1)) fun i hi => by
    obtain ⟨k, rfl, hk⟩ := (hpositions i).1 hi
    exact ⟨lo + k, by omega, by omega⟩
  refine ⟨b, by rw [issorted, if_neg (by omega), hrun], hb.trans ?_⟩
  rw [List.isChain_iff_getElem]
  constructor
  · intro hall i hi
    rw [hlen] at hi
    refine hall (lo + i) _ _ ((hpositions _).2 ⟨i, by omega, hi⟩) ?_ ?_
    · rw [← getElem?_seg (by omega : i < n), List.getElem?_eq_getElem]
    · rw [Nat.add_assoc, ← getElem?_seg hi, List.getElem?_eq_getElem]
  · intro hall k x y hk hx hy
    obtain ⟨i, hi, hin⟩ := (hpositions _).1 hk
    obtain rfl : k = lo + i := by omega
    have hstep := hall i (by omega)
    rw [← getElem?_seg (by omega : i < n), List.getElem?_eq_getElem (by omega), Option.some.injEq] at hx
    rw [Nat.add_assoc, ← getElem?_seg hin, List.getElem?_eq_getElem (by omega), Option.some.injEq] at hy
    rwa [hx, hy] at hstep

-- Comparing neighbours is enough.
theorem sorted_of_isChain (hlt : StrictWeak lt) (h : v.IsChain fun x y => lt y x = false) : Sorted lt v := by
  have : Trans (fun x y => lt y x = false) (fun x y => lt y x = false) (fun x y : α => lt y x = false) :=
    ⟨fun hxy hyz => hlt.not_lt_trans hxy hyz⟩
  exact h.pairwise

theorem stableCheckSorted_spec (hlt : StrictWeak lt) {next : List α → ℤ → ℤ → Except SortError (List α)} (hn : 0 < n)
    (hfit : lo + n ≤ v.length)
    (hnext : ∃ w, next v lo (lo + n - 1) = .ok w ∧ Rearranged lo n v w ∧ Sorted lt (seg w lo n)) :
    ∃ w, stableCheckSorted lt next v lo (lo + n - 1) = .ok w ∧ Rearranged lo n v w ∧ Sorted lt (seg w lo n) := by
  obtain ⟨b, hrun, hb⟩ := @issorted_spec _ lt _ _ _ hn hfit
  obtain ⟨b', hrun', hb'⟩ := @issorted_spec _ (fun x y => !lt x y) _ _ _ hn hfit
  rw [stableCheckSorted, hrun, ok_bind, hrun']
  cases b with
  | true => exact ⟨v, rfl, .refl _ _ _, sorted_of_isChain hlt (hb.1 rfl)⟩
  | false =>
      cases b' with
      | true =>
          -- every element comes before the one in front of it
          obtain ⟨w, hw, hout, hseg⟩ := reverse_spec hfit
          refine ⟨w, hw, ⟨hout, hseg ▸ List.reverse_perm _⟩, ?_⟩
          rw [hseg]
          refine sorted_of_isChain hlt (List.isChain_reverse.2 ((hb'.1 rfl).imp fun x y hxy => ?_))
          rw [Bool.not_eq_false'] at hxy
          exact hlt.asymm hxy
      | false => exact hnext

end Checks

theorem freshQuickSort_spec (hlt : StrictWeak lt) (hash : ℤ → ℤ) (undef : ℕ → α) {alo ahi : Option ℤ} {T : ℤ → Prop}
    (hbounds : Bounds T alo ahi) (hfit : lo + n ≤ v.length) :
    ∃ w, freshQuickSort lt hash undef alo ahi v lo (lo + n - 1) = .ok w ∧ SameOutside lo n v w ∧
      Placed lt T (seg v lo n) lo (seg w lo n) := by
  have hn : ((lo : ℤ) + n - 1 - lo + 1).toNat = n := by omega
  obtain ⟨w, t, hrun, hsettles⟩ := @scratchQuickSort_spec _ _ _ v ((List.range n).map undef) _ 0 _ _ hlt hash _ _ hbounds (n + 1)
      (Nat.lt_succ_self n) (rfl : (0 : ℤ) - lo = (0 : ℕ) - lo) hfit (by simp) false false
  refine ⟨w, ?_, hsettles.outV, hsettles.placed⟩
  rw [freshQuickSort, hn, hrun, ok_bind]

-- With every position a target, the elements get sorted.
theorem Placed.sorted (hlt : StrictWeak lt) {D w : List α} (h : Placed lt (fun _ => True) D lo w) : Sorted lt w :=
  sorted_of_ranked hlt fun i hi => (h.ranked i _ (List.getElem?_eq_getElem hi) trivial).perm h.perm.symm

theorem defaultSort_spec (hlt : StrictWeak lt) (hash : ℤ → ℤ) (undef : ℕ → α) (hfit : lo + n ≤ v.length) :
    ∃ w, defaultSort lt hash undef v lo (lo + n - 1) = .ok w ∧ Rearranged lo n v w ∧ Sorted lt (seg w lo n) := by
  rw [defaultSort, small]
  by_cases hsmall : (lo : ℤ) + n - 1 - lo < 10
  · rw [if_pos hsmall]
    exact insertionSort_spec hlt hfit
  · rw [if_neg hsmall]
    refine stableCheckSorted_spec hlt (by omega) hfit ?_
    obtain ⟨w, hrun, hout, hplaced⟩ := @freshQuickSort_spec _ _ _ _ _ hlt hash undef none none (fun _ => True) ⟨by simp, by simp⟩ hfit
    exact ⟨w, hrun, ⟨hout, hplaced.perm⟩, hplaced.sorted hlt⟩

end Joolia.Sort
