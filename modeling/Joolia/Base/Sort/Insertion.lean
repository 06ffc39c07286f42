import Joolia.Base.Sort

namespace Joolia.Sort

open Fallible Sorting Segment

variable {α : Type} {lt : α → α → Bool}

section Accesses

variable {v w : List α} {i : ℤ} {n : ℕ} {x : α}

theorem read_eq_of_getElem? (hi : i = n) (h : v[n]? = some x) : read v i = .ok x := by
  obtain ⟨hn, rfl⟩ := List.getElem?_eq_some_iff.1 h
  exact read_eq hi hn

end Accesses

section Insert

variable {v v₀ S : List α} {x : α} {lo k p : ℕ}

-- Before the hole at `lo + p` and after it stand the elements of `S`, and the others come after `x`.
structure Opened (lt : α → α → Bool) (x : α) (lo : ℕ) (S v₀ : List α) (p : ℕ) (v : List α) : Prop where
  le : p ≤ S.length
  outside : SameOutside lo (S.length + 1) v₀ v
  before : ∀ i < p, v[lo + i]? = S[i]?
  after : ∀ i, p ≤ i → i < S.length → v[lo + i + 1]? = S[i]?
  greater : ∀ y ∈ S.drop p, lt x y = true

-- The loop stops where `x` belongs.
theorem insertionInner_spec (fuel : ℕ) (hfuel : p < fuel) (h : Opened lt x lo S v₀ p v) (hfit : lo + S.length < v.length) :
    ∃ v' q, insertionInner lt x lo fuel v (lo + p : ℕ) = .ok (v', ((lo + q : ℕ) : ℤ)) ∧ Opened lt x lo S v₀ q v' ∧
      ∀ y ∈ (S.take q).getLast?, lt x y = false := by
  induction fuel generalizing p v with
  | zero => omega
  | succ fuel ih =>
      rw [insertionInner]
      cases p with
      | zero =>
          rw [if_neg (by omega)]
          exact ⟨v, 0, rfl, h, by simp⟩
      | succ p =>
          have hp := h.le
          have hprev : v[lo + p]? = some S[p] := by rw [h.before p (Nat.lt_succ_self p), List.getElem?_eq_getElem (by omega)]
          rw [if_pos (by omega), read_eq_of_getElem? (n := lo + p) (by omega) hprev, ok_bind]
          by_cases hlt : lt x S[p] = true
          · rw [hlt, if_neg (by simp), write_eq (n := lo + (p + 1)) rfl (by omega), ok_bind]
            have hshift : (((lo + (p + 1) : ℕ) : ℤ) - 1) = ((lo + p : ℕ) : ℤ) := by omega
            rw [hshift]
            refine ih (by omega) ⟨by omega, ?_, ?_, ?_, ?_⟩ (by rw [List.length_set]; exact hfit)
            · exact h.outside.trans (.set (by omega) (by omega) _)
            · intro i hi
              rw [List.getElem?_set_ne (by omega), h.before i (by omega)]
            · intro i hpi hi
              rcases Nat.eq_or_lt_of_le hpi with rfl | hlt'
              · rw [Nat.add_assoc, List.getElem?_set_self (by omega), List.getElem?_eq_getElem (by omega)]
              · rw [List.getElem?_set_ne (by omega), h.after i hlt' hi]
            · intro y hy
              rw [List.drop_eq_getElem_cons (by omega), List.mem_cons] at hy
              rcases hy with rfl | hy
              · exact hlt
              · exact h.greater y hy
          · rw [Bool.eq_false_iff.2 hlt, if_pos (by rfl)]
            refine ⟨v, p + 1, rfl, h, ?_⟩
            intro y hy
            rw [List.take_succ_eq_append_getElem (by omega), List.getLast?_concat, Option.mem_some_iff] at hy
            rw [← hy]
            exact Bool.eq_false_iff.2 hlt

-- Filling the hole.
theorem Opened.fill (h : Opened lt x lo S v₀ p v) (hfit : lo + S.length < v.length) :
    seg (v.set (lo + p) x) lo (S.length + 1) = S.take p ++ x :: S.drop p := by
  have hp := h.le
  refine List.ext_getElem? fun i => ?_
  by_cases hi : i < S.length + 1
  · rw [getElem?_seg hi]
    rcases Nat.lt_trichotomy i p with hlt | rfl | hgt
    · rw [List.getElem?_set_ne (by omega), h.before i hlt, List.getElem?_append_left (by rw [List.length_take]; omega),
        List.getElem?_take_of_lt hlt]
    · rw [List.getElem?_set_self (by omega), List.getElem?_append_right (by rw [List.length_take]; omega), List.length_take,
        Nat.min_eq_left hp, Nat.sub_self, List.getElem?_cons_zero]
    · obtain ⟨j, rfl⟩ : ∃ j, i = p + (j + 1) := ⟨i - p - 1, by omega⟩
      rw [List.getElem?_set_ne (by omega), show lo + (p + (j + 1)) = lo + (p + j) + 1 by omega, h.after (p + j) (by omega) (by omega),
        List.getElem?_append_right (by rw [List.length_take]; omega), List.length_take, Nat.min_eq_left hp,
        show p + (j + 1) - p = j + 1 by omega, List.getElem?_cons_succ, List.getElem?_drop]
  · rw [List.getElem?_eq_none (by rw [length_seg (by rw [List.length_set]; omega)]; omega),
      List.getElem?_eq_none (by simp; omega)]

-- Inserting keeps a list sorted.
theorem sorted_insert (hlt : StrictWeak lt) (hS : Sorted lt S) (hgreater : ∀ y ∈ S.drop p, lt x y = true)
    (hlast : ∀ y ∈ (S.take p).getLast?, lt x y = false) : Sorted lt (S.take p ++ x :: S.drop p) := by
  have hsplit : Sorted lt (S.take p ++ S.drop p) := by rwa [List.take_append_drop]
  rw [Sorted, List.pairwise_append] at hsplit
  obtain ⟨htake, hdrop, hcross⟩ := hsplit
  have hbefore : ∀ y ∈ S.take p, lt x y = false := by
    intro y hy
    obtain ⟨z, hz⟩ : ∃ z, (S.take p).getLast? = some z :=
      Option.isSome_iff_exists.1 (by rw [List.getLast?_isSome]; exact List.ne_nil_of_mem hy)
    obtain ⟨T, hT⟩ := List.getLast?_eq_some_iff.1 hz
    rw [hT, List.mem_append, List.mem_singleton] at hy
    rcases hy with hy | rfl
    · rw [hT, List.pairwise_append] at htake
      exact hlt.not_lt_trans (htake.2.2 y hy z (List.mem_singleton_self z)) (hlast z hz)
    · exact hlast y hz
  rw [Sorted, List.pairwise_append, List.pairwise_cons]
  refine ⟨htake, ⟨fun y hy => hlt.asymm (hgreater y hy), hdrop⟩, fun a ha b hb => ?_⟩
  rcases List.mem_cons.1 hb with rfl | hb
  · exact hbefore a ha
  · exact hcross a ha b hb

-- One pass of the outer loop.
theorem insertionPass_spec (hlt : StrictWeak lt) (hfit : lo + k < v.length) (hsorted : Sorted lt (seg v lo k)) :
    ∃ w, insertionPass lt lo v (lo + k : ℕ) = .ok w ∧ Rearranged lo (k + 1) v w ∧ Sorted lt (seg w lo (k + 1)) := by
  have hlen : (seg v lo k).length = k := length_seg (by omega)
  have hopen : Opened lt v[lo + k] lo (seg v lo k) v k v := by
    refine ⟨by omega, .refl _ _ _, fun i hi => (getElem?_seg hi).symm, fun i hi hi' => by omega, fun y hy => ?_⟩
    rw [List.drop_eq_nil_of_le (by omega)] at hy
    exact absurd hy List.not_mem_nil
  obtain ⟨v', q, hinner, hopen', hlast⟩ := insertionInner_spec (k + 1) (Nat.lt_succ_self k) hopen (by omega)
  have hlen' := hopen'.outside.length
  have hq := hopen'.le
  have hfill := hopen'.fill (by omega)
  rw [hlen] at hfill
  refine ⟨v'.set (lo + q) v[lo + k], ?_, ⟨?_, ?_⟩, ?_⟩
  · rw [insertionPass, read_eq rfl hfit, ok_bind, show (((lo + k : ℕ) : ℤ) - lo).toNat + 1 = k + 1 by omega, hinner, ok_bind]
    exact write_eq rfl (by omega) _
  · have houtside := hopen'.outside
    rw [hlen] at houtside
    exact houtside.trans (.set (by omega) (by omega) _)
  · rw [hfill, seg_succ hfit]
    refine List.perm_middle.trans ?_
    rw [List.take_append_drop]
    exact (List.perm_append_singleton _ _).symm
  · rw [hfill]
    exact sorted_insert hlt hsorted hopen'.greater hlast

end Insert

theorem positions_eq (lo : ℤ) (n : ℕ) : positions lo (lo + n - 1) = (List.range' 0 (n - 0)).map fun (k : ℕ) => lo + k := by
  rw [positions, show (lo + n - 1 + 1 - lo).toNat = n by omega, List.range_eq_range', Nat.sub_zero]

theorem insertionSort_spec {v : List α} {lo n : ℕ} (hlt : StrictWeak lt) (hfit : lo + n ≤ v.length) :
    ∃ w, insertionSort lt v lo (lo + n - 1) = .ok w ∧ Rearranged lo n v w ∧ Sorted lt (seg w lo n) := by
  cases n with
  | zero =>
      refine ⟨v, ?_, .refl lo 0 v, by rw [seg_zero]; exact List.Pairwise.nil⟩
      rw [insertionSort, positions, show ((lo : ℤ) + (0 : ℕ) - 1 + 1 - (lo + 1)).toNat = 0 by omega]
      rfl
  | succ n =>
      rw [insertionSort, show ((lo : ℤ) + (n + 1 : ℕ) - 1) = lo + 1 + n - 1 by omega, positions_eq, List.foldlM_map]
      refine foldlM_up (fun k w => Rearranged lo (n + 1) v w ∧ Sorted lt (seg w lo (k + 1))) (Nat.zero_le n) ⟨.refl _ _ _, ?_⟩
        fun k w _ hk hP => ?_
      · rw [Nat.zero_add, seg_one (by omega)]
        exact List.pairwise_singleton _ _
      · obtain ⟨hre, hsorted⟩ := hP
        have hlen := hre.length
        obtain ⟨w', hpass, hre', hsorted'⟩ := insertionPass_spec hlt (by omega : lo + (k + 1) < w.length) hsorted
        refine ⟨w', ?_, hre.trans (hre'.widen (Nat.le_refl _) (by omega)), hsorted'⟩
        rw [show (lo : ℤ) + 1 + k = ((lo + (k + 1) : ℕ) : ℤ) by omega, hpass]

end Joolia.Sort

namespace Joolia.Sort

open Fallible Sorting Segment

variable {α : Type} {v w t : List α} {lo n k : ℕ}

-- Exchanging two elements.
theorem swap_spec {i j : ℕ} (hi : i < v.length) (hj : j < v.length) :
    ∃ w, swap v i j = .ok w ∧ w.Perm v ∧ ∀ p, w[p]? = v[if p = i then j else if p = j then i else p]? := by
  refine ⟨(v.set i v[j]).set j v[i], ?_, List.set_set_perm hi hj, fun p => ?_⟩
  · rw [swap, read_eq rfl hi, ok_bind, read_eq rfl hj, ok_bind, write_eq rfl hi, ok_bind, write_eq rfl (by simpa using hj)]
  · by_cases hpj : p = j
    · subst hpj
      rw [List.getElem?_set_self (by simpa using hj), if_pos rfl]
      by_cases hpi : p = i
      · subst hpi
        rw [if_pos rfl, List.getElem?_eq_getElem hi]
      · rw [if_neg hpi, List.getElem?_eq_getElem hi]
    · rw [List.getElem?_set_ne (Ne.symm hpj)]
      by_cases hpi : p = i
      · subst hpi
        rw [List.getElem?_set_self hi, if_pos rfl, List.getElem?_eq_getElem hj]
      · rw [List.getElem?_set_ne (Ne.symm hpi), if_neg hpi, if_neg hpj]

theorem swap_rearranged {i j : ℕ} (hi : lo ≤ i ∧ i < lo + n) (hj : lo ≤ j ∧ j < lo + n) (hfit : lo + n ≤ v.length) :
    ∃ w, swap v i j = .ok w ∧ Rearranged lo n v w ∧ ∀ p, w[p]? = v[if p = i then j else if p = j then i else p]? := by
  obtain ⟨w, hw, hperm, hget⟩ := swap_spec (v := v) (by omega : i < v.length) (by omega : j < v.length)
  refine ⟨w, hw, .of_perm ⟨hperm.length_eq, fun p hp => ?_⟩ hfit hperm, hget⟩
  rw [hget, if_neg (by omega), if_neg (by omega)]

-- The position opposite to `p`
def mirror (lo n k p : ℕ) : ℕ := if lo ≤ p ∧ p < lo + k ∨ lo + n - k ≤ p ∧ p < lo + n then 2 * lo + n - 1 - p else p

theorem reverse_spec (hfit : lo + n ≤ v.length) :
    ∃ w, reverse v lo (lo + n - 1) = .ok w ∧ SameOutside lo n v w ∧ seg w lo n = (seg v lo n).reverse := by
  have hloop : ∃ w, reverse v lo (lo + n - 1) = .ok w ∧ w.length = v.length ∧ ∀ p, w[p]? = v[mirror lo n (n / 2) p]? := by
    rw [reverse]
    by_cases hn : (lo : ℤ) < lo + n - 1
    · rw [if_pos hn, if_pos (by omega), show ((lo : ℤ) + n - 1 - lo + 1) / 2 = ((n / 2 : ℕ) : ℤ) by omega, Int.toNat_natCast,
        List.range_eq_range', ← Nat.sub_zero (n / 2)]
      refine foldlM_up (fun k (w : List α) => w.length = v.length ∧ ∀ p, w[p]? = v[mirror lo n k p]?) (Nat.zero_le _) ⟨rfl, fun p => ?_⟩
        fun k w _ hk hP => ?_
      · rw [mirror, if_neg (by omega)]
      · obtain ⟨hlen, hget⟩ := hP
        obtain ⟨w', hw', hperm, hget'⟩ := swap_spec (v := w) (by omega : lo + k < w.length) (by omega : lo + n - 1 - k < w.length)
        refine ⟨w', ?_, hperm.length_eq.trans hlen, fun p => ?_⟩
        · rw [← hw']
          congr 1
          omega
        · rw [hget', hget]
          congr 1
          unfold mirror
          split_ifs <;> omega
    · rw [if_neg hn]
      refine ⟨v, rfl, rfl, fun p => ?_⟩
      rw [mirror, if_neg (by omega)]
  obtain ⟨w, hw, hlen, hget⟩ := hloop
  refine ⟨w, hw, ⟨hlen, fun p hp => ?_⟩, ?_⟩
  · rw [hget, mirror, if_neg (by omega)]
  · refine List.ext_getElem? fun i => ?_
    by_cases hi : i < n
    · rw [getElem?_seg hi, hget, List.getElem?_reverse (by rw [length_seg hfit]; exact hi), length_seg hfit,
        getElem?_seg (by omega)]
      congr 1
      unfold mirror
      split_ifs <;> omega
    · rw [List.getElem?_eq_none (by rw [length_seg (by omega)]; omega),
        List.getElem?_eq_none (by rw [List.length_reverse, length_seg hfit]; omega)]

theorem copyto_spec {s : ℕ} (hfit : lo + n ≤ v.length) (hfit' : s + n ≤ t.length) :
    ∃ w, copyto v lo t s n = .ok w ∧ SameOutside lo n v w ∧ seg w lo n = seg t s n := by
  rw [copyto]
  by_cases hn : (n : ℤ) = 0
  · obtain rfl : n = 0 := by omega
    exact ⟨v, if_pos hn, .refl _ _ _, by rw [seg_zero, seg_zero]⟩
  · have hlen : (v.take lo).length = lo := by rw [List.length_take]; omega
    have hseg := length_seg hfit'
    rw [if_neg hn, if_pos (by omega), Int.toNat_natCast, Int.toNat_natCast, Int.toNat_natCast,
      show ((lo : ℤ) + n).toNat = lo + n by omega]
    refine ⟨_, rfl, ⟨by simp [hseg]; omega, fun i hi => ?_⟩, ?_⟩
    · rcases hi with hi | hi
      · rw [List.append_assoc, List.getElem?_append_left (by omega), List.getElem?_take_of_lt hi]
      · rw [List.getElem?_append_right (by rw [List.length_append]; omega), List.length_append, hlen, hseg, List.getElem?_drop,
          Nat.add_sub_cancel' hi]
    · rw [seg, List.append_assoc, List.drop_append_of_le_length (by omega), List.drop_of_length_le (by omega), List.nil_append,
        List.take_append_of_le_length (by omega), List.take_of_length_le (by omega)]

end Joolia.Sort
