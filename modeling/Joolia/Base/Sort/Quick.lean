import Joolia.Base.Sort.Partition

namespace Joolia.Sort

open Fallible Sorting Segment

variable {α : Type} {lt : α → α → Bool}

section Placing

variable {T : ℤ → Prop} {D L R w w1 w2 : List α} {pivot : α} {lo : ℕ}

-- The targets among the positions `lo, lo + 1, …` have their elements.
structure Placed (lt : α → α → Bool) (T : ℤ → Prop) (D : List α) (lo : ℕ) (w : List α) : Prop where
  perm : w.Perm D
  ranked : ∀ (i : ℕ) x, w[i]? = some x → T (lo + i : ℕ) → Ranked lt D i x

theorem Placed.congr (h : Placed lt T L lo w) (hperm : L.Perm R) : Placed lt T R lo w :=
  ⟨h.perm.trans hperm, fun i x hx hT => (h.ranked i x hx hT).perm hperm⟩

theorem placed_of_sorted (hlt : StrictWeak lt) (h : Sorted lt w) : Placed lt T w lo w := by
  refine ⟨.refl _, fun i x hx _ => ?_⟩
  obtain ⟨hi, rfl⟩ := List.getElem?_eq_some_iff.1 hx
  exact h.ranked hlt hi

-- A part without targets
theorem placed_of_none (hperm : w.Perm D) (hnone : ∀ i < D.length, ¬T (lo + i : ℕ)) : Placed lt T D lo w := by
  refine ⟨hperm, fun i x hx hT => absurd hT (hnone i ?_)⟩
  obtain ⟨hi, rfl⟩ := List.getElem?_eq_some_iff.1 hx
  rwa [← hperm.length_eq]

-- Two parts with the pivot between them.
theorem Placed.join (hlt : StrictWeak lt) (hlower : ∀ a ∈ L, lt pivot a = false) (hupper : ∀ b ∈ R, lt b pivot = false)
    (h1 : Placed lt T L lo w1) (h2 : Placed lt T R (lo + L.length + 1) w2) :
    Placed lt T (L ++ pivot :: R) lo (w1 ++ pivot :: w2) := by
  refine ⟨h1.perm.append (h2.perm.cons _), fun i x hx hT => ?_⟩
  have hlen := h1.perm.length_eq
  rcases Nat.lt_trichotomy i L.length with hi | rfl | hi
  · rw [List.getElem?_append_left (by omega)] at hx
    have hxL : x ∈ L := h1.perm.mem_iff.1 (List.mem_of_getElem? hx)
    refine (h1.ranked i x hx hT).append fun c hc => ?_
    rcases List.mem_cons.1 hc with rfl | hc
    · exact hlower x hxL
    · exact hlt.not_lt_trans (hlower x hxL) (hupper c hc)
  · rw [List.getElem?_append_right (by omega), hlen, Nat.sub_self, List.getElem?_cons_zero, Option.some.injEq] at hx
    subst hx
    have hfirst : Ranked lt (pivot :: R) 0 pivot := by
      refine ⟨?_, List.countP_pos_iff.2 ⟨pivot, List.mem_cons_self, by simp [hlt.irrefl]⟩⟩
      rw [Nat.le_zero, List.countP_eq_zero]
      intro b hb
      rcases List.mem_cons.1 hb with rfl | hb
      · simp [hlt.irrefl]
      · simp [hupper b hb]
    exact hfirst.prepend hlower
  · obtain ⟨k, rfl⟩ : ∃ k, i = L.length + (k + 1) := ⟨i - L.length - 1, by omega⟩
    rw [List.getElem?_append_right (by omega), hlen, Nat.add_sub_cancel_left, List.getElem?_cons_succ] at hx
    have hxR : x ∈ R := h2.perm.mem_iff.1 (List.mem_of_getElem? hx)
    have hk := h2.ranked k x hx (by convert hT using 2; omega)
    have hrank := hk.prepend (C := L ++ [pivot]) fun c hc => by
      rcases List.mem_append.1 hc with hc | hc
      · exact hlt.not_lt_trans (hlower c hc) (hupper x hxR)
      · rw [List.mem_singleton.1 hc]
        exact hupper x hxR
    rw [List.append_assoc, List.singleton_append, List.length_append, List.length_singleton] at hrank
    rwa [show L.length + (k + 1) = L.length + 1 + k by omega]

end Placing

section Settling

variable {T : ℤ → Prop} {D v t w v' t' v1 t1 v2 t2 v3 t3 L R : List α} {pivot : α} {lo tlo n : ℕ} {offset : ℤ}

-- A part of `v` is done; nothing but this part, and its copy in `t`, has changed.
structure Settles (lt : α → α → Bool) (T : ℤ → Prop) (lo tlo n : ℕ) (D v t v' t' : List α) : Prop where
  outV : SameOutside lo n v v'
  outT : SameOutside tlo n t t'
  placed : Placed lt T D lo (seg v' lo n)

-- The live elements of another part stay.
theorem live_eq {lo' tlo' n' : ℕ} (swapped : Bool) (hV : SameOutside lo n v v') (hT : SameOutside tlo n t t')
    (hdisjoint : lo' + n' ≤ lo ∧ tlo' + n' ≤ tlo ∨ lo + n ≤ lo' ∧ tlo + n ≤ tlo') :
    live swapped v' t' lo' tlo' n' = live swapped v t lo' tlo' n' := by
  cases swapped with
  | true => exact hT.seg_eq (by omega)
  | false => exact hV.seg_eq (by omega)

-- Both parts are done.
theorem Split.settles {swapped : Bool} (hlt : StrictWeak lt) (h : Split lt D lo tlo n v t v1 t1 swapped L pivot R)
    (houtV : SameOutside lo n v1 v') (houtT : SameOutside tlo n t1 t')
    (hpivot : v'[lo + L.length]? = v1[lo + L.length]?) (hlower : Placed lt T L lo (seg v' lo L.length))
    (hupper : Placed lt T R.reverse (lo + L.length + 1) (seg v' (lo + L.length + 1) R.length)) :
    Settles lt T lo tlo n D v t v' t' := by
  have hlen := h.length
  rw [h.pivot, List.getElem?_eq_some_iff] at hpivot
  obtain ⟨hin, hget⟩ := hpivot
  have hseg : seg v' lo n = seg v' lo L.length ++ pivot :: seg v' (lo + L.length + 1) R.length := by
    rw [show n = L.length + (R.length + 1) by omega, seg_add, seg_cons hin, hget]
  refine ⟨h.outV.trans houtV, h.outT.trans houtT, ?_⟩
  rw [hseg]
  have hjoin := Placed.join hlt h.lower h.upper hlower (hupper.congr (List.reverse_perm R))
  exact hjoin.congr h.perm

theorem Split.lower_upper {swapped : Bool} (hlt : StrictWeak lt) (h : Split lt D lo tlo n v t v1 t1 swapped L pivot R)
    (h1 : Settles lt T lo tlo L.length L v1 t1 v2 t2)
    (h2 : Settles lt T (lo + L.length + 1) (tlo + L.length + 1) R.length R.reverse v2 t2 v3 t3) :
    Settles lt T lo tlo n D v t v3 t3 := by
  have hlen := h.length
  refine h.settles hlt ((h1.outV.widen (Nat.le_refl _) (by omega)).trans (h2.outV.widen (by omega) (by omega)))
    ((h1.outT.widen (Nat.le_refl _) (by omega)).trans (h2.outT.widen (by omega) (by omega))) ?_ ?_ h2.placed
  · rw [h2.outV.get _ (by omega), h1.outV.get _ (by omega)]
  · rw [h2.outV.seg_eq (by omega)]
    exact h1.placed

theorem Split.upper_lower {swapped : Bool} (hlt : StrictWeak lt) (h : Split lt D lo tlo n v t v1 t1 swapped L pivot R)
    (h2 : Settles lt T (lo + L.length + 1) (tlo + L.length + 1) R.length R.reverse v1 t1 v2 t2)
    (h1 : Settles lt T lo tlo L.length L v2 t2 v3 t3) : Settles lt T lo tlo n D v t v3 t3 := by
  have hlen := h.length
  refine h.settles hlt ((h2.outV.widen (by omega) (by omega)).trans (h1.outV.widen (Nat.le_refl _) (by omega)))
    ((h2.outT.widen (by omega) (by omega)).trans (h1.outT.widen (Nat.le_refl _) (by omega))) ?_ h1.placed ?_
  · rw [h1.outV.get _ (by omega), h2.outV.get _ (by omega)]
  · rw [h1.outV.seg_eq (by omega)]
    exact h2.placed

-- `v` gets its part back from `t`,
theorem fetch_spec (hoffset : offset = tlo - lo) (hv : lo + n ≤ v.length) (ht : tlo + n ≤ t.length) (swapped : Bool) :
    ∃ w, fetch swapped v t lo offset n = .ok w ∧ SameOutside lo n v w ∧
      seg w lo n = live swapped v t lo tlo n := by
  cases swapped with
  | true =>
      rw [fetch, if_pos rfl, show (lo : ℤ) + offset = tlo by omega]
      exact copyto_spec hv ht
  | false => exact ⟨v, if_neg Bool.false_ne_true, .refl _ _ _, rfl⟩

-- and in the direction it had.
theorem turn_spec (hv : lo + n ≤ v.length) (rev : Bool) :
    ∃ w, turn rev v lo (lo + n - 1) = .ok w ∧ SameOutside lo n v w ∧ (seg w lo n).Perm (seg v lo n) := by
  cases rev with
  | true =>
      obtain ⟨w, hw, hout, hseg⟩ := reverse_spec hv
      exact ⟨w, hw, hout, hseg ▸ List.reverse_perm _⟩
  | false => exact ⟨v, if_neg Bool.false_ne_true, .refl _ _ _, .refl _⟩

-- A part without targets is only brought back, and one element is in its place.
theorem skip_spec (hlt : StrictWeak lt) (hoffset : offset = tlo - lo) (hv : lo + n ≤ v.length) (ht : tlo + n ≤ t.length)
    (hnone : n ≤ 1 ∨ ∀ i < n, ¬T (lo + i : ℕ)) (swapped rev : Bool) :
    ∃ w w', fetch swapped v t lo offset n = .ok w ∧
      turn rev w lo (lo + n - 1) = .ok w' ∧
      Settles lt T lo tlo n (live swapped v t lo tlo n) v t w' t := by
  obtain ⟨w, hfetch, hout, hseg⟩ := fetch_spec hoffset hv ht swapped
  have hlen := hout.length
  obtain ⟨w', hturn, hout', hperm⟩ := turn_spec (by omega : lo + n ≤ w.length) rev
  have hlen' : (seg w' lo n).length = n := length_seg (by rw [hout'.length]; omega)
  rw [hseg] at hperm
  refine ⟨w, w', hfetch, hturn, hout.trans hout', .refl _ _ _, ?_⟩
  rcases hnone with hone | hnone
  · exact (placed_of_sorted hlt (sorted_of_length_le_one (by omega))).congr hperm
  · refine placed_of_none hperm fun i hi => hnone i ?_
    rwa [← hperm.length_eq, hlen'] at hi

-- Bounds of the targets; a first bound of 1 leaves at most one element below the pivot.
structure Bounds (T : ℤ → Prop) (alo ahi : Option ℤ) : Prop where
  lower : ∀ a ∈ alo, a ≤ 1 ∨ ∀ i, T i → a ≤ i
  upper : ∀ a ∈ ahi, ∀ i, T i → i ≤ a ∨ ∃ a' ∈ alo, i ≤ a'

theorem Bounds.of_skipsLower {alo ahi : Option ℤ} (h : Bounds T alo ahi) {m : ℕ} (hskip : skipsLower alo (lo + m : ℕ) = true) :
    m ≤ 1 ∨ ∀ i < m, ¬T (lo + i : ℕ) := by
  rw [skipsLower, Option.any_eq_true] at hskip
  obtain ⟨a, ha, hj⟩ := hskip
  have hja := of_decide_eq_true hj
  rcases h.lower a ha with hone | hall
  · exact .inl (by omega)
  · refine .inr fun i hi hT => ?_
    have hle := hall _ hT
    omega

theorem Bounds.of_skipsUpper {alo ahi : Option ℤ} (h : Bounds T alo ahi) {j i : ℤ} (hlower : ¬skipsLower alo j = true)
    (hskip : skipsUpper ahi j = true) (hi : j < i) : ¬T i := by
  intro hT
  rw [skipsLower, Option.any_eq_true] at hlower
  rw [skipsUpper, Option.any_eq_true] at hskip
  obtain ⟨a, ha, hj⟩ := hskip
  have hja := of_decide_eq_true hj
  rcases h.upper a ha i hT with hle | ⟨a', ha', hle⟩
  · omega
  · exact hlower ⟨a', ha', decide_eq_true (by omega)⟩

theorem scratchQuickSort_short (hlt : StrictWeak lt) (hash : ℤ → ℤ) (alo ahi : Option ℤ) (fuel : ℕ) (hoffset : offset = tlo - lo)
    (hv : lo + n ≤ v.length) (ht : tlo + n ≤ t.length) (swapped rev : Bool)
    (hshort : ¬((lo : ℤ) < lo + n - 1 ∧ (lo + n - 1 : ℤ) - lo > SMALL_THRESHOLD)) :
    ∃ v' t', scratchQuickSort lt hash alo ahi offset (fuel + 1) v t lo (lo + n - 1) swapped rev = .ok (v', t') ∧
      Settles lt T lo tlo n (live swapped v t lo tlo n) v t v' t' := by
  rw [scratchQuickSort, if_neg hshort]
  cases n with
  | zero =>
      refine ⟨v, t, if_pos (by omega), .refl _ _ _, .refl _ _ _, ?_⟩
      have hnil : live swapped v t lo tlo 0 = [] := by cases swapped <;> simp
      rw [seg_zero, hnil]
      exact placed_of_sorted hlt List.Pairwise.nil
  | succ n =>
      obtain ⟨v1, hfetch, hout1, hseg1⟩ := fetch_spec hoffset hv ht swapped
      have hV1 := hout1.length
      obtain ⟨v2, hturn, hout2, hperm2⟩ := turn_spec (by omega : lo + (n + 1) ≤ v1.length) rev
      have hV2 := hout2.length
      obtain ⟨v3, hsort, hre3, hsorted⟩ := insertionSort_spec hlt (by omega : lo + (n + 1) ≤ v2.length)
      refine ⟨v3, t, ?_, (hout1.trans hout2).trans hre3.outside, .refl _ _ _, ?_⟩
      · rw [if_neg (by omega), show (lo : ℤ) + (n + 1 : ℕ) - 1 - lo + 1 = (n + 1 : ℕ) by omega, hfetch, ok_bind, hturn, ok_bind, hsort,
          ok_bind]
      · rw [← hseg1]
        exact (placed_of_sorted hlt hsorted).congr (hre3.perm.trans hperm2)

theorem scratchQuickSort_spec (hlt : StrictWeak lt) (hash : ℤ → ℤ) {alo ahi : Option ℤ} (hbounds : Bounds T alo ahi) (fuel : ℕ)
    (hfuel : n < fuel) (hoffset : offset = tlo - lo) (hv : lo + n ≤ v.length)
    (ht : tlo + n ≤ t.length) (swapped rev : Bool) :
    ∃ v' t', scratchQuickSort lt hash alo ahi offset fuel v t lo (lo + n - 1) swapped rev = .ok (v', t') ∧
      Settles lt T lo tlo n (live swapped v t lo tlo n) v t v' t' := by
  induction fuel generalizing v t lo tlo n swapped rev with
  | zero => omega
  | succ fuel ih =>
      by_cases hlarge : (lo : ℤ) < lo + n - 1 ∧ (lo + n - 1 : ℤ) - lo > SMALL_THRESHOLD
      · obtain ⟨v1, t1, L, pivot, R, hrun, hsplit, -⟩ := partitionBoth_spec hlt hash hoffset (by omega : 0 < n) hv ht swapped rev
        have hlen := hsplit.length
        have hV := hsplit.outV.length
        have hT := hsplit.outT.length
        have hoffsetR : offset = (tlo + L.length + 1 : ℕ) - (lo + L.length + 1 : ℕ) := by omega
        have hlastL : ((lo + L.length : ℕ) : ℤ) - 1 = lo + L.length - 1 := by omega
        have hnextR : ((lo + L.length : ℕ) : ℤ) + 1 = (lo + L.length + 1 : ℕ) := by omega
        have hlastR : (lo : ℤ) + n - 1 = (lo + L.length + 1 : ℕ) + R.length - 1 := by omega
        rw [scratchQuickSort, if_pos hlarge, hrun, ok_bind]
        dsimp only
        rw [hnextR, hlastL, hlastR]
        by_cases hlo : skipsLower alo (lo + L.length : ℕ) = true
        · obtain ⟨v2, v3, hfetch, hturn, hlower⟩ := skip_spec (v := v1) (t := t1) hlt hoffset (by omega) (by omega)
            (hbounds.of_skipsLower hlo) (!swapped) rev
          have hV3 := hlower.outV.length
          obtain ⟨v4, t4, hrun4, hupper⟩ := ih (v := v3) (t := t1) (by omega : R.length < fuel) hoffsetR (by omega) (by omega) (!swapped)
            (!rev)
          rw [live_eq _ hlower.outV hlower.outT (.inr (by omega)), hsplit.right] at hupper
          rw [hsplit.left] at hlower
          refine ⟨v4, t4, ?_, hsplit.lower_upper hlt hlower hupper⟩
          rw [if_pos hlo, show ((lo + L.length : ℕ) : ℤ) - lo = L.length by omega, hfetch, ok_bind, hturn, ok_bind, hrun4]
        · rw [if_neg hlo]
          by_cases hhi : skipsUpper ahi (lo + L.length : ℕ) = true
          · obtain ⟨v2, v3, hfetch, hturn, hupper⟩ := skip_spec (v := v1) (t := t1) (n := R.length) hlt hoffsetR (by omega)
              (by omega) (.inr fun i hi => hbounds.of_skipsUpper hlo hhi (by omega)) (!swapped) (!rev)
            have hV3 := hupper.outV.length
            obtain ⟨v4, t4, hrun4, hlower⟩ := ih (v := v3) (t := t1) (by omega : L.length < fuel) hoffset (by omega) (by omega)
              (!swapped) rev
            rw [live_eq _ hupper.outV hupper.outT (.inl (by omega)), hsplit.left] at hlower
            rw [hsplit.right] at hupper
            refine ⟨v4, t4, ?_, hsplit.upper_lower hlt hupper hlower⟩
            rw [if_pos hhi, show ((lo + L.length + 1 : ℕ) : ℤ) + R.length - 1 - (lo + L.length : ℕ) = R.length by omega, hfetch, ok_bind,
              hturn, ok_bind, hrun4]
          · rw [if_neg hhi]
            split
            · obtain ⟨v2, t2, hrun2, hlower⟩ := ih (v := v1) (t := t1) (by omega : L.length < fuel) hoffset (by omega) (by omega)
                (!swapped) rev
              have hV2 := hlower.outV.length
              have hT2 := hlower.outT.length
              obtain ⟨v3, t3, hrun3, hupper⟩ := ih (v := v2) (t := t2) (by omega : R.length < fuel) hoffsetR (by omega) (by omega)
                (!swapped) (!rev)
              rw [live_eq _ hlower.outV hlower.outT (.inr (by omega)), hsplit.right] at hupper
              rw [hsplit.left] at hlower
              refine ⟨v3, t3, ?_, hsplit.lower_upper hlt hlower hupper⟩
              rw [hrun2, ok_bind]
              exact hrun3
            · obtain ⟨v2, t2, hrun2, hupper⟩ := ih (v := v1) (t := t1) (by omega : R.length < fuel) hoffsetR (by omega) (by omega)
                (!swapped) (!rev)
              have hV2 := hupper.outV.length
              have hT2 := hupper.outT.length
              obtain ⟨v3, t3, hrun3, hlower⟩ := ih (v := v2) (t := t2) (by omega : L.length < fuel) hoffset (by omega) (by omega)
                (!swapped) rev
              rw [live_eq _ hupper.outV hupper.outT (.inl (by omega)), hsplit.left] at hlower
              rw [hsplit.right] at hupper
              refine ⟨v3, t3, ?_, hsplit.upper_lower hlt hupper hlower⟩
              rw [hrun2, ok_bind]
              exact hrun3
      · exact scratchQuickSort_short hlt hash alo ahi fuel hoffset hv ht swapped rev hlarge

end Settling

end Joolia.Sort
