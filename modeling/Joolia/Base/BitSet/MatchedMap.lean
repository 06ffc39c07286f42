import Joolia.Base.BitSet.Chunks

namespace Joolia.Bitset

open Words BitArray

theorem SetOp.word_zero_left (f : SetOp) (w : Word) :
    f.word 0 w = if f.leftFalseIsFalse then 0 else w := by
  cases f <;> simp [SetOp.word, SetOp.leftFalseIsFalse, SetOp.bool]

theorem SetOp.word_zero_right (f : SetOp) (w : Word) :
    f.word w 0 = if f.rightFalseIsFalse then 0 else w := by
  cases f with
  | setdiff =>
      apply BitVec.eq_of_getLsbD_eq
      intro p hp
      simp only [SetOp.word, BitVec.getLsbD_and, BitVec.getLsbD_not, hp]
      simp [SetOp.rightFalseIsFalse, SetOp.bool]
  | _ => simp [SetOp.word, SetOp.rightFalseIsFalse, SetOp.bool]

theorem SetOp.getLsbD_word (f : SetOp) (w v : Word) {p : ℕ} (hp : p < 64) :
    (f.word w v).getLsbD p = f.bool (w.getLsbD p) (v.getLsbD p) := by
  cases f <;> simp [SetOp.word, SetOp.bool, hp]

-- A block copy inside the vectors succeeds.
theorem unsafeCopyto_spec (dest : List Word) (doffs : ℤ) (src : List Word) (soffs n : ℤ) (hn : 0 ≤ n) (hd : 0 ≤ doffs)
    (hdn : doffs + n ≤ dest.length) (hs : 0 ≤ soffs) (hsn : soffs + n ≤ src.length) :
    ∃ r, unsafeCopyto dest doffs src soffs n = some r ∧ r.length = dest.length ∧
      ∀ off k, window r off k = if off + doffs ≤ k ∧ k < off + doffs + n
        then window src (off + doffs - soffs) k else window dest off k := by
  unfold unsafeCopyto
  split
  · refine ⟨_, rfl, rfl, fun off k => ?_⟩
    rw [if_neg (by omega)]
  · rw [if_pos (by omega)]
    have hlen : (dest.take doffs.toNat ++ (src.drop soffs.toNat).take n.toNat).length =
        (doffs + n).toNat := by
      simp only [List.length_append, List.length_take, List.length_drop]
      omega
    refine ⟨_, rfl, ?_, fun off k => ?_⟩
    · rw [List.length_append, hlen, List.length_drop]
      omega
    · have hdlen : (dest.take doffs.toNat).length = doffs.toNat := by
        rw [List.length_take]
        omega
      rw [window_append, hlen, window_append, hdlen]
      have hdrop := window_drop src soffs.toNat (off + doffs - soffs) k
      have hback := window_drop dest (doffs + n).toNat off k
      rw [show off + doffs - soffs + soffs.toNat = off + doffs by omega] at hdrop
      rw [show off + ((doffs + n).toNat : ℤ) = off + doffs + n by omega] at hback ⊢
      by_cases h1 : k < off + doffs + n
      · rw [if_pos h1]
        by_cases h2 : k < off + doffs
        · rw [if_pos (by omega), if_neg (by omega), window_take, if_pos (by omega)]
        · rw [if_neg (by omega), if_pos (by omega), window_take, if_pos (by omega),
            show off + (doffs.toNat : ℤ) = off + doffs by omega, hdrop, if_pos (by omega)]
      · rw [if_neg h1, if_neg (by omega), hback, if_pos (by omega)]

section MatchedMap

variable (mem : ℕ → Word) (f : SetOp) (a1 a2 : List Word) (b1 b2 : ℤ)

theorem mapCommon_spec : (mapCommon f a1 a2 (b2 - b1)).length = a1.length ∧
    ∀ k, window (mapCommon f a1 a2 (b2 - b1)) b1 k =
      if b1 ≤ k ∧ k < b1 + a1.length ∧ b2 ≤ k ∧ k < b2 + a2.length
      then f.word (window a1 b1 k) (window a2 b2 k) else window a1 b1 k := by
  by_cases hle : (max 0 (b2 - b1)).toNat ≤ (min (a1.length : ℤ) (a2.length + (b2 - b1))).toNat
  · have hloop : (mapCommon f a1 a2 (b2 - b1)).length = a1.length ∧
        ∀ k, window (mapCommon f a1 a2 (b2 - b1)) b1 k =
          if b1 ≤ k ∧ k < b1 + (min (a1.length : ℤ) (a2.length + (b2 - b1))).toNat ∧ b2 ≤ k
          then f.word (window a1 b1 k) (window a2 b2 k) else window a1 b1 k := by
      refine Loop.up_invariant (fun t (cur : List Word) => cur.length = a1.length ∧
        ∀ k, window cur b1 k =
          if b1 ≤ k ∧ k < b1 + t ∧ b2 ≤ k then f.word (window a1 b1 k) (window a2 b2 k)
          else window a1 b1 k) hle ⟨rfl, fun k => by rw [if_neg (by omega)]⟩ ?_
      intro t cur hlo ht hcur
      obtain ⟨hlen, hwin⟩ := hcur
      refine ⟨by simpa using hlen, fun k => ?_⟩
      rw [window_set _ (by omega)]
      by_cases hk : k = b1 + t
      · rw [if_pos hk, if_pos (by omega), word_eq_window cur b1, word_eq_window a2 b2, hwin,
          if_neg (by omega), hk]
        congr 2
        omega
      · rw [if_neg hk, hwin]
        by_cases hin : b1 ≤ k ∧ k < b1 + t ∧ b2 ≤ k
        · rw [if_pos hin, if_pos (by omega)]
        · rw [if_neg hin, if_neg (by omega)]
    refine ⟨hloop.1, fun k => (hloop.2 k).trans ?_⟩
    by_cases hk : b1 ≤ k ∧ k < b1 + a1.length ∧ b2 ≤ k ∧ k < b2 + a2.length
    · rw [if_pos hk, if_pos (by omega)]
    · rw [if_neg hk, if_neg (by omega)]
  · rw [mapCommon, Loop.up_of_le (by omega)]
    exact ⟨rfl, fun k => by rw [if_neg (by omega)]⟩

-- Past the end of the first window the second one shows through where `f(false, x)`
-- is `x`; past the end of the second one the first is dropped where `f(x, false)` is
-- false.
theorem matchEnd_spec : ∃ r l, matchEnd mem f a1 b1 a2 b2 = some (r, l) ∧ (r.length : ℤ) ≤ l ∧
    b1 + r.length ≤ max (b1 + a1.length) (b2 + a2.length) ∧ ∀ k, window r b1 k =
      if b1 + a1.length ≤ k then (if f.leftFalseIsFalse then 0 else window a2 b2 k)
      else if b2 + a2.length ≤ k then (if f.rightFalseIsFalse then 0 else window a1 b1 k)
      else window a1 b1 k := by
  simp only [matchEnd]
  split
  · rename_i hediff
    split
    · rename_i hl
      refine ⟨_, _, rfl, Int.le_refl _, by omega, fun k => ?_⟩
      by_cases hk : b1 + a1.length ≤ k
      · rw [if_pos hk, window_of_ge hk]
      · rw [if_neg hk, if_neg (by omega)]
    · rename_i hl
      -- the gap up to `a2`, if any, is cleared first
      obtain ⟨g, l, hg, hl1, hglen, hlo, hhi, hgwin⟩ : ∃ (g : List Word) (l : ℤ),
          (if b2 - b1 > a1.length
            then clearRange (a1.length : ℤ).toNat (b2 - b1).toNat
              (growend mem a1 (a2.length + b2 - (a1.length + b1)).toNat)
            else growend mem a1 (a2.length + b2 - (a1.length + b1)).toNat) = g ∧
          (if b2 - b1 > a1.length then b2 - b1 else (a1.length : ℤ)) = l ∧
          (g.length : ℤ) = a2.length + b2 - b1 ∧ max (a1.length : ℤ) (b2 - b1) ≤ l ∧
          l ≤ max (a1.length : ℤ) (b2 - b1) ∧
          ∀ k, k < b1 + l → window g b1 k = window a1 b1 k := by
        by_cases hgap : b2 - b1 > a1.length
        · refine ⟨_, _, if_pos hgap, if_pos hgap, by simp; omega, by omega, by omega, fun k hk => ?_⟩
          rw [window_clearRange (by simp; omega), growend, window_append]
          by_cases hlt : k < b1 + a1.length
          · rw [if_neg (by omega), if_pos hlt]
          · rw [if_pos (by omega), window_of_ge (by omega)]
        · refine ⟨_, _, if_neg hgap, if_neg hgap, by simp; omega, by omega, by omega, fun k hk => ?_⟩
          rw [growend, window_append, if_pos hk]
      rw [hg, hl1]
      obtain ⟨r, hr, hrlen, hrwin⟩ := unsafeCopyto_spec g l a2
        (a2.length - (a2.length + b2 - l - b1)) (a2.length + b2 - l - b1)
        (by omega) (by omega) (by omega) (by omega) (by omega)
      refine ⟨r, r.length, by rw [hr]; rfl, Int.le_refl _, by omega, fun k => ?_⟩
      rw [hrwin, show b1 + l - (a2.length - (a2.length + b2 - l - b1)) = b2 by omega]
      by_cases hk : b1 + a1.length ≤ k
      · rw [if_pos hk]
        split
        · rfl
        · by_cases hlt : k < b1 + l
          · rw [hgwin k hlt, window_of_ge hk, window_of_lt (by omega)]
          · rw [window_of_ge (by omega), window_of_ge (by omega)]
      · rw [if_neg hk, if_neg (by omega), if_neg (by omega), hgwin k (by omega)]
  · split
    · rename_i hediff
      split
      · rename_i hr
        refine ⟨_, _, rfl, by rw [length_deleteend]; omega, by rw [length_deleteend]; omega, fun k => ?_⟩
        rw [deleteend, window_take]
        by_cases hk : b1 + a1.length ≤ k
        · rw [if_pos hk, if_neg (by omega), window_of_ge (a := a2) (by omega), ite_self]
        · rw [if_neg hk]
          by_cases hk2 : b2 + a2.length ≤ k
          · rw [if_pos hk2]
            split
            · exact window_of_lt (by omega)
            · rfl
          · rw [if_neg hk2, if_pos (by omega)]
      · rename_i hr
        refine ⟨_, _, rfl, Int.le_refl _, by omega, fun k => ?_⟩
        by_cases hk : b1 + a1.length ≤ k
        · rw [if_pos hk, window_of_ge hk, window_of_ge (a := a2) (by omega), ite_self]
        · rw [if_neg hk, ite_self]
    · refine ⟨_, _, rfl, Int.le_refl _, by omega, fun k => ?_⟩
      by_cases hk : b1 + a1.length ≤ k
      · rw [if_pos hk, window_of_ge hk, window_of_ge (a := a2) (by omega), ite_self]
      · rw [if_neg hk, if_neg (by omega)]

-- Before the beginning of the windows, the same with the parts exchanged.
theorem matchBegin_spec {l : ℤ} (hl : a1.length ≤ l) :
    ∃ r b, matchBegin mem f a1 l b1 a2 b2 = some (r, b) ∧ min b1 b2 ≤ b ∧
      b + r.length ≤ max (max b1 b2) (b1 + a1.length) ∧ ∀ k, window r b k =
        if k < b1 then (if f.leftFalseIsFalse then 0 else window a2 b2 k)
        else if k < b2 then (if f.rightFalseIsFalse then 0 else window a1 b1 k)
        else window a1 b1 k := by
  simp only [matchBegin]
  split
  · rename_i hbdiff
    split
    · rename_i hl
      refine ⟨_, _, rfl, by omega, by omega, fun k => ?_⟩
      by_cases hk : k < b1
      · rw [if_pos hk, window_of_lt hk]
      · rw [if_neg hk, if_neg (by omega)]
    · rename_i hl
      have hglen : (growbeg mem a1 (-(b2 - b1)).toNat).length = (-(b2 - b1)).toNat + a1.length := by
        simp [growbeg]
      obtain ⟨r, hr, hrlen, hrwin⟩ := unsafeCopyto_spec
        (clearRange (a2.length : ℤ).toNat (-(b2 - b1)).toNat (growbeg mem a1 (-(b2 - b1)).toNat))
        0 a2 0 (min (-(b2 - b1)) a2.length)
        (by omega) (by omega) (by rw [length_clearRange]; omega) (by omega) (by omega)
      rw [length_clearRange] at hrlen
      refine ⟨r, b1 + (b2 - b1), by rw [hr]; rfl, by omega, by omega, fun k => ?_⟩
      rw [show b1 + (b2 - b1) = b2 by omega, hrwin, window_clearRange (by omega), growbeg,
        window_append, show b2 + 0 - 0 = b2 by omega]
      simp only [List.length_map, List.length_range]
      by_cases hk : k < b1
      · rw [if_pos hk]
        by_cases hcopy : b2 + 0 ≤ k ∧ k < b2 + 0 + min (-(b2 - b1)) a2.length
        · rw [if_pos hcopy]
        · rw [if_neg hcopy]
          by_cases hlt : k < b2
          · rw [if_neg (by omega), if_pos (by omega), window_of_lt hlt, window_of_lt hlt]
          · rw [if_pos (by omega), window_of_ge (by omega)]
      · rw [if_neg hk, if_neg (by omega), if_neg (by omega), if_neg (by omega), if_neg (by omega),
          show b2 + ((-(b2 - b1)).toNat : ℤ) = b1 by omega]
  · split
    · rename_i hbdiff
      split
      · rename_i hr
        refine ⟨_, _, rfl, by omega, by simp [deletebeg]; omega, fun k => ?_⟩
        by_cases hall : l < b2 - b1
        · rw [deletebeg, List.drop_of_length_le (by omega), window_nil]
          by_cases hk : k < b1
          · rw [if_pos hk, window_of_lt (a := a2) (by omega), ite_self]
          · rw [if_neg hk]
            split
            · rfl
            · rw [window_of_ge (by omega)]
        · have hdrop := window_drop a1 (min l (b2 - b1)).toNat b1 k
          rw [show b1 + ((min l (b2 - b1)).toNat : ℤ) = b2 by omega] at hdrop
          rw [show b1 + (b2 - b1) = b2 by omega, deletebeg, hdrop]
          by_cases hk : k < b1
          · rw [if_pos hk, if_neg (by omega), window_of_lt (a := a2) (by omega), ite_self]
          · rw [if_neg hk]
            by_cases hk2 : k < b2
            · rw [if_pos hk2, if_neg (by omega)]
            · rw [if_neg hk2, if_pos (by omega)]
      · rename_i hr
        refine ⟨_, _, rfl, by omega, by omega, fun k => ?_⟩
        by_cases hk : k < b1
        · rw [if_pos hk, window_of_lt hk, window_of_lt (a := a2) (by omega), ite_self]
        · rw [if_neg hk, ite_self]
    · refine ⟨_, _, rfl, by omega, by omega, fun k => ?_⟩
      by_cases hk : k < b1
      · rw [if_pos hk, window_of_lt hk, window_of_lt (a := a2) (by omega), ite_self]
      · rw [if_neg hk, if_neg (by omega)]

theorem matchedMapBits_spec : ∃ r b, matchedMapBits mem f a1 b1 a2 b2 = some (r, b) ∧
    min b1 b2 ≤ b ∧ b + r.length ≤ max (b1 + a1.length) (b2 + a2.length) ∧
    ∀ k, window r b k = f.word (window a1 b1 k) (window a2 b2 k) := by
  obtain ⟨hclen, hcwin⟩ := mapCommon_spec f a1 a2 b1 b2
  obtain ⟨e, l, he, hel, hehi, hewin⟩ :=
    matchEnd_spec mem f (mapCommon f a1 a2 (b2 - b1)) a2 b1 b2
  obtain ⟨r, b, hr, hlo, hhi, hrwin⟩ := matchBegin_spec mem f e a2 b1 b2 hel
  refine ⟨r, b, by rw [matchedMapBits, he]; exact hr, hlo, by omega, fun k => ?_⟩
  rw [hrwin, hewin, hclen, hcwin]
  by_cases h1 : k < b1
  · rw [if_pos h1, window_of_lt (a := a1) h1, SetOp.word_zero_left]
  · rw [if_neg h1]
    by_cases h2 : k < b2
    · rw [if_pos h2, if_neg (show ¬(b1 ≤ k ∧ k < b1 + a1.length ∧ b2 ≤ k ∧ k < b2 + a2.length) by omega),
        window_of_lt (a := a2) h2, SetOp.word_zero_right, ite_self]
      by_cases h3 : b1 + a1.length ≤ k
      · rw [if_pos h3, window_of_ge h3]
      · rw [if_neg h3, if_neg (show ¬b2 + a2.length ≤ k by omega)]
    · rw [if_neg h2]
      by_cases h3 : b1 + a1.length ≤ k
      · rw [if_pos h3, window_of_ge h3, SetOp.word_zero_left]
      · rw [if_neg h3]
        by_cases h4 : b2 + a2.length ≤ k
        · rw [if_pos h4, window_of_ge h4, SetOp.word_zero_right,
            if_neg (show ¬(b1 ≤ k ∧ k < b1 + a1.length ∧ b2 ≤ k ∧ k < b2 + a2.length) by omega)]
        · rw [if_neg h4, if_pos (by omega)]

end MatchedMap

theorem bit_word (f : SetOp) {a a1 a2 : List Word} {b b1 b2 : ℤ}
    (h : ∀ k, window a b k = f.word (window a1 b1 k) (window a2 b2 k)) (n : ℤ) :
    bit a b n = f.bool (bit a1 b1 n) (bit a2 b2 n) := by
  rw [bit, h, SetOp.getLsbD_word f _ _ (by omega)]
  rfl

-- Set algebra is exact for every alignment of the two windows.
theorem matchedMap_spec (mem : ℕ → Word) (f : SetOp) {s1 s2 : BitSet} (h1 : Inv s1) (h2 : Inv s2) :
    ∃ s, matchedMap mem f s1 s2 = some s ∧ Inv s ∧
      ∀ n, bit s.bits s.offset n = f.bool (bit s1.bits s1.offset n) (bit s2.bits s2.offset n) := by
  unfold matchedMap
  by_cases hoff1 : s1.offset = NO_OFFSET
  · rw [if_pos hoff1]
    have hnil := h1.uninit hoff1
    by_cases hl : f.leftFalseIsFalse = true
    · rw [if_pos hl]
      refine ⟨s1, rfl, h1, bit_word f fun k => ?_⟩
      rw [hnil, window_nil, SetOp.word_zero_left, if_pos hl]
    · rw [if_neg hl]
      refine ⟨_, rfl, h2, bit_word f fun k => ?_⟩
      rw [hnil, window_nil, SetOp.word_zero_left, if_neg hl, copy]
  · rw [if_neg hoff1]
    by_cases hoff2 : s2.offset = NO_OFFSET
    · rw [if_pos hoff2]
      have hnil := h2.uninit hoff2
      by_cases hr : f.rightFalseIsFalse = true
      · rw [if_pos hr]
        refine ⟨_, rfl, .new, bit_word f fun k => ?_⟩
        rw [hnil, window_nil, SetOp.word_zero_right, if_pos hr, empty, window_nil]
      · rw [if_neg hr]
        refine ⟨_, rfl, h1, bit_word f fun k => ?_⟩
        rw [hnil, window_nil, SetOp.word_zero_right, if_neg hr]
    · rw [if_neg hoff2]
      obtain ⟨r, b, hr, hlo, hhi, hwin⟩ :=
        matchedMapBits_spec mem f s1.bits s2.bits s1.offset s2.offset
      have hr1 := h1.range hoff1
      have hr2 := h2.range hoff2
      refine ⟨⟨r, b⟩, by rw [hr]; rfl, .of_range (by omega) (by omega), bit_word f hwin⟩

end Joolia.Bitset
