import Joolia.Base.Strings.Decode

namespace Joolia.Strings

open Fallible

section Length

variable {s : Str} {i e : ℕ} {data : List Byte}

-- The number of continuation bytes within characters among `m` indices from `a` on.
noncomputable def coveredIn (data : List Byte) (a m : ℕ) : ℕ :=
  open Classical in (List.range' a m).countP fun j => ∃ k, Covers data k j

theorem coveredIn_zero (a : ℕ) : coveredIn data a 0 = 0 := rfl

theorem coveredIn_succ_of_covers {k a : ℕ} (h : Covers data k a) (m : ℕ) :
    coveredIn data a (m + 1) = coveredIn data (a + 1) m + 1 := by
  unfold coveredIn
  rw [List.range'_succ, List.countP_cons_of_pos]
  simpa using ⟨k, h⟩

theorem coveredIn_succ_of_not_covers {a : ℕ} (h : ∀ k, ¬Covers data k a) (m : ℕ) :
    coveredIn data a (m + 1) = coveredIn data (a + 1) m := by
  unfold coveredIn
  rw [List.range'_succ, List.countP_cons_of_neg]
  simpa using h

-- No character before `i` reaches beyond `i`.
def Settled (data : List Byte) (i : ℕ) : Prop := ∀ k < i, ∀ j, i < j → ¬Covers data k j

theorem IsStart.settled (h : IsStart data i) : Settled data i := fun k hk _ hj hc => h.2 k (hc.mono hk hj.le)

-- Past the bytes that the character at `i` takes.
theorem Settled.advance (h : Settled data i) (hi : i < e) (hcovers : ∀ k, i < k → k < e → Covers data i k)
    (hstop : ¬Covers data i (e + 1)) : Settled data e := by
  intro k hk j hj hc
  rcases Nat.lt_trichotomy k i with hlt | rfl | hlt
  · exact h k hlt j (by omega) hc
  · exact hstop (hc.mono (by omega) hj)
  · exact (hcovers k hlt hk).not_covers j hc

theorem Settled.covers (h : Settled data i) (hi : i < e) (hcovers : ∀ k, i < k → k < e → Covers data i k) {k : ℕ}
    (hk : Covers data k e) : Covers data i e := by
  rcases Nat.lt_trichotomy k i with hlt | rfl | hlt
  · exact absurd hk (h k hlt e hi)
  · exact hk
  · exact absurd hk ((hcovers k hlt hk.lt).not_covers e)

theorem need_pos_iff (b : Byte) : 1 ≤ need b ↔ 0xc0 ≤ b ∧ b ≤ 0xf7 := by
  rw [← between_two_bytes, between_iff]
  rfl

theorem le_need_two (b : Byte) (hb : 1 ≤ need b) : 2 ≤ need b ↔ b ≥ 0xe0 :=
  (le_need_iff b ((between_long b).2 (.inr hb))).2.1

theorem le_need_three (b : Byte) (hb : 1 ≤ need b) : 3 ≤ need b ↔ b ≥ 0xf0 :=
  (le_need_iff b ((between_long b).2 (.inr hb))).2.2

-- The next count after the byte at `e`, which the character at `i` takes if it is a
-- continuation byte.
theorem Settled.coveredIn_eq (h : Settled data i) (hi : i < e) (hcovers : ∀ k, i < k → k < e → Covers data i k)
    (hiff : Covers data i e ↔ isContinuation (byteAt data e) = true) (m : ℕ) :
    (coveredIn data e (m + 1) : ℤ) = coveredIn data (e + 1) m + (isContinuation (byteAt data e)).toInt := by
  by_cases hc : isContinuation (byteAt data e) = true
  · rw [coveredIn_succ_of_covers (hiff.2 hc), hc]
    rfl
  · rw [coveredIn_succ_of_not_covers fun k hk => hc (hiff.1 (h.covers hi hcovers hk)), Bool.eq_false_iff.2 hc]
    simp

theorem lengthLoop_spec {left : ℕ} (h : Settled s.data i) (hleft : i + left < s.data.length) (c : ℤ) :
    lengthLoop s left i (byteAt s.data i) c = .ok (c - coveredIn s.data (i + 1) left) := by
  induction left using Nat.strong_induction_on generalizing i c with
  | _ left ih =>
      cases left with
      | zero => simp [lengthLoop, coveredIn_zero]
      | succ left =>
          have hone : ∀ k, i < k → k < i + 1 → Covers s.data i k := fun k hk hk' => by omega
          rw [lengthLoop, codeunit_eq (s := s) (k := i + 1) (by simp) (by omega), ok_bind, ok_bind]
          by_cases hlead : 0xc0 ≤ byteAt s.data i ∧ byteAt s.data i ≤ 0xf7
          swap
          · have hneed : ¬1 ≤ need (byteAt s.data i) := mt (need_pos_iff _).1 hlead
            have hnot : ∀ j, ¬Covers s.data i j := fun j hj => hneed hj.need_pos
            have hrest := ih left (by omega) (h.advance (by omega) hone (hnot _)) (by omega) c
            rw [if_pos hlead, coveredIn_succ_of_not_covers fun k hk => hnot _ (h.covers (by omega) hone hk)]
            exact_mod_cast hrest
          have hneed := (need_pos_iff _).2 hlead
          have hcov1 : Covers s.data i (i + 1) ↔ isContinuation (byteAt s.data (i + 1)) = true := by
            rw [covers_one]
            simp [hneed, show i + 1 < s.data.length by omega]
          have hcount1 := h.coveredIn_eq (e := i + 1) (by omega) hone hcov1 left
          rw [if_neg (not_not.2 hlead)]
          -- A second continuation byte is asked for only after a first one.
          by_cases h2 : isContinuation (byteAt s.data (i + 1)) = true ∧ byteAt s.data i ≥ 0xe0
          swap
          · have hstop : ¬Covers s.data i (i + 2) := fun hc =>
              h2 ⟨(covers_two.1 hc).2.2.1, (le_need_two _ hneed).1 (covers_two.1 hc).2.1⟩
            have hrest := ih left (by omega) (h.advance (by omega) hone hstop) (by omega)
              (c - (isContinuation (byteAt s.data (i + 1))).toInt)
            rw [if_pos h2, hcount1]
            push_cast at hrest
            rw [hrest]
            congr 1
            omega
          rw [if_neg (not_not.2 h2)]
          have htwo : ∀ k, i < k → k < i + 2 → Covers s.data i k := fun k hk hk' => (hcov1.2 h2.1).mono hk (by omega)
          cases left with
          | zero => simp [hcount1, coveredIn_zero]
          | succ left =>
              have hcov2 : Covers s.data i (i + 2) ↔ isContinuation (byteAt s.data (i + 2)) = true := by
                rw [covers_two]
                simp [(le_need_two _ hneed).2 h2.2, h2.1, show i + 2 < s.data.length by omega]
              have hcount2 := h.coveredIn_eq (e := i + 2) (by omega) htwo hcov2 left
              simp only
              rw [codeunit_eq (s := s) (k := i + 2) (by simp) (by omega), ok_bind]
              by_cases h3 : isContinuation (byteAt s.data (i + 2)) = true ∧ byteAt s.data i ≥ 0xf0
              swap
              · have hstop : ¬Covers s.data i (i + 3) := fun hc =>
                  h3 ⟨(covers_three.1 hc).2.2.2.1, (le_need_three _ hneed).1 (covers_three.1 hc).2.1⟩
                have hrest := ih left (by omega) (h.advance (by omega) htwo hstop) (by omega)
                  (c - (isContinuation (byteAt s.data (i + 1))).toInt - (isContinuation (byteAt s.data (i + 2))).toInt)
                rw [if_pos h3, hcount1, hcount2]
                push_cast at hrest
                rw [hrest]
                congr 1
                omega
              rw [if_neg (not_not.2 h3)]
              have hthree : ∀ k, i < k → k < i + 3 → Covers s.data i k := fun k hk hk' => (hcov2.2 h3.1).mono hk (by omega)
              cases left with
              | zero =>
                  rw [hcount1, hcount2, coveredIn_zero]
                  simp only [pure_eq_ok]
                  congr 1
                  omega
              | succ left =>
                  have hcov3 : Covers s.data i (i + 3) ↔ isContinuation (byteAt s.data (i + 3)) = true := by
                    rw [covers_three]
                    simp [(le_need_three _ hneed).2 h3.2, h2.1, h3.1, show i + 3 < s.data.length by omega]
                  have hcount3 := h.coveredIn_eq (e := i + 3) (by omega) hthree hcov3 left
                  have hstop : ¬Covers s.data i (i + 4) := fun hc => absurd hc.le_three (by omega)
                  have hrest := ih left (by omega) (h.advance (by omega) hthree hstop) (by omega)
                    (c - (isContinuation (byteAt s.data (i + 1))).toInt - (isContinuation (byteAt s.data (i + 2))).toInt -
                      (isContinuation (byteAt s.data (i + 3))).toInt)
                  simp only
                  rw [codeunit_eq (s := s) (k := i + 3) (by simp) (by omega), ok_bind, hcount1, hcount2, hcount3]
                  push_cast at hrest
                  rw [hrest]
                  congr 1
                  omega

theorem coveredIn_add (data : List Byte) (a m n : ℕ) : coveredIn data a (m + n) = coveredIn data a m + coveredIn data (a + m) n := by
  unfold coveredIn
  rw [← List.countP_append, List.range'_append_1]

theorem coveredIn_eq_of_covers {k a m : ℕ} (h : ∀ j, a ≤ j → j < a + m → Covers data k j) : coveredIn data a m = m := by
  unfold coveredIn
  rw [List.countP_eq_length.2, List.length_range']
  intro j hj
  rw [List.mem_range'_1] at hj
  simpa using ⟨k, h j hj.1 hj.2⟩

theorem lengthContinued_spec (h : Settled s.data i) {j : ℕ} (hij : i ≤ j) (hj : j < s.data.length) (c : ℤ) :
    lengthContinued s i j c = .ok (c - coveredIn s.data (i + 1) (j - i)) := by
  rw [lengthContinued]
  by_cases hlt : i < j
  · have hread := codeunit_eq (s := s) (k := i) rfl (by omega)
    simp only [if_neg (show ¬¬(i : ℤ) < j by omega), hread, ok_bind, show ((j : ℤ) - i).toNat = j - i by omega]
    exact lengthLoop_spec h (by omega) c
  · obtain rfl : i = j := by omega
    simp [coveredIn_zero]

theorem lengthBetween_spec {j : ℕ} (hij : i ≤ j) (hj : j < s.data.length) :
    lengthBetween s i j = .ok ((j + 1 - i : ℕ) - coveredIn s.data i (j + 1 - i)) := by
  have hn : ncodeunits s = s.data.length := rfl
  obtain ⟨k, e, hblock, hk, hi⟩ := exists_isBlock (s := s) (i := i) (by omega)
  have hcontinued := lengthContinued_spec hblock.start.settled (hk.trans hij) hj (j - k + (decide ((k : ℤ) = i)).toInt)
  rw [lengthBetween, if_neg (not_not.2 (by omega)), if_neg (not_not.2 (by omega)), if_neg (by omega), hblock.thisind_eq hk hi]
  simp only [ok_bind]
  rw [hcontinued]
  congr 1
  rcases Nat.eq_or_lt_of_le hk with rfl | hlt
  · rw [show j + 1 - k = j - k + 1 by omega, coveredIn_succ_of_not_covers hblock.start.2]
    simp
    omega
  · -- The rest of the first character is not counted.
    have hsplit := coveredIn_add s.data (k + 1) (i - k - 1) (j + 1 - i)
    have hinside : coveredIn s.data (k + 1) (i - k - 1) = i - k - 1 :=
      coveredIn_eq_of_covers fun m hm hm' => hblock.spans.covers m hm (by omega)
    rw [show i - k - 1 + (j + 1 - i) = j - k by omega, hinside, show k + 1 + (i - k - 1) = i by omega] at hsplit
    rw [hsplit, decide_eq_false (by omega)]
    simp
    omega

theorem length_spec : length s = .ok ((s.data.length : ℤ) - coveredIn s.data 0 s.data.length) := by
  rw [length]
  rcases Nat.eq_zero_or_pos s.data.length with hzero | hpos
  · simp [lengthContinued, ncodeunits, hzero, coveredIn_zero]
  · have hstart := isStart_zero hpos
    have hcontinued := lengthContinued_spec hstart.settled (Nat.zero_le (s.data.length - 1)) (by omega) s.data.length
    rw [show ncodeunits s - 1 = ((s.data.length - 1 : ℕ) : ℤ) by rw [ncodeunits]; omega]
    refine hcontinued.trans ?_
    rw [← coveredIn_succ_of_not_covers hstart.2, show s.data.length - 1 - 0 + 1 = s.data.length by omega]

end Length

end Joolia.Strings
