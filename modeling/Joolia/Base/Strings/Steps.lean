import Joolia.Base.Strings.Count

namespace Joolia.Strings

open Fallible

-- One step of `prevind` and of `nextind`, continued by one index at a time past the ends.
def prevStep (s : Str) (i : ℤ) : ℤ :=
  match prevind s i with
  | .ok j => j
  | .error _ => i - 1

def nextStep (s : Str) (i : ℤ) : ℤ :=
  match nextind s i with
  | .ok j => j
  | .error _ => i + 1

section Steps

variable {s : Str} {i k e : ℕ}

theorem previndLoop_zero (i : ℕ) : previndLoop s i 0 = .ok (i : ℤ) := by
  cases i <;> simp [previndLoop]

theorem previndLoop_succ (i : ℕ) {n : ℤ} (hn : 0 < n) :
    previndLoop s (i + 1) n = isvalid s i >>= fun valid => previndLoop s i (n - valid.toInt) := by
  rw [previndLoop, if_neg (not_not.2 hn)]

-- The loop goes down to the start of the character before.
theorem IsBlock.previndLoop_eq (h : IsBlock s.data k e) (hk : k ≤ i) (hi : i < e) (n : ℕ) :
    previndLoop s (i + 1) ((n + 1 : ℕ) : ℤ) = previndLoop s k n := by
  induction i with
  | zero =>
      obtain rfl : k = 0 := by omega
      rw [previndLoop_succ 0 (by omega), isvalid_eq h le_rfl hi]
      simp [decide_true]
  | succ i ih =>
      rw [previndLoop_succ (i + 1) (by omega), isvalid_eq h hk hi, ok_bind]
      by_cases hik : i + 1 = k
      · subst hik
        simp [decide_true]
      · rw [← ih (by omega) (by omega)]
        simp [hik]

theorem previndN_eq {n : ℕ} (hi : i ≤ s.data.length) (hn : 0 < n) : previndN s i n = previndLoop s i n := by
  have hlen : ncodeunits s = s.data.length := rfl
  rw [previndN, if_neg (by omega), if_neg (not_not.2 (by omega)), if_neg (by omega)]
  simp

theorem IsBlock.prevind_eq (h : IsBlock s.data k e) (hk : k ≤ i) (hi : i < e) : prevind s ((i + 1 : ℕ) : ℤ) = .ok (k : ℤ) := by
  have hle := h.spans.le
  have hloop := h.previndLoop_eq hk hi 0
  rw [prevind, show (1 : ℤ) = ((0 + 1 : ℕ) : ℤ) by rfl, previndN_eq (by omega) (by omega), hloop]
  exact previndLoop_zero k

theorem prevind_zero : prevind s 0 = .ok (-1) := by
  rw [prevind, show (1 : ℤ) = ((1 : ℕ) : ℤ) by rfl, show (0 : ℤ) = ((0 : ℕ) : ℤ) by rfl,
    previndN_eq (Nat.zero_le _) (by omega)]
  rfl

theorem prevind_of_neg {i : ℤ} (hi : i < 0) : prevind s i = .error (.boundsError i) := by
  simp [prevind, previndN, show ¬0 ≤ i by omega]

theorem prevStep_zero : prevStep s 0 = -1 := by rw [prevStep, prevind_zero]

theorem prevStep_of_neg {i : ℤ} (hi : i < 0) : prevStep s i = i - 1 := by rw [prevStep, prevind_of_neg hi]

theorem iterate_prevStep_of_neg (n : ℕ) {i : ℤ} (hi : i < 0) : (prevStep s)^[n] i = i - n := by
  induction n generalizing i with
  | zero => simp
  | succ n ih =>
      rw [Function.iterate_succ_apply, prevStep_of_neg hi, ih (by omega)]
      push_cast
      omega

-- The loop takes `n` single steps.
theorem previndLoop_spec (n : ℕ) (hi : i ≤ s.data.length) : previndLoop s i n = .ok ((prevStep s)^[n] i) := by
  induction n generalizing i with
  | zero => exact previndLoop_zero i
  | succ n ih =>
      cases i with
      | zero =>
          rw [Function.iterate_succ_apply, Nat.cast_zero, prevStep_zero, iterate_prevStep_of_neg n (by omega), previndLoop]
          simp only [pure_eq_ok]
          congr 1
          push_cast
          omega
      | succ i =>
          obtain ⟨k, e, h, hk, hlt⟩ := exists_isBlock (s := s) (i := i) (by omega)
          rw [h.previndLoop_eq hk hlt n, ih h.start.1.le, Function.iterate_succ_apply, prevStep, h.prevind_eq hk hlt]

theorem nextindLoop_zero (left : ℕ) (i : ℤ) : nextindLoop s left i 0 = .ok (wrap i) := by
  cases left <;> simp [nextindLoop]

theorem nextindLoop_succ (left : ℕ) (i : ℤ) {n : ℤ} (hn : 0 < n) :
    nextindLoop s (left + 1) i n = isvalid s (i + 1) >>= fun valid => nextindLoop s left (i + 1) (n - valid.toInt) := by
  rw [nextindLoop, if_neg (not_not.2 hn)]

theorem IsStart.isvalid_eq (h : IsStart s.data k) : isvalid s k = .ok true := by
  obtain ⟨e, he⟩ := exists_spans h.1
  simpa using Strings.isvalid_eq ⟨h, he⟩ le_rfl he.lt

-- A step of the loop onto the start of a character.
theorem IsStart.nextindLoop_eq (h : IsStart s.data e) (left : ℕ) (hleft : e + left = s.data.length - 1) (n : ℕ) :
    nextindLoop s (left + 1) ((e : ℤ) - 1) ((n + 1 : ℕ) : ℤ) = nextindLoop s (s.data.length - 1 - e) e n := by
  rw [nextindLoop_succ left _ (by omega), sub_add_cancel, h.isvalid_eq, ok_bind, show s.data.length - 1 - e = left by omega]
  simp

-- The loop goes up to the start of the character after, or to the last index.
theorem IsBlock.nextindLoop_eq (h : IsBlock s.data k e) (hk : k ≤ i) (hi : i < e) (n : ℕ) :
    nextindLoop s (s.data.length - 1 - i) i ((n + 1 : ℕ) : ℤ) =
      if e < s.data.length then nextindLoop s (s.data.length - 1 - e) e n else .ok (wrap (s.data.length + n)) := by
  have hle := h.spans.le
  induction hd : e - i generalizing i with
  | zero => omega
  | succ d ih =>
      by_cases hnext : i + 1 < e
      · have hvalid := isvalid_eq h (show k ≤ i + 1 by omega) hnext
        rw [← ih (by omega) hnext (by omega), show s.data.length - 1 - i = s.data.length - 1 - (i + 1) + 1 by omega,
          nextindLoop_succ _ _ (by omega), show (i : ℤ) + 1 = ((i + 1 : ℕ) : ℤ) by omega, hvalid, ok_bind,
          decide_eq_false (by omega)]
        simp
      · obtain rfl : e = i + 1 := by omega
        by_cases hlen : i + 1 < s.data.length
        · rw [if_pos hlen, ← (h.isStart_stop hlen).nextindLoop_eq (s.data.length - 1 - (i + 1)) (by omega),
            show s.data.length - 1 - i = s.data.length - 1 - (i + 1) + 1 by omega]
          simp
        · rw [if_neg hlen, show s.data.length - 1 - i = 0 by omega, nextindLoop]
          simp only [pure_eq_ok]
          congr 2
          push_cast
          omega

theorem nextind_of_le {i : ℤ} (hi : s.data.length ≤ i) : nextind s i = .error (.boundsError i) := by
  have hn : ncodeunits s = s.data.length := rfl
  rw [nextind, if_neg (by omega), if_pos (by omega)]
  rfl

theorem iterate_nextStep_of_le (n : ℕ) {i : ℤ} (hi : s.data.length ≤ i) : (nextStep s)^[n] i = i + n := by
  induction n generalizing i with
  | zero => simp
  | succ n ih =>
      rw [Function.iterate_succ_apply, nextStep, nextind_of_le hi]
      simp only
      rw [ih (by omega)]
      push_cast
      omega

theorem nextindLoop_spec (n : ℕ) (hi : i < s.data.length) :
    nextindLoop s (s.data.length - 1 - i) i n = .ok (wrap ((nextStep s)^[n] i)) := by
  induction n generalizing i with
  | zero => exact nextindLoop_zero _ _
  | succ n ih =>
      obtain ⟨k, e, h, hk, hlt⟩ := exists_isBlock hi
      rw [h.nextindLoop_eq hk hlt n, Function.iterate_succ_apply, nextStep, h.nextind_eq hk hlt]
      by_cases he : e < s.data.length
      · rw [if_pos he, ih he]
      · obtain rfl : e = s.data.length := by have := h.spans.le; omega
        rw [if_neg he, iterate_nextStep_of_le n le_rfl]

theorem nextind_neg_one : nextind s (-1) = .ok 0 := rfl

-- From the index before the first one.
theorem nextindLoop_neg_one (n : ℕ) : nextindLoop s s.data.length (-1) n = .ok (wrap ((nextStep s)^[n] (-1))) := by
  cases n with
  | zero => exact nextindLoop_zero _ _
  | succ n =>
      rw [Function.iterate_succ_apply, nextStep, nextind_neg_one]
      rcases Nat.eq_zero_or_pos s.data.length with hzero | hpos
      · rw [hzero, nextindLoop, iterate_nextStep_of_le n (by simp [hzero])]
        simp
      · have hloop := (isStart_zero hpos).nextindLoop_eq (s.data.length - 1) (by omega) n
        have hrest := nextindLoop_spec n hpos
        rw [show s.data.length - 1 + 1 = s.data.length by omega] at hloop
        exact (hloop.trans hrest)

end Steps

end Joolia.Strings
