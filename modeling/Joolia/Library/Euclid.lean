import Mathlib.Algebra.Order.Ring.Abs
import Mathlib.Data.Int.GCD
import Mathlib.Data.Int.ModEq
import Mathlib.Tactic.LinearCombination
import Mathlib.Tactic.Linarith
import Mathlib.Tactic.Ring

namespace Euclid

section Extended

-- A state of the extended algorithm on `A` and `B` with quotients rounded towards zero.
structure Run (A B a b s0 s1 t0 t1 : ℤ) : Prop where
  first : s0 * A + t0 * B = a
  second : s1 * A + t1 * B = b
  det : |s0 * t1 - s1 * t0| = 1
  sign_s : s0 * s1 * (a * b) ≤ 0
  sign_t : t0 * t1 * (a * b) ≤ 0

variable {A B a b s0 s1 t0 t1 : ℤ}

theorem Run.start (A B : ℤ) : Run A B A B 1 0 0 1 where
  first := by ring
  second := by ring
  det := rfl
  sign_s := by simp
  sign_t := by simp

-- A quotient has the sign of the product of its operands, and a remainder that of the first one.
theorem tdiv_mul_nonneg (a b : ℤ) : 0 ≤ a.tdiv b * (a * b) := by
  have hcases : ∀ x y : ℤ, 0 ≤ x → 0 ≤ x.tdiv y * (x * y) := fun x y hx => by
    rcases le_total 0 y with hy | hy
    · exact mul_nonneg (Int.tdiv_nonneg hx hy) (mul_nonneg hx hy)
    · exact mul_nonneg_of_nonpos_of_nonpos (Int.tdiv_nonpos_of_nonneg_of_nonpos hx hy) (mul_nonpos_of_nonneg_of_nonpos hx hy)
  rcases le_total 0 a with ha | ha
  · exact hcases a b ha
  · have h := hcases (-a) b (neg_nonneg.2 ha)
    rw [Int.neg_tdiv] at h
    calc
      0 ≤ -a.tdiv b * (-a * b) := h
      _ = a.tdiv b * (a * b) := by ring

theorem tmod_mul_nonneg (a b : ℤ) : 0 ≤ a.tmod b * a := by
  rcases le_total 0 a with ha | ha
  · exact mul_nonneg (Int.tmod_nonneg b ha) ha
  · have h := mul_nonneg (Int.tmod_nonneg b (neg_nonneg.2 ha)) (neg_nonneg.2 ha)
    rwa [Int.neg_tmod, neg_mul_neg] at h

-- One coefficient: the signs alternate, unless the operands have two signs.
theorem sign_step (h : s0 * s1 * (a * b) ≤ 0) : s1 * (s0 - a.tdiv b * s1) * (b * a.tmod b) ≤ 0 := by
  have hr := tmod_mul_nonneg a b
  have hq := tdiv_mul_nonneg a b
  rcases eq_or_ne (a * b) 0 with h0 | h0
  · rcases mul_eq_zero.1 h0 with rfl | rfl
    · simp
    · simp
  · -- multiplied by a square, both terms have a sign
    have hsq : 0 < (a * b) ^ 2 := by positivity
    have hfirst : s0 * s1 * (a * b) * (a.tmod b * a * b ^ 2) ≤ 0 :=
      mul_nonpos_of_nonpos_of_nonneg h (mul_nonneg hr (sq_nonneg b))
    have hsecond : 0 ≤ a.tdiv b * (a * b) * (a.tmod b * a) * (s1 * b) ^ 2 :=
      mul_nonneg (mul_nonneg hq hr) (sq_nonneg _)
    by_contra hpos
    have hprod : 0 < s1 * (s0 - a.tdiv b * s1) * (b * a.tmod b) * (a * b) ^ 2 := mul_pos (not_le.1 hpos) hsq
    have hexpand : s1 * (s0 - a.tdiv b * s1) * (b * a.tmod b) * (a * b) ^ 2 =
        s0 * s1 * (a * b) * (a.tmod b * a * b ^ 2) - a.tdiv b * (a * b) * (a.tmod b * a) * (s1 * b) ^ 2 := by ring
    linarith

theorem Run.step (h : Run A B a b s0 s1 t0 t1) :
    Run A B b (a.tmod b) s1 (s0 - a.tdiv b * s1) t1 (t0 - a.tdiv b * t1) where
  first := h.second
  second := by
    rw [Int.tmod_def]
    linear_combination h.first - a.tdiv b * h.second
  det := by
    rw [← h.det, ← abs_neg]
    congr 1
    ring
  sign_s := sign_step h.sign_s
  sign_t := sign_step h.sign_t

-- So the coefficients only grow.
theorem abs_step (ha : a ≠ 0) (hb : b ≠ 0) (h : s0 * s1 * (a * b) ≤ 0) : |s0 - a.tdiv b * s1| = |s0| + |a.tdiv b| * |s1| := by
  have hq := tdiv_mul_nonneg a b
  have hopposite : s0 * (a.tdiv b * s1) ≤ 0 := by
    by_contra hpos
    have hsq : 0 < (a * b) ^ 2 := by positivity
    have hprod : s0 * s1 * (a * b) * (a.tdiv b * (a * b)) ≤ 0 := mul_nonpos_of_nonpos_of_nonneg h hq
    have hexpand : s0 * s1 * (a * b) * (a.tdiv b * (a * b)) = s0 * (a.tdiv b * s1) * (a * b) ^ 2 := by ring
    have := mul_pos (not_le.1 hpos) hsq
    linarith
  rw [← abs_mul]
  rcases mul_nonpos_iff.1 hopposite with ⟨h0, h1⟩ | ⟨h0, h1⟩
  · rw [abs_of_nonneg h0, abs_of_nonpos h1, abs_of_nonneg (by linarith)]
    ring
  · rw [abs_of_nonpos h0, abs_of_nonneg h1, abs_of_nonpos (by linarith)]
    ring

-- At the end the last pair holds the two cofactors of the divisor found.
theorem Run.cofactors (h : Run A B a 0 s0 s1 t0 t1) : |A| = |a| * |t1| ∧ |B| = |a| * |s1| := by
  have hA : (s0 * t1 - s1 * t0) * A = a * t1 := by linear_combination t1 * h.first - t0 * h.second
  have hB : (s0 * t1 - s1 * t0) * B = -(a * s1) := by linear_combination -s1 * h.first + s0 * h.second
  have hA' := congrArg abs hA
  have hB' := congrArg abs hB
  rw [abs_mul, h.det, one_mul, abs_mul] at hA'
  rw [abs_mul, h.det, one_mul, abs_neg, abs_mul] at hB'
  exact ⟨hA', hB'⟩

-- A proper divisor is at most half as large.
theorem two_le_abs_tdiv (hlt : |b| < |a|) (hb : b ≠ 0) (hmod : a.tmod b = 0) : 2 ≤ |a.tdiv b| := by
  have hmul := Int.mul_tdiv_add_tmod a b
  rw [hmod, add_zero] at hmul
  have habs : |b| * |a.tdiv b| = |a| := by rw [← abs_mul, hmul]
  have hpos : 0 < |b| := abs_pos.2 hb
  by_contra hsmall
  have hle : |a.tdiv b| ≤ 1 := by omega
  have := mul_le_mul_of_nonneg_left hle hpos.le
  linarith

-- The coefficients of the last divisor are at most half the cofactors of the other numbers.
theorem Run.bounds_of_last (h : Run A B a b s0 s1 t0 t1) (ha : a ≠ 0) (hb : b ≠ 0) (hlt : |b| < |a|) (hmod : a.tmod b = 0) :
    2 * |s1| ≤ |B| ∧ 2 * |t1| ≤ |A| := by
  have hnext := h.step
  rw [hmod] at hnext
  obtain ⟨hA, hB⟩ := hnext.cofactors
  rw [abs_step ha hb h.sign_s] at hB
  rw [abs_step ha hb h.sign_t] at hA
  have hq := two_le_abs_tdiv hlt hb hmod
  have hpos : 1 ≤ |b| := abs_pos.2 hb
  have hgrow : ∀ x y : ℤ, 2 * |y| ≤ |b| * (|x| + |a.tdiv b| * |y|) := fun x y => by
    have hx := abs_nonneg x
    have hy := abs_nonneg y
    have hmul := mul_le_mul_of_nonneg_right hq hy
    calc
      2 * |y| ≤ |x| + |a.tdiv b| * |y| := by linarith
      _ ≤ |b| * (|x| + |a.tdiv b| * |y|) := le_mul_of_one_le_left (by linarith) hpos
  exact ⟨hB ▸ hgrow s0 s1, hA ▸ hgrow t0 t1⟩

end Extended

section Newton

-- One pass of Newton's iteration for an inverse squares the error.
theorem newton_step {n x y z M : ℤ} (hx : n * x ≡ 1 - z [ZMOD M]) (hy : y ≡ z [ZMOD M]) :
    n * (x * (y + 1)) ≡ 1 - z * z [ZMOD M] := by
  calc
    n * (x * (y + 1)) = n * x * (y + 1) := by ring
    _ ≡ (1 - z) * (z + 1) [ZMOD M] := hx.mul (hy.add_right 1)
    _ = 1 - z * z := by ring

-- The first guess is right in five bits.
theorem three_mul_xor_two {r : ℕ} (hlt : r < 32) (hodd : r % 2 = 1) : r * (3 * r % 32 ^^^ 2) % 32 = 1 := by
  have hall : ∀ r < 32, r % 2 = 1 → r * (3 * r % 32 ^^^ 2) % 32 = 1 := by decide
  exact hall r hlt hodd

end Newton

end Euclid
