import Mathlib.Algebra.Order.Group.Nat
import Mathlib.Data.Nat.ModEq
import Mathlib.Tactic.Linarith
import Mathlib.Tactic.Ring

namespace Reciprocal

-- `M` is `2 ^ p / d` rounded up: the product with `d` exceeds the power by `δ`.
structure RoundsUp (d p M δ : ℕ) : Prop where
  mul_eq : M * d = 2 ^ p + δ
  error_le : δ ≤ d

variable {d p M δ n t : ℕ}

theorem RoundsUp.mul_mul (h : RoundsUp d p M δ) (n : ℕ) : n * M * d = n * 2 ^ p + n * δ := by
  rw [Nat.mul_assoc, h.mul_eq, Nat.mul_add]

theorem next_multiple (hd : 0 < d) : n * 2 ^ p + (d - n % d) * 2 ^ p = (n / d + 1) * 2 ^ p * d := by
  have hsplit := Nat.div_add_mod n d
  have hmod := Nat.mod_lt n hd
  have hsum : n + (d - n % d) = d * (n / d + 1) := by
    rw [Nat.mul_add, Nat.mul_one]
    omega
  rw [← Nat.add_mul, hsum]
  ring

theorem le_mul_right (p n d : ℕ) : n / d * 2 ^ p * d ≤ n * 2 ^ p := by
  rw [Nat.mul_right_comm, Nat.mul_comm (n / d)]
  exact Nat.mul_le_mul_right _ (Nat.mul_div_le n d)

-- The quotient is exact as long as the error stays below the distance to the next multiple of `d`.
theorem RoundsUp.mul_div_eq (h : RoundsUp d p M δ) (hd : 0 < d) (hn : n * δ < (d - n % d) * 2 ^ p) :
    n * M / 2 ^ p = n / d := by
  have hprod := h.mul_mul n
  have hnext := next_multiple (p := p) (n := n) hd
  apply Nat.div_eq_of_lt_le
  · apply Nat.le_of_mul_le_mul_right _ hd
    calc
      n / d * 2 ^ p * d ≤ n * 2 ^ p := le_mul_right p n d
      _ ≤ n * M * d := hprod ▸ Nat.le_add_right _ _
  · apply Nat.lt_of_mul_lt_mul_right (a := d)
    omega

-- The same for the quotient of a negative number, which is rounded down first.
theorem RoundsUp.pred_div_eq (h : RoundsUp d p M δ) (hd : 0 < d) (hδ : 0 < δ) (hpos : 0 < n)
    (hn : n * δ ≤ (d - n % d) * 2 ^ p) : (n * M - 1) / 2 ^ p = n / d := by
  have hprod := h.mul_mul n
  have hnext := next_multiple (p := p) (n := n) hd
  have herror : 0 < n * δ := Nat.mul_pos hpos hδ
  have hlo : n / d * 2 ^ p < n * M := by
    apply Nat.lt_of_mul_lt_mul_right (a := d)
    calc
      n / d * 2 ^ p * d ≤ n * 2 ^ p := le_mul_right p n d
      _ < n * M * d := by omega
  have hhi : n * M ≤ (n / d + 1) * 2 ^ p := by
    apply Nat.le_of_mul_le_mul_right _ hd
    omega
  apply Nat.div_eq_of_lt_le <;> omega

-- Below the last multiple of `d` the worst number is the one before it, above it the remainders are small.
theorem error_lt (hδ : δ ≤ d) (hcrit : (d * (t / d) - 1) * δ < 2 ^ p) (hd : 0 < d) (hdt : d ≤ t)
    (hn : n + 1 < d * (t / d) + d) : n * δ < (d - n % d) * 2 ^ p := by
  have hquot : 1 ≤ t / d := (Nat.le_div_iff_mul_le hd).2 (by omega)
  have hle : d ≤ d * (t / d) := Nat.le_mul_of_pos_right d hquot
  have hmod := Nat.mod_lt n hd
  generalize hc : d * (t / d) = c at *
  have hscale : ∀ k, n ≤ k * (c - 1) → 0 < k → n * δ < k * 2 ^ p := by
    intro k hk hpos
    calc
      n * δ ≤ k * (c - 1) * δ := Nat.mul_le_mul_right _ hk
      _ = k * ((c - 1) * δ) := Nat.mul_assoc _ _ _
      _ < k * 2 ^ p := Nat.mul_lt_mul_of_pos_left hcrit hpos
  apply hscale _ _ (by omega)
  rcases Nat.lt_or_ge n c with hlt | hge
  · exact Nat.le_trans (by omega : n ≤ c - 1) (Nat.le_mul_of_pos_left _ (by omega))
  · -- `n` is `c` and its own remainder
    obtain ⟨r, rfl⟩ := Nat.exists_eq_add_of_le hge
    have hr : (c + r) % d = r := by
      rw [← hc, Nat.mul_add_mod, Nat.mod_eq_of_lt (by omega)]
    rw [hr]
    obtain ⟨e, rfl⟩ : ∃ e, d = r + (e + 2) := ⟨d - r - 2, by omega⟩
    obtain ⟨b, rfl⟩ : ∃ b, c = r + (e + 2) + b := ⟨c - (r + (e + 2)), by omega⟩
    have hsub : r + (e + 2) - r = e + 2 := by omega
    have hpred : r + (e + 2) + b - 1 = r + e + 1 + b := by omega
    rw [hsub, hpred]
    have hfactor : r + e + 1 + b ≤ (e + 1) * (r + e + 1 + b) := Nat.le_mul_of_pos_left _ (by omega)
    have hexpand : (e + 2) * (r + e + 1 + b) = (e + 1) * (r + e + 1 + b) + (r + e + 1 + b) := by ring
    have hmore : e * (r + e + 1 + b) + (r + e + 1 + b) = (e + 1) * (r + e + 1 + b) := by ring
    have hle' : e ≤ e * (r + e + 1 + b) := Nat.le_mul_of_pos_right _ (by omega)
    omega

-- A power of two one below a multiple of `d` takes the error of the smaller power.
theorem RoundsUp.error_le_two_pow (h : RoundsUp d p M δ) {k : ℕ} (hk : k ≤ p) (hmod : 2 ^ k % d + 1 = d) :
    δ ≤ 2 ^ (p - k) := by
  by_contra hlt
  have hpow : 2 ^ p = 2 ^ k * 2 ^ (p - k) := by rw [← Nat.pow_add, Nat.add_sub_of_le hk]
  have hdvd : d ∣ 2 ^ k + 1 := by
    apply Nat.dvd_of_mod_eq_zero
    rw [Nat.add_mod, Nat.add_mod_mod, hmod, Nat.mod_self]
  have hdvd' : d ∣ δ - 2 ^ (p - k) := by
    have hsum : (2 ^ k + 1) * 2 ^ (p - k) + (δ - 2 ^ (p - k)) = M * d := by
      rw [h.mul_eq, hpow, Nat.add_mul, Nat.one_mul]
      omega
    apply (Nat.dvd_add_right (Dvd.dvd.mul_right hdvd _)).1
    rw [hsum]
    exact Nat.dvd_mul_left d M
  have hle := Nat.le_of_dvd (by omega) hdvd'
  have herror := h.error_le
  have hpos : 0 < 2 ^ (p - k) := Nat.pow_pos (by omega)
  omega

-- At a power of two itself the error may reach the distance.
theorem RoundsUp.two_pow_error_le (h : RoundsUp d p M δ) {k : ℕ} (hk : k ≤ p) (hd : 0 < d) (hdt : d ≤ 2 ^ k)
    (hcrit : (d * (2 ^ k / d) - 1) * δ < 2 ^ p) (hn : n ≤ 2 ^ k) : n * δ ≤ (d - n % d) * 2 ^ p := by
  have hsplit := Nat.div_add_mod (2 ^ k) d
  have hmod := Nat.mod_lt (2 ^ k) hd
  by_cases hlast : n + 1 < d * (2 ^ k / d) + d
  · exact (error_lt h.error_le hcrit hd hdt hlast).le
  · obtain rfl : n = 2 ^ k := by omega
    have hpred : 2 ^ k % d + 1 = d := by omega
    have hone : d - 2 ^ k % d = 1 := by omega
    rw [hone, Nat.one_mul]
    calc
      2 ^ k * δ ≤ 2 ^ k * 2 ^ (p - k) := Nat.mul_le_mul_left _ (h.error_le_two_pow hk hpred)
      _ = 2 ^ p := by rw [← Nat.pow_add, Nat.add_sub_of_le hk]

-- A multiplier for which the previous power was too small
theorem mul_le_of_prev {c e : ℕ} (hM : M * d = 2 ^ p + δ) (hδ : δ ≤ e) (hprev : 2 ^ p ≤ 2 * (c * e)) :
    M * d ≤ (2 * c + 1) * e := by
  rw [hM, Nat.add_mul, Nat.one_mul, Nat.mul_assoc]
  exact Nat.add_le_add hprev hδ

section Doubling

variable {x m : ℕ}

-- Twice a number and a bit, divided with the quotient and the remainder of the number itself.
theorem double_div_mod_of_le {b : ℕ} (hm : 0 < m) (hb : b ≤ 1) (h : m ≤ 2 * (x % m) + b) :
    (2 * x + b) / m = 2 * (x / m) + 1 ∧ (2 * x + b) % m = 2 * (x % m) + b - m := by
  have hlt := Nat.mod_lt x hm
  apply (Nat.div_mod_unique hm).2
  refine ⟨?_, by omega⟩
  calc
    2 * (x % m) + b - m + m * (2 * (x / m) + 1) = 2 * (x % m) + b - m + m + 2 * (m * (x / m)) := by ring
    _ = 2 * (m * (x / m) + x % m) + b := by omega
    _ = 2 * x + b := by rw [Nat.div_add_mod]

theorem double_div_mod_of_lt {b : ℕ} (h : 2 * (x % m) + b < m) :
    (2 * x + b) / m = 2 * (x / m) ∧ (2 * x + b) % m = 2 * (x % m) + b := by
  apply (Nat.div_mod_unique (by omega)).2
  refine ⟨?_, h⟩
  calc
    2 * (x % m) + b + m * (2 * (x / m)) = 2 * (m * (x / m) + x % m) + b := by ring
    _ = 2 * x + b := by rw [Nat.div_add_mod]

-- A quotient against a bound is the product against the dividend.
theorem div_lt_or_eq_iff (hm : 0 < m) (b : ℕ) : (x / m < b ∨ (x / m = b ∧ x % m = 0)) ↔ x ≤ m * b := by
  have hsplit := Nat.div_add_mod x m
  have hlt := Nat.mod_lt x hm
  constructor
  · rintro (h | ⟨h, hzero⟩)
    · have hle : m * (x / m + 1) ≤ m * b := Nat.mul_le_mul_left m h
      rw [Nat.mul_add, Nat.mul_one] at hle
      omega
    · rw [← h]
      omega
  · intro h
    rcases Nat.lt_trichotomy (x / m) b with hb | hb | hb
    · exact .inl hb
    · refine .inr ⟨hb, ?_⟩
      rw [hb] at hsplit
      omega
    · have hle : m * (b + 1) ≤ m * (x / m) := Nat.mul_le_mul_left m hb
      rw [Nat.mul_add, Nat.mul_one] at hle
      omega

end Doubling

end Reciprocal
