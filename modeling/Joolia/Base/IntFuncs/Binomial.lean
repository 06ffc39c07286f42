import Joolia.Base.IntFuncs.NDigits
import Mathlib.Algebra.Ring.Int.Defs
import Mathlib.Algebra.Ring.Nat
import Mathlib.Data.Nat.Choose.Factorization
import Mathlib.Data.Nat.Factorial.BigOperators

namespace Joolia.IntFuncs

section Code

variable (T : IntType)

inductive BinomialError
  | overflowError (n k : ℤ)
  | outOfFuel
deriving DecidableEq, Repr

-- `flipsign(x, x ⊻ y)`
def copysign (x y : ℤ) : ℤ := if decide (x < 0) = decide (y < 0) then x else T.wrap (-x)

-- `while rr <= k ... end`; the product is taken in a wider type.
def binomialLoop (n0 k0 k : ℤ) : ℕ → ℤ → ℤ → ℤ → Except BinomialError ℤ
  | 0, _, _, _ => .error .outOfFuel
  | fuel + 1, x, nn, rr =>
      if rr ≤ k then
        let xt := (x * nn).tdiv rr
        let x := T.wrap xt
        if x = xt then binomialLoop n0 k0 k fuel x (T.wrap (nn + 1)) (T.wrap (rr + 1))
        else .error (.overflowError n0 k0)
      else .ok x

-- `binomial` from `k > n && return zero(T)` on
def binomialNonneg (n0 k0 n k sgn : ℤ) : Except BinomialError ℤ :=
  if k > n then .ok 0
  else if k = 0 ∨ k = n then .ok sgn
  else if k = 1 then .ok (T.wrap (sgn * n))
  else do
    let k := if k > n / 2 then T.wrap (n - k) else k
    let nn := T.wrap (T.wrap (n - k) + 1)
    let x ← binomialLoop T n0 k0 k k.toNat nn (T.wrap (nn + 1)) 2
    return copysign T x sgn

def binomial (n k : ℤ) : Except BinomialError ℤ :=
  if k < 0 then .ok 0
  else if n < 0 then
    binomialNonneg T n k (T.wrap (T.wrap (T.wrap (-n) + k) - 1)) k (if k % 2 = 1 then T.wrap (-1) else 1)
  else binomialNonneg T n k n k 1

end Code

section Wrap

variable {T : IntType}

theorem wrap_add_mul (x m : ℤ) : T.wrap (x + 2 ^ T.width.bits * m) = T.wrap x := by
  rw [IntType.wrap, IntType.wrap, add_sub_right_comm, Int.add_mul_emod_self_left]

-- A wrapped operand is as good as the operand itself.
theorem exists_wrap (x : ℤ) : ∃ m, T.wrap x = x + 2 ^ T.width.bits * m := by
  refine ⟨-((x - T.typemin) / 2 ^ T.width.bits), ?_⟩
  have hdiv := Int.emod_add_mul_ediv (x - T.typemin) (2 ^ T.width.bits)
  rw [IntType.wrap]
  linarith

theorem wrap_wrap_add (x y : ℤ) : T.wrap (T.wrap x + y) = T.wrap (x + y) := by
  obtain ⟨m, hm⟩ := exists_wrap (T := T) x
  rw [hm, show x + 2 ^ T.width.bits * m + y = x + y + 2 ^ T.width.bits * m by ring]
  exact wrap_add_mul (x + y) m

end Wrap

section Coefficient

open Nat

-- n(n-1)...(n-k+1)/k!, and zero for a negative `k`
def generalized (n k : ℤ) : ℤ := if k < 0 then 0 else (∏ i ∈ Finset.range k.toNat, (n - i)) / (k.toNat ! : ℤ)

theorem generalized_natCast (n k : ℕ) : generalized n k = n.choose k := by
  have hprod : (∏ i ∈ Finset.range k, ((n : ℤ) - i)) = (k ! : ℤ) * n.choose k := by
    rcases Nat.lt_or_ge n k with hlt | hle
    · rw [Nat.choose_eq_zero_of_lt hlt, Nat.cast_zero, mul_zero]
      exact Finset.prod_eq_zero (Finset.mem_range.mpr hlt) (sub_self _)
    · rw [← Nat.cast_mul, ← Nat.descFactorial_eq_factorial_mul_choose, Nat.descFactorial_eq_prod_range, Nat.cast_prod]
      refine Finset.prod_congr rfl fun i hi => ?_
      rw [Nat.cast_sub (by have := Finset.mem_range.mp hi; omega)]
  rw [generalized, if_neg (by omega), Int.toNat_natCast, hprod]
  exact Int.mul_ediv_cancel_left _ (by exact_mod_cast k.factorial_ne_zero)

-- The coefficient of `-n` is that of `n + k - 1`, up to the sign.
theorem generalized_neg (n k : ℕ) : generalized (-n) k = (-1) ^ k * (n + k - 1).choose k := by
  have hprod : (∏ i ∈ Finset.range k, (-(n : ℤ) - i)) = (k ! : ℤ) * ((-1) ^ k * (n + k - 1).choose k) := by
    calc (∏ i ∈ Finset.range k, (-(n : ℤ) - i))
        = ∏ i ∈ Finset.range k, (-1 : ℤ) * ((n + i : ℕ) : ℤ) :=
          Finset.prod_congr rfl fun i _ => by push_cast; ring
      _ = (-1) ^ k * ((n.ascFactorial k : ℕ) : ℤ) := by
          rw [Finset.prod_mul_distrib, Finset.prod_const, Finset.card_range, Nat.ascFactorial_eq_prod_range, Nat.cast_prod]
      _ = (k ! : ℤ) * ((-1) ^ k * (n + k - 1).choose k) := by
          rw [Nat.ascFactorial_eq_factorial_mul_choose']
          push_cast
          ring
  rw [generalized, if_neg (by omega), Int.toNat_natCast, hprod]
  exact Int.mul_ediv_cancel_left _ (by exact_mod_cast k.factorial_ne_zero)

-- Between the first and the last column
theorem le_choose {n k : ℕ} (hlo : 1 ≤ k) (hhi : k + 1 ≤ n) : n ≤ n.choose k := by
  induction n generalizing k with
  | zero => omega
  | succ n ih =>
      obtain ⟨j, rfl⟩ := Nat.exists_eq_add_of_le' hlo
      rw [Nat.choose_succ_succ']
      rcases Nat.eq_zero_or_pos j with rfl | hj
      · rw [Nat.choose_zero_right, Nat.choose_one_right, Nat.add_comm]
      · have hleft : n ≤ n.choose j := ih hj (by omega)
        have hright : 0 < n.choose (j + 1) := Nat.choose_pos (by omega)
        omega

theorem lt_choose {n k : ℕ} (hlo : 2 ≤ k) (hhi : k + 2 ≤ n) : n < n.choose k := by
  obtain ⟨j, rfl⟩ := Nat.exists_eq_add_of_le' (show 1 ≤ k by omega)
  obtain ⟨m, rfl⟩ := Nat.exists_eq_add_of_le' (show 1 ≤ n by omega)
  have hleft : m ≤ m.choose j := le_choose (by omega) (by omega)
  have hright : m ≤ m.choose (j + 1) := le_choose (by omega) (by omega)
  rw [Nat.choose_succ_succ']
  omega

-- A power of two is a coefficient in the outer columns only: it would divide into more factors of two than `n` has room for.
theorem choose_ne_two_pow {n k e : ℕ} (hlo : 2 ≤ k) (hhi : k + 2 ≤ n) : n.choose k ≠ 2 ^ e := by
  intro heq
  have hlarge : n < n.choose k := lt_choose hlo hhi
  have hpow : 2 ^ e ≤ n := by
    have hle := Nat.pow_factorization_choose_le (p := 2) (k := k) (show 0 < n by omega)
    rwa [heq, Nat.Prime.factorization_pow Nat.prime_two, Finsupp.single_eq_same] at hle
  omega

end Coefficient

section Loop

variable {T : IntType} {n0 k0 : ℤ}

-- Each pass turns a coefficient into the next one of its diagonal; the coefficients grow, so a product that does not fit stands
-- for a result that does not fit.
variable (n0 k0) in
theorem binomialLoop_spec {m k : ℕ} (hmin : T.typemin ≤ 0) (hmax : (m + k : ℤ) ≤ T.typemax) (hm : 1 ≤ m) (fuel r : ℕ)
    (nn : ℤ) (hr : 1 ≤ r) (hrk : r ≤ k) (hfuel : k < r + fuel) (hnn : r < k → nn = m + r + 1)
    (hfits : ((m + r).choose r : ℤ) ≤ T.typemax) :
    binomialLoop T n0 k0 k fuel ((m + r).choose r) nn (r + 1) =
      if ((m + k).choose k : ℤ) ≤ T.typemax then .ok ((m + k).choose k) else .error (.overflowError n0 k0) := by
  induction fuel generalizing r nn with
  | zero => omega
  | succ fuel ih =>
      rw [binomialLoop]
      rcases Nat.eq_or_lt_of_le hrk with rfl | hlt
      · rw [if_neg (by omega), if_pos hfits]
      · have hnext : ((m + r).choose r : ℤ) * nn = (m + (r + 1)).choose (r + 1) * (r + 1 : ℤ) := by
          have h := Nat.add_one_mul_choose_eq (m + r) r
          rw [Nat.add_assoc, ← Nat.cast_inj (R := ℤ)] at h
          push_cast at h
          rw [hnn hlt, ← h]
          ring
        have hdiv : (((m + r).choose r : ℤ) * nn).tdiv (r + 1) = (m + (r + 1)).choose (r + 1) := by
          rw [hnext]
          exact Int.mul_tdiv_cancel _ (by omega)
        rw [if_pos (by omega)]
        simp only [hdiv]
        by_cases hsmall : ((m + (r + 1)).choose (r + 1) : ℤ) ≤ T.typemax
        · have hwrap : T.wrap ((m + (r + 1)).choose (r + 1)) = (m + (r + 1)).choose (r + 1) :=
            wrap_eq_self _ (by omega) hsmall
          have hrr : T.wrap ((r : ℤ) + 1 + 1) = ((r + 1 : ℕ) : ℤ) + 1 := by
            rw [wrap_eq_self _ (by omega) (by omega)]
            push_cast
            ring
          rw [hwrap, if_pos rfl, hrr]
          refine ih (r + 1) _ (by omega) hlt (by omega) (fun h => ?_) hsmall
          rw [hnn hlt, wrap_eq_self _ (by omega) (by omega)]
          push_cast
          ring
        · have hwrap : T.wrap ((m + (r + 1)).choose (r + 1)) ≠ (m + (r + 1)).choose (r + 1) := by
            intro h
            have hle := (wrap_range T ((m + (r + 1)).choose (r + 1))).2
            omega
          have hgrow : (m + (r + 1)).choose (r + 1) ≤ (m + k).choose k := by
            rw [← Nat.choose_symm_add, ← Nat.choose_symm_add]
            exact Nat.choose_le_choose m (by omega)
          rw [if_neg hwrap, if_neg (by omega)]

end Loop

section Exact

variable {T : IntType}

-- The value if it is one of the type, or else the error
def representable (T : IntType) (n k v : ℤ) : Except BinomialError ℤ :=
  if T.typemin ≤ v ∧ v ≤ T.typemax then .ok v else .error (.overflowError n k)

theorem copysign_one {x : ℤ} (hx : 0 ≤ x) : copysign T x 1 = x := by
  rw [copysign, decide_eq_false (by omega), decide_eq_false (by omega), if_pos rfl]

theorem copysign_neg_one {x : ℤ} (hx : 0 ≤ x) (hlo : T.typemin ≤ -x) (hhi : -x ≤ T.typemax) : copysign T x (-1) = -x := by
  rw [copysign, decide_eq_false (by omega), decide_eq_true (by omega), if_neg Bool.false_ne_true, wrap_eq_self _ hlo hhi]

-- The columns that the loop computes.
theorem binomialNonneg_loop {n0 k0 : ℤ} {n k : ℕ} (hmin : T.typemin ≤ 0) (hmax : (n : ℤ) ≤ T.typemax) (hlo : 2 ≤ k) (hhi : k < n) (sgn : ℤ) :
    binomialNonneg T n0 k0 n k sgn =
      if (n.choose k : ℤ) ≤ T.typemax then .ok (copysign T (n.choose k) sgn) else .error (.overflowError n0 k0) := by
  obtain ⟨m, j, hm, hj, hsum, hmj, hcol, hj'⟩ : ∃ m j : ℕ, 1 ≤ m ∧ 1 ≤ j ∧ m + j = n ∧ j ≤ m ∧ n.choose j = n.choose k ∧
      (if (k : ℤ) > n / 2 then T.wrap (n - k) else (k : ℤ)) = j := by
    by_cases hhalf : (k : ℤ) > n / 2
    · refine ⟨k, n - k, by omega, by omega, by omega, by omega, Nat.choose_symm hhi.le, ?_⟩
      rw [if_pos hhalf, wrap_eq_self _ (by omega) (by omega), Nat.cast_sub hhi.le]
    · exact ⟨n - k, k, by omega, by omega, by omega, by omega, rfl, if_neg hhalf⟩
  rw [binomialNonneg, if_neg (by omega), if_neg (by omega), if_neg (by omega), hj']
  have hnn : T.wrap (T.wrap (n - j) + 1) = ((m + 1).choose 1 : ℕ) := by
    rw [wrap_wrap_add, wrap_eq_self _ (by omega) (by omega), Nat.choose_one_right]
    omega
  have hfirst : ((m + 1).choose 1 : ℤ) ≤ T.typemax := by
    rw [Nat.choose_one_right]
    omega
  have hrun := binomialLoop_spec n0 k0 hmin (by omega) hm j 1 (T.wrap (((m + 1).choose 1 : ℕ) + 1)) (Nat.le_refl 1) hj (by omega)
    (fun h => by
      rw [Nat.choose_one_right, wrap_eq_self _ (by omega) (by omega)]
      push_cast
      ring) hfirst
  rw [hsum, hcol] at hrun
  simp only [hnn, Int.toNat_natCast]
  rw [show (2 : ℤ) = ((1 : ℕ) : ℤ) + 1 by norm_num, hrun]
  split_ifs <;> rfl

theorem binomialNonneg_spec {n0 k0 : ℤ} {n k : ℕ} (hsigned : T.signed = true) (hmax : (n : ℤ) ≤ T.typemax) {sgn : ℤ}
    (hsgn : sgn = 1 ∨ sgn = -1) : binomialNonneg T n0 k0 n k sgn = representable T n0 k0 (sgn * n.choose k) := by
  have hmin : T.typemin = -(T.typemax + 1) := by
    rw [typemax_eq, IntType.typemin, if_pos hsigned]
    cases T.width <;> norm_num [Width.bits, Width.sizeof]
  have hone : 1 ≤ T.typemax := by
    rw [IntType.typemax, if_pos hsigned]
    cases T.width <;> norm_num [Width.bits, Width.sizeof]
  by_cases hgt : n < k
  · rw [binomialNonneg, if_pos (by omega), Nat.choose_eq_zero_of_lt hgt, Nat.cast_zero, mul_zero]
    exact (if_pos ⟨by omega, by omega⟩).symm
  by_cases hends : k = 0 ∨ k = n
  · have hchoose : n.choose k = 1 := Nat.choose_eq_one_iff.mpr (hends.imp id Eq.symm)
    rw [binomialNonneg, if_neg (by omega), if_pos (by omega), hchoose, Nat.cast_one, mul_one]
    exact (if_pos (by omega)).symm
  by_cases hk : k = 1
  · have hrange : T.typemin ≤ sgn * n ∧ sgn * n ≤ T.typemax := by
      rcases hsgn with rfl | rfl <;> omega
    rw [binomialNonneg, if_neg (by omega), if_neg (by omega), if_pos (by omega), hk, Nat.choose_one_right,
      wrap_eq_self _ hrange.1 hrange.2]
    exact (if_pos hrange).symm
  rw [binomialNonneg_loop (by omega) hmax (by omega) (by omega), representable]
  rcases hsgn with rfl | rfl
  · rw [one_mul, copysign_one (by omega)]
    exact if_congr ⟨fun h => ⟨by omega, h⟩, And.right⟩ rfl rfl
  · -- The one coefficient that fits only with the sign would be the power of two.
    have hpow : (n.choose k : ℤ) ≠ T.typemax + 1 := by
      by_cases hlast : k + 2 ≤ n
      · have hne := choose_ne_two_pow (e := T.width.bits - 1) (show 2 ≤ k by omega) hlast
        rw [IntType.typemax, if_pos hsigned]
        intro h
        apply hne
        have hcast : ((n.choose k : ℕ) : ℤ) = ((2 ^ (T.width.bits - 1) : ℕ) : ℤ) := by
          push_cast
          omega
        exact_mod_cast hcast
      · obtain rfl : n = k + 1 := by omega
        rw [Nat.choose_succ_self_right]
        omega
    by_cases hfits : (n.choose k : ℤ) ≤ T.typemax
    · rw [if_pos hfits, if_pos (by omega), copysign_neg_one (by omega) (by omega) (by omega)]
      ring_nf
    · rw [if_neg hfits, if_neg (by omega)]

-- The reflected argument `k - n - 1`, if it is a value of the type
theorem binomial_of_neg {n k : ℕ} (hsigned : T.signed = true) (hn : 0 < n) (hmax : (n + k - 1 : ℤ) ≤ T.typemax) :
    binomial T (-n) k = representable T (-n) k (generalized (-n) k) := by
  have hmin : T.typemin ≤ -1 := by
    rw [IntType.typemin, if_pos hsigned]
    cases T.width <;> norm_num [Width.bits, Width.sizeof]
  have hreflect : T.wrap (T.wrap (T.wrap (- -(n : ℤ)) + k) - 1) = ((n + k - 1 : ℕ) : ℤ) := by
    rw [wrap_wrap_add, Int.sub_eq_add_neg, wrap_wrap_add, wrap_eq_self _ (by omega) (by omega)]
    omega
  have hsgn : (if (k : ℤ) % 2 = 1 then T.wrap (-1) else 1) = (-1) ^ k := by
    rcases Nat.even_or_odd k with heven | hodd
    · have := Nat.even_iff.mp heven
      rw [if_neg (by omega), heven.neg_one_pow]
    · have := Nat.odd_iff.mp hodd
      rw [if_pos (by omega), hodd.neg_one_pow, wrap_eq_self _ hmin (by omega)]
  rw [binomial, if_neg (by omega), if_pos (by omega), hreflect, hsgn, generalized_neg]
  exact binomialNonneg_spec hsigned (by omega) (neg_one_pow_eq_or ℤ k)

-- Beyond it the reflected argument is negative, and the answer is the zero of an empty column.
theorem binomial_of_wrapped {n k : ℕ} (hsigned : T.signed = true) (hn : 0 < n) (hlarge : T.typemax < (n + k - 1 : ℤ))
    (hnmin : T.typemin ≤ -n) (hkmax : (k : ℤ) ≤ T.typemax) : binomial T (-n) k = .ok 0 := by
  have htype := typemax_eq T
  have hmin : T.typemin = -(T.typemax + 1) := by
    rw [typemax_eq, IntType.typemin, if_pos hsigned]
    cases T.width <;> norm_num [Width.bits, Width.sizeof]
  have hreflect : T.wrap (T.wrap (T.wrap (- -(n : ℤ)) + k) - 1) = n + k - 1 - 2 ^ T.width.bits := by
    rw [wrap_wrap_add, Int.sub_eq_add_neg, wrap_wrap_add,
      show - -(n : ℤ) + k + -1 = n + k - 1 - 2 ^ T.width.bits + 2 ^ T.width.bits * 1 by ring, wrap_add_mul]
    exact wrap_eq_self _ (by omega) (by omega)
  rw [binomial, if_neg (by omega), if_pos (by omega), hreflect, binomialNonneg]
  exact if_pos (by omega)

theorem representable_ne_zero {n k v : ℤ} (hv : v ≠ 0) : representable T n k v ≠ .ok 0 := by
  rw [representable]
  split_ifs
  · exact fun h => hv (Except.ok.inj h)
  · exact fun h => nomatch h

end Exact

-- The coefficient or the error, unless the reflection of a negative `n` leaves the type.
theorem binomial_exact_iff (n k : MachineInt Int64) :
    binomial Int64 n.val k.val = representable Int64 n.val k.val (generalized n.val k.val) ↔
      0 ≤ n.val ∨ k.val - n.val - 1 ≤ Int64.typemax := by
  obtain ⟨n, hnlo, hnhi⟩ := n
  obtain ⟨k, hklo, hkhi⟩ := k
  dsimp only
  have hmin : Int64.typemin = -(Int64.typemax + 1) := rfl
  have hpos : 0 < Int64.typemax := by decide
  rcases lt_or_ge k 0 with hk | hk
  · rw [binomial, if_pos hk, generalized, if_pos hk, representable, if_pos (by omega)]
    exact iff_of_true rfl (by omega)
  obtain ⟨k, rfl⟩ := Int.eq_ofNat_of_zero_le hk
  rcases lt_or_ge n 0 with hn | hn
  · obtain ⟨m, rfl⟩ := Int.eq_negSucc_of_lt_zero hn
    rw [Int.negSucc_eq, ← Nat.cast_succ] at *
    by_cases hfits : ((m.succ : ℕ) + k - 1 : ℤ) ≤ Int64.typemax
    · exact iff_of_true (binomial_of_neg rfl m.succ_pos hfits) (by omega)
    · refine iff_of_false ?_ (by omega)
      rw [binomial_of_wrapped rfl m.succ_pos (by omega) hnlo hkhi, generalized_neg]
      have hchoose : 0 < (m.succ + k - 1).choose k := Nat.choose_pos (by omega)
      refine (representable_ne_zero (mul_ne_zero ?_ (by omega))).symm
      exact pow_ne_zero k (by decide)
  · obtain ⟨n, rfl⟩ := Int.eq_ofNat_of_zero_le hn
    refine iff_of_true ?_ (Or.inl hn)
    rw [binomial, if_neg (by omega), if_neg (by omega), generalized_natCast,
      binomialNonneg_spec rfl hnhi (Or.inl rfl), one_mul]

theorem binomial_typemin_one : ¬∀ n k : MachineInt Int64,
    binomial Int64 n.val k.val = representable Int64 n.val k.val (generalized n.val k.val) := by
  intro h
  exact absurd (h ⟨Int64.typemin, by decide, by decide⟩ ⟨1, by decide, by decide⟩) (by decide)

end Joolia.IntFuncs
