import Joolia.Base.IntFuncs
import Joolia.Library.MixedRadix

namespace Joolia.IntFuncs

open Positional Fallible

section Sizes

variable {w : Width} {x : ℕ}

theorem size_le_bits (hx : x < 2 ^ w.bits) : x.size ≤ w.bits := Nat.size_le.mpr hx

theorem topSetBit_eq (hx : x < 2 ^ w.bits) : topSetBit w x = x.size := by
  have hle := size_le_bits hx
  simp only [topSetBit, leadingZeros, Width.bits] at hle ⊢
  omega

-- A digit of `k` bits for every `k` bits, rounded up.
theorem length_digits_two_pow {k : ℕ} (hk : 0 < k) (x : ℕ) :
    (Nat.digits (2 ^ k) x).length = (x.size + k - 1) / k := by
  have hround := Nat.div_add_mod (x.size + k - 1) k
  have hmod := Nat.mod_lt (x.size + k - 1) hk
  generalize (x.size + k - 1) / k = d at hround
  refine length_digits_eq (Nat.one_lt_two_pow hk.ne') ?_ ?_
  · intro hd
    obtain ⟨e, rfl⟩ := Nat.exists_eq_succ_of_ne_zero hd
    rw [← pow_mul, Nat.succ_sub_one]
    refine Nat.lt_size.mp ?_
    rw [Nat.mul_succ] at hround
    omega
  · rw [← pow_mul]
    refine Nat.size_le.mp ?_
    omega

theorem length_digits_two (x : ℕ) : (Nat.digits 2 x).length = x.size := by
  have h := length_digits_two_pow Nat.one_pos x
  rwa [pow_one, Nat.add_sub_cancel, Nat.div_one] at h

end Sizes

section Decimal

-- The estimate from the number of bits is the number of decimal digits, or one more.
theorem estimate_table : ∀ lz < 65, powersOfTen[(1233 * lz) >>> 12 + 1 - 1]? = some (10 ^ ((1233 * lz) >>> 12)) ∧
    2 ^ lz ≤ 10 ^ ((1233 * lz) >>> 12 + 1) ∧
    ((1233 * lz) >>> 12 ≠ 0 → lz ≠ 0 ∧ 10 ^ ((1233 * lz) >>> 12 - 1) ≤ 2 ^ (lz - 1)) := by
  decide

theorem bitNdigits0zSmall_spec {w : Width} {x : ℕ} (hx : x < 2 ^ w.bits) (hw : x < 2 ^ 64) :
    bitNdigits0zSmall w x = .ok (Nat.digits 10 x).length := by
  have hsize : x.size < 65 := Nat.lt_succ_of_le (Nat.size_le.mpr hw)
  obtain ⟨hpower, hhi, hlo⟩ := estimate_table x.size hsize
  have hxlt : x < 2 ^ x.size := Nat.lt_size_self x
  rw [bitNdigits0zSmall, topSetBit_eq hx]
  generalize (1233 * x.size) >>> 12 = e at hpower hhi hlo
  simp only [hpower]
  congr 1
  by_cases hlt : x < 10 ^ e
  · rw [if_pos hlt, Nat.add_sub_cancel]
    refine (length_digits_eq (by omega) ?_ hlt).symm
    intro he
    obtain ⟨hsome, hpow⟩ := hlo he
    exact hpow.trans (Nat.lt_size.mp (by omega))
  · rw [if_neg hlt, Nat.sub_zero]
    exact (length_digits_eq (by omega) (fun _ => Nat.le_of_not_lt hlt) (by omega)).symm

theorem length_digits_div_pow {b : ℕ} (hb : 1 < b) (k : ℕ) {x : ℕ} (hx : b ^ k ≤ x) :
    (Nat.digits b x).length = (Nat.digits b (x / b ^ k)).length + k := by
  induction k with
  | zero => simp
  | succ k ih =>
      have hle : b ^ k ≤ x := (Nat.pow_le_pow_right (by omega) (Nat.le_succ k)).trans hx
      have hne : x / b ^ k ≠ 0 := by
        have := Nat.div_pos hle (Nat.pow_pos (by omega))
        omega
      rw [ih hle, length_digits_div hb hne, Nat.div_div_eq_div_mul, ← pow_succ]
      omega

theorem size_div_lt {x c : ℕ} (hc : 2 ≤ c) (hx : x ≠ 0) : (x / c).size < x.size := by
  have hle : (x / c).size ≤ (x / 2).size := Nat.size_le_size (Nat.div_le_div_left hc (by omega))
  have hhalf : (x / 2).size + 1 = x.size := by
    rw [← length_digits_two, ← length_digits_two, ← length_digits_div (by omega) hx]
  omega

theorem dropNineteens_spec (fuel x n : ℕ) (hfuel : x.size ≤ fuel) :
    (dropNineteens fuel x n).1 ≤ 0x8ac7230489e80000 ∧
      (Nat.digits 10 (dropNineteens fuel x n).1).length + (dropNineteens fuel x n).2 =
        (Nat.digits 10 x).length + n := by
  induction fuel generalizing x n with
  | zero =>
      obtain rfl : x = 0 := Nat.size_eq_zero.mp (by omega)
      simp [dropNineteens]
  | succ fuel ih =>
      rw [dropNineteens]
      split_ifs with hlarge
      · have hsmaller : (x / 0x8ac7230489e80000).size < x.size := size_div_lt (by omega) (by omega)
        obtain ⟨hle, hlen⟩ := ih (x / 0x8ac7230489e80000) (n + 19) (by omega)
        refine ⟨hle, ?_⟩
        have hpow := length_digits_div_pow (by omega : 1 < 10) 19 (x := x) (by omega)
        rw [hlen, hpow]
        norm_num
        omega
      · exact ⟨by omega, rfl⟩

theorem bitNdigits0z_spec {w : Width} {x : ℕ} (hx : x < 2 ^ w.bits) :
    bitNdigits0z w x = .ok (Nat.digits 10 x).length := by
  rw [bitNdigits0z]
  split_ifs with hw
  · obtain ⟨hle, hlen⟩ := dropNineteens_spec x.size x 0 (Nat.le_refl _)
    generalize dropNineteens x.size x 0 = r at hle hlen
    obtain ⟨y, n⟩ := r
    dsimp only at hle hlen ⊢
    rw [if_neg (by omega), bitNdigits0zSmall_spec (by rw [Width.bits, Width.sizeof]; omega) (by omega)]
    simp only [ok_bind, pure_eq_ok, Except.ok.injEq]
    omega
  · refine bitNdigits0zSmall_spec hx (hx.trans_le ?_)
    cases w with
    | w128 => exact absurd rfl hw
    | _ => exact Nat.pow_le_pow_right (by omega) (by decide)

end Decimal

section Ranges

variable (T : IntType)

theorem typemax_eq : T.typemax = T.typemin + 2 ^ T.width.bits - 1 := by
  obtain ⟨signed, width⟩ := T
  cases signed with
  | false => simp [IntType.typemax, IntType.typemin]
  | true => cases width <;> rfl

-- A value of the type is left alone.
theorem wrap_eq_self {x : ℤ} (hlo : T.typemin ≤ x) (hhi : x ≤ T.typemax) : T.wrap x = x := by
  rw [typemax_eq] at hhi
  rw [IntType.wrap, Int.emod_eq_of_lt (by omega) (by omega)]
  omega

theorem wrap_range (x : ℤ) : T.typemin ≤ T.wrap x ∧ T.wrap x ≤ T.typemax := by
  have hpos : (0 : ℤ) < 2 ^ T.width.bits := by positivity
  have hlo := Int.emod_nonneg (x - T.typemin) hpos.ne'
  have hhi := Int.emod_lt_of_pos (x - T.typemin) hpos
  rw [typemax_eq, IntType.wrap]
  omega

end Ranges

section Loops

variable {b : ℕ}

-- The quotients lose one digit at a time.
theorem shrink_spec (hb : 2 ≤ b) (hsmall : b ≤ 62) (fuel x d : ℕ) (hfuel : x.size ≤ fuel) (hx : x ≠ 0) :
    ((shrink b fuel x d).1 : ℤ) ≤ Int64.typemax ∧ (shrink b fuel x d).1 ≠ 0 ∧
      (Nat.digits b (shrink b fuel x d).1).length + (shrink b fuel x d).2 = (Nat.digits b x).length + d := by
  induction fuel generalizing x d with
  | zero => exact absurd (Nat.size_eq_zero.mp (by omega)) hx
  | succ fuel ih =>
      rw [shrink]
      split_ifs with hlarge
      · have hsmaller : (x / b).size < x.size := size_div_lt hb hx
        have hmax : Int64.typemax = 9223372036854775807 := rfl
        have hpos : 0 < x / b := Nat.div_pos (by omega) (by omega)
        obtain ⟨hle, hne, hlen⟩ := ih (x / b) (d + 1) (by omega) hpos.ne'
        refine ⟨hle, hne, ?_⟩
        rw [hlen, length_digits_div (by omega) hx]
        omega
      · exact ⟨by omega, hx, rfl⟩

-- The powers of the base up to `x` are counted, and none of them overflows.
theorem grow_spec (hb : 2 ≤ b) {x : ℕ} (hx : (x * b : ℤ) ≤ Int64.typemax) (fuel k d : ℕ)
    (hfuel : (Nat.digits b x).length ≤ k + fuel) :
    grow b x fuel ((b ^ k : ℕ) : ℤ) d = d + ((Nat.digits b x).length - k) := by
  induction fuel generalizing k d with
  | zero =>
      rw [grow]
      omega
  | succ fuel ih =>
      have hcount := @Nat.lt_digits_length_iff b k (by omega) x
      rw [grow]
      split_ifs with hle
      · have hle' : b ^ k ≤ x := by exact_mod_cast hle
        have hnext : ((b ^ k : ℕ) : ℤ) * b = ((b ^ (k + 1) : ℕ) : ℤ) := by
          rw [pow_succ]
          push_cast
          ring
        have hbound : ((b ^ (k + 1) : ℕ) : ℤ) ≤ Int64.typemax := by
          refine le_trans ?_ hx
          rw [← hnext]
          exact_mod_cast Nat.mul_le_mul_right b hle'
        have hmin : Int64.typemin = -9223372036854775808 := rfl
        rw [hnext, wrap_eq_self _ (by omega) hbound, ih (k + 1) (d + 1) (by omega)]
        have := hcount.mpr hle'
        omega
      · have hgt : ¬ b ^ k ≤ x := by
          intro h
          exact hle (by exact_mod_cast h)
        have := mt hcount.mp hgt
        omega

theorem length_digits_le_size (hb : 2 ≤ b) (x : ℕ) : (Nat.digits b x).length ≤ x.size := by
  rw [Nat.digits_length_le_iff (by omega)]
  exact (Nat.lt_size_self x).trans_le (Nat.pow_le_pow_left hb _)

end Loops

-- The bases for which the digits are counted in bits.
theorem pow2_table : ∀ b < 63, ispow2 b = true → b ≠ 1 → 0 < trailingZeros b ∧ b = 2 ^ trailingZeros b := by
  set_option maxRecDepth 20000 in decide

theorem div_round_up {s k : ℕ} (hk : 0 < k) : (if s % k = 0 then s / k else s / k + 1) = (s + k - 1) / k := by
  have hdiv := Nat.div_add_mod s k
  have hmod := Nat.mod_lt s hk
  have hcomm := Nat.mul_comm k (s / k)
  split_ifs with h
  · refine (Nat.div_eq_of_lt_le ?_ ?_).symm
    · omega
    · rw [Nat.add_mul]
      omega
  · refine (Nat.div_eq_of_lt_le ?_ ?_).symm
    · rw [Nat.add_mul]
      omega
    · rw [Nat.add_mul, Nat.add_mul]
      omega

-- The estimates, the tables and the loops all give the number of digits.
theorem ndigits0zpb_spec {w : Width} {x b : ℕ} (hx : x < 2 ^ w.bits) (hb : 2 ≤ b) (hsmall : b ≤ 62) :
    ndigits0zpb w x b = .ok (Nat.digits b x).length := by
  rw [ndigits0zpb]
  split_ifs with h0 h2 h8 h16 h10 hpow2
  · simp [h0]
  · rw [topSetBit_eq hx, h2, length_digits_two]
  · rw [topSetBit_eq hx, h8]
    exact congrArg Except.ok (length_digits_two_pow (by omega : 0 < 3) x).symm
  · have hle := size_le_bits hx
    rw [h16]
    refine congrArg Except.ok (Eq.trans ?_ (length_digits_two_pow (by omega : 0 < 4) x).symm)
    simp only [leadingZeros, Width.bits, Nat.shiftLeft_eq, Nat.shiftRight_eq_div_pow] at hle ⊢
    omega
  · rw [bitNdigits0z_spec hx, h10]
  · obtain ⟨hpos, heq⟩ := pow2_table b (by omega) hpow2 (by omega)
    dsimp only
    rw [topSetBit_eq hx, div_round_up hpos, ← length_digits_two_pow hpos, ← heq]
  · obtain ⟨hle, hne, hlen⟩ := shrink_spec hb hsmall x.size x 0 (Nat.le_refl _) h0
    generalize shrink b x.size x 0 = r at hle hne hlen
    obtain ⟨y, d⟩ := r
    dsimp only at hle hne hlen ⊢
    have hfit : ((y / b : ℕ) * b : ℤ) ≤ Int64.typemax := by
      refine le_trans ?_ hle
      exact_mod_cast Nat.div_mul_le_self y b
    have hcount := grow_spec hb hfit ((y / b).size + 1) 0 (d + 1) (by
      have := length_digits_le_size hb (y / b)
      omega)
    rw [pow_zero] at hcount
    have hdiv := length_digits_div (by omega : 1 < b) hne
    refine congrArg Except.ok ?_
    rw [show (1 : ℤ) = ((1 : ℕ) : ℤ) from rfl, hcount]
    omega

end Joolia.IntFuncs
