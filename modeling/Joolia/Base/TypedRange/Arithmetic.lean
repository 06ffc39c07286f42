import Joolia.Base.TypedRange
import Mathlib.Data.Int.ModEq
import Mathlib.Algebra.Order.Ring.Abs
import Mathlib.Tactic.Ring

namespace Joolia.TypedRange

open IntFuncs

-- A value of the type
def Holds (T : IntType) (x : ℤ) : Prop := T.typemin ≤ x ∧ x ≤ T.typemax

instance (T : IntType) (x : ℤ) : Decidable (Holds T x) := inferInstanceAs (Decidable (_ ∧ _))

section Wrapping

variable {T U : IntType} {x y : ℤ}

theorem holds_wrap (T : IntType) (x : ℤ) : Holds T (T.wrap x) := wrap_range T x

theorem wrap_of_holds (h : Holds T x) : T.wrap x = x := wrap_eq_self T h.1 h.2

theorem holds_val (x : MachineInt T) : Holds T x.val := ⟨x.min_le, x.le_max⟩

theorem wrap_modEq (T : IntType) (x : ℤ) : T.wrap x ≡ x [ZMOD 2 ^ T.width.bits] := wrap_emod x

theorem wrap_congr (h : x ≡ y [ZMOD 2 ^ T.width.bits]) : T.wrap x = T.wrap y := by
  have hsub : (x - T.typemin) % 2 ^ T.width.bits = (y - T.typemin) % 2 ^ T.width.bits := h.sub_right _
  rw [IntType.wrap, IntType.wrap, hsub]

-- Two values with the same low bits are equal.
theorem eq_of_modEq (hx : Holds T x) (hy : Holds T y) (h : x ≡ y [ZMOD 2 ^ T.width.bits]) : x = y := by
  rw [← wrap_of_holds hx, ← wrap_of_holds hy, wrap_congr h]

theorem wrap_eq_iff : T.wrap x = x ↔ Holds T x := ⟨fun h => h ▸ holds_wrap T x, wrap_of_holds⟩

theorem wrap_wrap_of_le (h : T.width.bits ≤ U.width.bits) (x : ℤ) : T.wrap (U.wrap x) = T.wrap x :=
  wrap_congr ((wrap_modEq U x).of_dvd (pow_dvd_pow 2 h))

theorem bits_promote (T U : IntType) : (promote T U).width.bits = max T.width.bits U.width.bits := by
  unfold promote
  split_ifs with hlt hgt
  · exact (Nat.max_eq_right hlt.le).symm
  · exact (Nat.max_eq_left hgt.le).symm
  · exact (Nat.max_eq_left (Nat.not_lt.1 hlt)).symm

theorem plus_eq (T U : IntType) (x y : ℤ) : plus T U x y = (promote T U).wrap (x + y) :=
  wrap_congr ((wrap_modEq _ x).add (wrap_modEq _ y))

theorem times_eq (T U : IntType) (x y : ℤ) : times T U x y = (promote T U).wrap (x * y) :=
  wrap_congr ((wrap_modEq _ x).mul (wrap_modEq _ y))

theorem typemin_nonpos (T : IntType) : T.typemin ≤ 0 := by
  unfold IntType.typemin
  split_ifs
  · exact neg_nonpos.2 (by positivity)
  · exact le_rfl

theorem holds_zero (T : IntType) : Holds T 0 := by
  refine ⟨typemin_nonpos T, ?_⟩
  unfold IntType.typemax
  split_ifs
  · have hpos : (0 : ℤ) < 2 ^ (T.width.bits - 1) := by positivity
    omega
  · have hpos : (0 : ℤ) < 2 ^ T.width.bits := by positivity
    omega

theorem holds_one (T : IntType) : Holds T 1 := by
  obtain ⟨signed, width⟩ := T
  cases signed <;> cases width <;> decide

theorem convert_of_holds (h : Holds T x) : convert T x = .ok x := if_pos h

theorem convert_of_not_holds (h : ¬Holds T x) : convert T x = .error .InexactError := if_neg h

theorem width_bits_pos (w : Width) : 0 < w.bits := by cases w <;> decide

theorem width_eq_of_bits {v w : Width} (h : v.bits = w.bits) : v = w := by
  cases v <;> cases w <;> first | rfl | cases h

theorem promote_comm (T U : IntType) : promote T U = promote U T := by
  unfold promote
  split_ifs with hlt hgt hgt
  · exact absurd hgt hlt.not_gt
  · rfl
  · rfl
  · rw [Bool.and_comm, width_eq_of_bits (Nat.le_antisymm (Nat.not_lt.1 hgt) (Nat.not_lt.1 hlt))]

theorem typemin_signed {w : Width} : (⟨true, w⟩ : IntType).typemin = -2 ^ (w.bits - 1) := rfl

theorem typemin_unsigned {w : Width} : (⟨false, w⟩ : IntType).typemin = 0 := rfl

theorem typemax_signed {w : Width} : (⟨true, w⟩ : IntType).typemax = 2 ^ (w.bits - 1) - 1 := rfl

theorem typemax_unsigned {w : Width} : (⟨false, w⟩ : IntType).typemax = 2 ^ w.bits - 1 := rfl

theorem two_pow_bits (w : Width) : (2 : ℤ) ^ w.bits = 2 * 2 ^ (w.bits - 1) := by
  rw [← pow_succ', Nat.sub_add_cancel (width_bits_pos w)]

-- Promotion loses a value only when it is negative and the common type is unsigned.
theorem holds_promote (hx : Holds T x) : Holds (promote T U) x ∨ (promote T U).signed = false ∧ x < 0 := by
  obtain ⟨ts, tw⟩ := T
  obtain ⟨us, uw⟩ := U
  have htw := two_pow_bits tw
  have huw := two_pow_bits uw
  have htpos : (0 : ℤ) < 2 ^ (tw.bits - 1) := by positivity
  unfold promote
  split_ifs with hlt hgt
  · have hle : (2 : ℤ) ^ tw.bits ≤ 2 ^ (uw.bits - 1) := pow_le_pow_right₀ (by omega) (by dsimp only at hlt; omega)
    unfold Holds at hx ⊢
    cases us <;> cases ts <;>
      simp only [typemin_signed, typemin_unsigned, typemax_signed, typemax_unsigned, Bool.true_eq_false, false_and, or_false,
        true_and] at hx ⊢ <;> omega
  · exact .inl hx
  · unfold Holds at hx ⊢
    cases us <;> cases ts <;>
      simp only [typemin_signed, typemin_unsigned, typemax_signed, typemax_unsigned, Bool.and_true, Bool.and_false,
        Bool.true_eq_false, false_and, or_false, true_and] at hx ⊢ <;> omega

theorem holds_of_not_promote (hx : Holds T x) (h : ¬Holds (promote T U) x) : (promote T U).signed = false ∧ x < 0 :=
  (holds_promote hx).resolve_left h

end Wrapping

section Products

variable {S I : IntType}

theorem unsigned_nonneg (x : MachineInt S) (h : S.signed = false) : 0 ≤ x.val := by
  have hlo := x.min_le
  rw [IntType.typemin, h] at hlo
  simpa using hlo

theorem abs_le_of_signed (x : MachineInt S) (h : S.signed = true) : |x.val| ≤ 2 ^ (S.width.bits - 1) := by
  have hlo := x.min_le
  have hhi := x.le_max
  rw [IntType.typemin, h, if_pos rfl] at hlo
  rw [IntType.typemax, h, if_pos rfl] at hhi
  rw [abs_le]
  omega

theorem abs_lt_two_pow (x : MachineInt S) : |x.val| < 2 ^ S.width.bits := by
  rw [Int.abs_eq_natAbs]
  exact_mod_cast natAbs_lt x

theorem bits_widen (h : S.width ≠ .w128) : (widen S).width.bits = 2 * S.width.bits := by
  obtain ⟨signed, width⟩ := S
  cases width with
  | w128 => exact absurd rfl h
  | _ => rfl

theorem bits_widemulType (hS : S.width ≠ .w128) (hI : I.width ≠ .w128) :
    (widemulType S I).width.bits = max (2 * S.width.bits) (2 * I.width.bits) := by
  rw [← bits_widen hS, ← bits_widen hI, widemulType, bits_promote, widemulTypes]
  split_ifs <;> rfl

theorem signed_promote (h : S.signed = I.signed) : (promote S I).signed = S.signed := by
  unfold promote
  split_ifs
  · exact h.symm
  · rfl
  · rw [← h, Bool.and_self]

theorem signed_widemulType (S I : IntType) : (widemulType S I).signed = (S.signed || I.signed) := by
  rw [widemulType, widemulTypes]
  split_ifs with h
  · rw [signed_promote (show (widen S).signed = (widen I).signed from h), h, Bool.or_self]
    exact h
  · rw [signed_promote (show (toSigned (widen S)).signed = (toSigned (widen I)).signed from rfl)]
    cases hS : S.signed <;> cases hI : I.signed <;> simp_all [toSigned]

-- The product of a signed number and another one fits the sum of the widths.
theorem abs_mul_lt (x : MachineInt S) (y : MachineInt I) (h : S.signed = true) :
    |x.val * y.val| < 2 ^ (S.width.bits + I.width.bits - 1) := by
  have hS := width_bits_pos S.width
  have hx := abs_le_of_signed x h
  have hy := abs_lt_two_pow y
  have hpos : (0 : ℤ) < 2 ^ (S.width.bits - 1) := by positivity
  rw [abs_mul]
  calc |x.val| * |y.val| ≤ 2 ^ (S.width.bits - 1) * |y.val| := mul_le_mul_of_nonneg_right hx (abs_nonneg _)
    _ < 2 ^ (S.width.bits - 1) * 2 ^ I.width.bits := mul_lt_mul_of_pos_left hy hpos
    _ = 2 ^ (S.width.bits + I.width.bits - 1) := by rw [← pow_add]; congr 1; omega

theorem holds_of_abs_lt {T : IntType} {x : ℤ} (h : T.signed = true) (hx : |x| < 2 ^ (T.width.bits - 1)) : Holds T x := by
  rw [abs_lt] at hx
  rw [Holds, IntType.typemin, IntType.typemax, h, if_pos rfl, if_pos rfl]
  omega

theorem holds_widemul (hS : S.width ≠ .w128) (hI : I.width ≠ .w128) (x : MachineInt S) (y : MachineInt I) :
    Holds (widemulType S I) (x.val * y.val) := by
  have hbits := bits_widemulType hS hI
  by_cases hsigned : (S.signed || I.signed) = true
  · refine holds_of_abs_lt (by rw [signed_widemulType, hsigned]) ?_
    have hlt : |x.val * y.val| < 2 ^ (S.width.bits + I.width.bits - 1) := by
      rcases Bool.or_eq_true_iff.1 hsigned with h | h
      · exact abs_mul_lt x y h
      · rw [mul_comm, Nat.add_comm]
        exact abs_mul_lt y x h
    exact hlt.trans_le (pow_le_pow_right₀ (by omega) (by omega))
  · have hunsigned : (widemulType S I).signed = false := by rw [signed_widemulType, Bool.eq_false_iff]; exact hsigned
    rw [Bool.or_eq_true, not_or, Bool.not_eq_true, Bool.not_eq_true] at hsigned
    have hx := unsigned_nonneg x hsigned.1
    have hy := unsigned_nonneg y hsigned.2
    have hx' := abs_lt_two_pow x
    have hy' := abs_lt_two_pow y
    rw [abs_of_nonneg hx] at hx'
    rw [abs_of_nonneg hy] at hy'
    have hlt : x.val * y.val < 2 ^ (S.width.bits + I.width.bits) := by
      rw [pow_add]
      exact mul_lt_mul'' hx' hy' hx hy
    have hle : (2 : ℤ) ^ (S.width.bits + I.width.bits) ≤ 2 ^ (widemulType S I).width.bits := pow_le_pow_right₀ (by omega) (by omega)
    rw [Holds, IntType.typemin, IntType.typemax, hunsigned, if_neg Bool.false_ne_true, if_neg Bool.false_ne_true]
    exact ⟨mul_nonneg hx hy, by omega⟩

theorem widemul_eq (hS : S.width ≠ .w128) (hI : I.width ≠ .w128) (x : MachineInt S) (y : MachineInt I) :
    widemul S I x.val y.val = x.val * y.val := by
  rw [widemul, times_eq]
  exact wrap_of_holds (holds_widemul hS hI x y)

-- Widths at least double.
theorem two_mul_bits_le {v w : Width} (h : v.bits < w.bits) : 2 * v.bits ≤ w.bits := by
  revert h
  cases v <;> cases w <;> decide

-- A product that wraps is off by less than any wider type can hide.
theorem wrap_product_eq {T : IntType} (x : MachineInt S) (y : MachineInt I)
    (hwide : (promote S I).width.bits < T.width.bits)
    (h : (promote S I).wrap (x.val * y.val) ≡ x.val * y.val [ZMOD 2 ^ T.width.bits]) :
    (promote S I).wrap (x.val * y.val) = x.val * y.val := by
  have hbits := bits_promote S I
  have hdouble := two_mul_bits_le hwide
  obtain ⟨w, hw⟩ : ∃ w, (promote S I).width.bits = w := ⟨_, rfl⟩
  rw [hw] at hbits hdouble
  have hx : |x.val| ≤ 2 ^ w - 1 := by
    have hlt := (abs_lt_two_pow x).trans_le (pow_le_pow_right₀ (by omega) (by omega : S.width.bits ≤ w))
    omega
  have hy : |y.val| ≤ 2 ^ w - 1 := by
    have hlt := (abs_lt_two_pow y).trans_le (pow_le_pow_right₀ (by omega) (by omega : I.width.bits ≤ w))
    omega
  have hxy : |x.val * y.val| ≤ (2 ^ w - 1) * (2 ^ w - 1) := by
    rw [abs_mul]
    exact mul_le_mul hx hy (abs_nonneg _) ((abs_nonneg _).trans hx)
  have hwrap : |(promote S I).wrap (x.val * y.val)| < 2 ^ w := by
    have hholds := holds_wrap (promote S I) (x.val * y.val)
    have hlt := abs_lt_two_pow (⟨_, hholds.1, hholds.2⟩ : MachineInt (promote S I))
    rwa [hw] at hlt
  have hpow : (2 : ℤ) ^ (2 * w) ≤ 2 ^ T.width.bits := pow_le_pow_right₀ (by omega) hdouble
  have hsquare : (2 : ℤ) ^ (2 * w) = 2 ^ w * 2 ^ w := by rw [two_mul, pow_add]
  have hdiff : |x.val * y.val - (promote S I).wrap (x.val * y.val)| < 2 ^ T.width.bits := by
    have hpos : (0 : ℤ) < 2 ^ w := by positivity
    have htri := abs_sub (x.val * y.val) ((promote S I).wrap (x.val * y.val))
    have hexpand : ((2 : ℤ) ^ w - 1) * (2 ^ w - 1) = 2 ^ w * 2 ^ w - 2 * 2 ^ w + 1 := by ring
    omega
  have hzero := Int.eq_zero_of_abs_lt_dvd h.dvd hdiff
  omega

end Products

end Joolia.TypedRange
