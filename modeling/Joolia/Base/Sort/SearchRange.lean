import Joolia.Base.Sort
import Joolia.Base.TypedRange.Search

namespace Joolia.Sort

open Fallible Sorting TypedRange

section Model

variable {T S X : IntFuncs.IntType}

-- What the methods read of a range of integers, whose elements are `first + i * step`. Its length is an `Int`.
structure IntegerRange (T S : IntFuncs.IntType) where
  first : IntFuncs.MachineInt T
  step : IntFuncs.MachineInt S
  last : IntFuncs.MachineInt T
  length : ℕ
  length_lt : length < 2 ^ 63
  last_eq : 0 < length → last.val = first.val + (length - 1) * step.val

def IntegerRange.elements (a : IntegerRange T S) : List ℤ := (List.range a.length).map fun (i : ℕ) => a.first.val + i * a.step.val

-- `FastRangeOrderings`: `Forward`, `Reverse`, `Lt(<)` and its reverse
inductive FastRangeOrdering
  | Forward
  | Reverse
  | Less
  | ReverseLess
deriving DecidableEq, Repr

def FastRangeOrdering.isReverse : FastRangeOrdering → Bool
  | Forward | Less => false
  | Reverse | ReverseLess => true

-- `lt(o, x, y)` of integers, whatever their types
def FastRangeOrdering.lt (o : FastRangeOrdering) (x y : ℤ) : Bool := if o.isReverse then decide (y < x) else decide (x < y)

-- `x - y`
def minus (X T : IntFuncs.IntType) (x y : ℤ) : ℤ := (promote X T).wrap ((promote X T).wrap x - (promote X T).wrap y)

-- `floor(Integer, x)` and `ceil(Integer, x)` of an integer are `x`.
def searchsortedlastRange (a : IntegerRange T S) (x : IntFuncs.MachineInt X) (o : FastRangeOrdering) : Except DivisionError ℤ :=
  if a.length = 0 then .ok (0 - 1)
  else if o.lt x.val a.first.val then .ok (0 - 1)
  else if a.step.val = 0 ∨ ¬o.lt x.val a.last.val then .ok (a.length - 1)
  else fld (promote X T) S (minus X T x.val a.first.val) a.step.val >>= toKey

def searchsortedfirstRange (a : IntegerRange T S) (x : IntFuncs.MachineInt X) (o : FastRangeOrdering) : Except DivisionError ℤ :=
  if a.length = 0 then .ok 0
  else if ¬o.lt a.first.val x.val then .ok 0
  else if a.step.val = 0 ∨ o.lt a.last.val x.val then .ok (a.length - 1 + 1)
  else cld (promote X T) S (minus X T x.val a.first.val) a.step.val >>= toKey

def searchsortedRange (a : IntegerRange T S) (x : IntFuncs.MachineInt X) (o : FastRangeOrdering) : Except DivisionError (ℤ × ℤ) := do
  let start ← searchsortedfirstRange a x o
  let stop ← searchsortedlastRange a x o
  .ok (unitRange start stop)

end Model

section Quotients

variable {P S : IntFuncs.IntType} {D h k q : ℤ}

-- When a quotient of the difference `D`, computed at the type `P`, is the one over the integers.
def Divisible (P S : IntFuncs.IntType) (D h : ℤ) : Prop :=
  (Holds P D ∧ ¬(P.signed = true ∧ S.signed = true ∧ D = (promote P S).typemin ∧ h = -1)) ∨
  (¬Holds P D ∧ P.signed = false ∧ h = -1 ∧ S.width.bits ≤ P.width.bits)

instance (P S : IntFuncs.IntType) (D h : ℤ) : Decidable (Divisible P S D h) := inferInstanceAs (Decidable (_ ∨ _))

-- The outcome of `fld` or `cld` when the rounded quotient is `q`.
def quotient (P S : IntFuncs.IntType) (d h q : ℤ) : Except DivisionError ℤ :=
  if P.signed = true ∧ S.signed = true ∧ d = (promote P S).typemin ∧ h = -1 then .error .DivideError
  else .ok ((quotientType P S).wrap q)

theorem toKey_eq_iff {q k : ℤ} (hk : Holds Int64 k) : toKey q = .ok k ↔ q = k := by
  rw [toKey]
  split_ifs with hq
  · exact ⟨Except.ok.inj, fun h => h ▸ rfl⟩
  · exact iff_of_false (by simp) fun h => hq (h ▸ hk)

-- A rounded quotient is no larger than what is divided.
theorem abs_le_of_rounds (hne : h ≠ 0) (hk : |k * h - D| < |h|) : |k| ≤ |D| := by
  have hpos : 0 < |h| := abs_pos.2 hne
  have htri := abs_sub_abs_le_abs_sub (k * h) D
  rw [abs_mul] at htri
  by_contra hlt
  have hmul := Int.mul_le_mul_of_nonneg_right (show |D| + 1 ≤ |k| by omega) hpos.le
  have hD := Int.mul_le_mul_of_nonneg_left (show 1 ≤ |h| by omega) (abs_nonneg D)
  rw [Int.add_mul] at hmul
  omega

theorem quotient_of_holds (hh : Holds S h) (hsign : 0 < D ∧ 0 < h ∨ D < 0 ∧ h < 0) (hk : |k * h - D| < |h|) (hk0 : 0 ≤ k)
    (hk63 : k < 2 ^ 63) (hD : Holds P D) : (quotient P S D h k >>= toKey) = .ok k ↔ Divisible P S D h := by
  have hle := abs_le_of_rounds (by omega) hk
  rw [abs_of_nonneg hk0] at hle
  rw [quotient, Divisible, and_iff_right hD, or_iff_left fun hc => hc.1 hD]
  split_ifs with hmin
  · exact iff_of_false (by simp) fun hc => hc hmin
  · have hwidth : P.width.bits ≤ (quotientType P S).width.bits := bits_unsignedType P S ▸ le_max_left _ _
    have hQD : Holds (quotientType P S) D := holds_of_bits_le hD rfl hwidth
    have hQ : Holds (quotientType P S) k := by
      rcases hsign with ⟨hpos, -⟩ | ⟨hneg, hneg'⟩
      · rw [abs_of_pos hpos] at hle
        exact ⟨(typemin_nonpos _).trans hk0, hle.trans hQD.2⟩
      · have hP : P.signed = true := by
          by_contra hP
          have hnonneg := nonneg_of_unsigned hD (Bool.eq_false_iff.2 hP)
          omega
        have hS : S.signed = true := by
          by_contra hS
          have hnonneg := nonneg_of_unsigned hh (Bool.eq_false_iff.2 hS)
          omega
        have hlo := hQD.1
        refine ⟨(typemin_nonpos _).trans hk0, ?_⟩
        rw [quotientType_of_eq (hP.trans hS.symm)] at hlo ⊢
        have hsigned : (promote P S).signed = true := (signed_promote (hP.trans hS.symm)).trans hP
        by_contra hlarge
        -- only `typemin` divided by -1 is beyond the type
        refine hmin ⟨hP, hS, ?_, ?_⟩ <;>
          rw [IntFuncs.IntType.typemin, if_pos hsigned] at * <;> rw [IntFuncs.IntType.typemax, if_pos hsigned] at hlarge <;>
          rw [abs_of_neg hneg] at hle
        · omega
        · have hpow : (2 : ℤ) ≤ 2 ^ ((promote P S).width.bits - 1) := by
            have hbits : 8 ≤ (promote P S).width.bits := by cases (promote P S).width <;> decide
            calc (2 : ℤ) = 2 ^ 1 := rfl
              _ ≤ 2 ^ ((promote P S).width.bits - 1) := pow_le_pow_right₀ (by omega) (by omega)
          have hDk : D = -k := by omega
          rw [hDk, Int.sub_neg, abs_of_neg hneg', abs_lt] at hk
          by_contra hone
          have hmul := Int.mul_le_mul_of_nonneg_left (show 1 ≤ -h - 1 by omega) (show 0 ≤ k by omega)
          have hmul' := Int.mul_le_mul_of_nonneg_right (show 2 ≤ k by omega) (show 0 ≤ -h - 1 by omega)
          have hexpand : k * (-h - 1) = -(k * h + k) := by ring
          omega
    rw [wrap_of_holds hQ, ok_bind, toKey_eq_iff (holds_int64.2 (by omega))]
    exact iff_of_true rfl hmin

-- What a difference wraps to when it is too large for the type.
theorem wrap_difference (hD : ¬Holds P D) (hlt : |D| < 2 ^ P.width.bits) :
    (0 < D ∧ P.signed = true ∧ P.wrap D = D - 2 ^ P.width.bits) ∨ (D < 0 ∧ P.wrap D = D + 2 ^ P.width.bits) := by
  have hpow := two_pow_bits P.width
  have hpos : (0 : ℤ) < 2 ^ (P.width.bits - 1) := by positivity
  have hshift : ∀ z, Holds P z → z ≡ D [ZMOD 2 ^ P.width.bits] → P.wrap D = z := fun z hz hmod => by
    rw [← wrap_of_holds hz, wrap_congr hmod]
  rw [abs_lt] at hlt
  have hzero := holds_zero P
  rcases lt_trichotomy D 0 with hneg | rfl | hD0
  · refine .inr ⟨hneg, hshift _ ?_ (Int.modEq_iff_dvd.2 ⟨-1, by ring⟩)⟩
    unfold Holds IntFuncs.IntType.typemin IntFuncs.IntType.typemax at *
    split_ifs at * <;> omega
  · exact absurd hzero hD
  · have hsigned : P.signed = true := by
      by_contra hP
      unfold Holds IntFuncs.IntType.typemin IntFuncs.IntType.typemax at *
      rw [if_neg hP, if_neg hP] at *
      omega
    refine .inl ⟨hD0, hsigned, hshift _ ?_ (Int.modEq_iff_dvd.2 ⟨1, by ring⟩)⟩
    unfold Holds IntFuncs.IntType.typemin IntFuncs.IntType.typemax at *
    rw [if_pos hsigned, if_pos hsigned] at *
    omega

-- A quotient of numbers of two signs is not positive.
theorem nonpos_of_rounds {d : ℤ} (hsign : 0 ≤ d ∧ h < 0 ∨ d ≤ 0 ∧ 0 < h) (hq : |q * h - d| < |h|) : q ≤ 0 := by
  by_contra hpos
  rcases hsign with ⟨hd, hh⟩ | ⟨hd, hh⟩
  · have hmul := Int.mul_le_mul_of_nonneg_right (show 1 ≤ q by omega) (show 0 ≤ -h by omega)
    rw [Int.one_mul, Int.mul_neg] at hmul
    rw [abs_of_neg hh, abs_lt] at hq
    omega
  · have hmul := Int.mul_le_mul_of_nonneg_right (show 1 ≤ q by omega) hh.le
    rw [abs_of_pos hh, abs_lt] at hq
    omega

theorem quotient_of_not_holds (hsign : 0 < D ∧ 0 < h ∨ D < 0 ∧ h < 0) (hwide : |D| < 2 ^ P.width.bits)
    (hk : |k * h - D| < |h|) (hk0 : 0 ≤ k) (hk63 : k < 2 ^ 63) (hq : |q * h - P.wrap D| < |h|) (hkq : 0 < k ∨ q < 0)
    (hD : ¬Holds P D) : (quotient P S (P.wrap D) h q >>= toKey) = .ok k ↔ Divisible P S D h := by
  have hne : h ≠ 0 := by omega
  have hwrap := wrap_difference hD hwide
  have hd := holds_wrap P D
  have hle := abs_le_of_rounds hne hq
  have hbits : P.width.bits ≤ (quotientType P S).width.bits := bits_unsignedType P S ▸ le_max_left _ _
  have hq0 : q ≤ 0 := nonpos_of_rounds (d := P.wrap D) (by rw [abs_lt] at hwide; omega) hq
  rw [abs_of_nonpos hq0] at hle
  rw [quotient, Divisible, or_iff_right fun hc => hD hc.1, and_iff_right hD]
  by_cases hP : P.signed = true
  · -- the quotient has the wrong sign
    rw [iff_false_right fun hc => Bool.false_ne_true (hc.1.symm.trans hP)]
    split_ifs with hmin
    · simp
    · have habs := abs_le_of_holds hd hP
      have hpow : (2 : ℤ) ^ (P.width.bits - 1) ≤ 2 ^ ((quotientType P S).width.bits - 1) :=
        pow_le_pow_right₀ (by omega) (by omega)
      have hQ : Holds (quotientType P S) q := by
        refine ⟨?_, hq0.trans (holds_zero _).2⟩
        rw [IntFuncs.IntType.typemin, show (quotientType P S).signed = true from hP, if_pos rfl]
        omega
      rw [wrap_of_holds hQ, ok_bind, toKey_eq_iff (holds_int64.2 (by omega))]
      omega
  · have hP' : P.signed = false := Bool.eq_false_iff.2 hP
    obtain ⟨hneg, hd'⟩ := hwrap.resolve_left fun hc => hP hc.2.1
    have hh : h < 0 := by omega
    rw [and_iff_right hP', if_neg fun hc => hP hc.1, ok_bind, toKey_eq_iff (holds_int64.2 (by omega))]
    have hQsigned : (quotientType P S).signed = false := hP'
    have hpow : (2 : ℤ) ^ P.width.bits ≤ 2 ^ (quotientType P S).width.bits := pow_le_pow_right₀ (by omega) hbits
    have hpos : (256 : ℤ) ≤ 2 ^ P.width.bits := by
      have hbits' : 8 ≤ P.width.bits := by cases P.width <;> decide
      calc (256 : ℤ) = 2 ^ 8 := rfl
        _ ≤ 2 ^ P.width.bits := pow_le_pow_right₀ (by omega) hbits'
    have hwidths : (quotientType P S).width.bits = P.width.bits ↔ S.width.bits ≤ P.width.bits := by
      have hmax : (quotientType P S).width.bits = max P.width.bits S.width.bits := bits_unsignedType P S
      omega
    rw [abs_of_neg hh, abs_lt] at hk hq
    have hd0 := nonneg_of_unsigned hd hP'
    by_cases hq1 : q = 0
    · subst hq1
      rw [wrap_of_holds (holds_zero _)]
      refine iff_of_false (by omega) ?_
      rintro ⟨rfl, -⟩
      rw [abs_of_neg hneg] at hwide
      omega
    · have hvalue : (quotientType P S).wrap q = 2 ^ (quotientType P S).width.bits + q := by
        have hQ : Holds (quotientType P S) (2 ^ (quotientType P S).width.bits + q) := by
          rw [Holds, IntFuncs.IntType.typemin, IntFuncs.IntType.typemax, hQsigned, if_neg Bool.false_ne_true,
            if_neg Bool.false_ne_true]
          rw [abs_of_nonneg hd0] at hle
          have hmax := hd.2
          rw [IntFuncs.IntType.typemax, if_neg hP] at hmax
          omega
        rw [← wrap_of_holds hQ]
        exact wrap_congr (Int.modEq_iff_dvd.2 ⟨1, by ring⟩)
      rw [hvalue, ← hwidths]
      have hprod : (k - q) * h = k * h - q * h := by ring
      constructor
      · intro heq
        rw [show k - q = 2 ^ (quotientType P S).width.bits by omega] at hprod
        have hone : h = -1 := by
          by_contra hone
          have hmul := Int.mul_le_mul_of_nonneg_right hpow (show 0 ≤ -h by omega)
          have hmul' := Int.mul_le_mul_of_nonneg_right hpos (show 0 ≤ -h - 1 by omega)
          rw [Int.mul_neg, Int.mul_neg] at hmul
          rw [Int.mul_sub, Int.mul_sub, Int.mul_neg, Int.mul_neg] at hmul'
          omega
        subst hone
        refine ⟨rfl, Nat.pow_right_injective le_rfl ?_⟩
        have heq' : (2 : ℤ) ^ (quotientType P S).width.bits = 2 ^ P.width.bits := by omega
        exact_mod_cast heq'
      · rintro ⟨rfl, hw⟩
        rw [hw]
        omega

-- The outcome is right exactly when the division is.
theorem quotient_iff (hh : Holds S h) (hsign : 0 < D ∧ 0 < h ∨ D < 0 ∧ h < 0) (hwide : |D| < 2 ^ P.width.bits)
    (hk : |k * h - D| < |h|) (hk0 : 0 ≤ k) (hk63 : k < 2 ^ 63) (hq : |q * h - P.wrap D| < |h|)
    (hkq : ¬Holds P D → 0 < k ∨ q < 0) (heq : Holds P D → q = k) :
    (quotient P S (P.wrap D) h q >>= toKey) = .ok k ↔ Divisible P S D h := by
  by_cases hD : Holds P D
  · rw [heq hD, wrap_of_holds hD]
    exact quotient_of_holds hh hsign hk hk0 hk63 hD
  · exact quotient_of_not_holds hsign hwide hk hk0 hk63 hq (hkq hD) hD

end Quotients

section Rounding

variable {D h i : ℤ}

theorem lt_cdiv_iff (hh : 0 < h) : i < cdiv D h ↔ i * h < D := by
  rw [cdiv, Int.fdiv_eq_ediv_of_nonneg _ hh.le, lt_neg, Int.ediv_lt_iff_lt_mul hh, Int.neg_mul]
  omega

theorem lt_cdiv_iff_of_neg (hh : h < 0) : i < cdiv D h ↔ D < i * h := by
  have hflip : cdiv D h = cdiv (-D) (-h) := congrArg Neg.neg (Int.neg_fdiv_neg (-D) h).symm
  rw [hflip, lt_cdiv_iff (by omega), Int.mul_neg]
  omega

theorem le_fdiv_iff (hh : 0 < h) : i ≤ D.fdiv h ↔ i * h ≤ D := by
  rw [Int.fdiv_eq_ediv_of_nonneg _ hh.le, Int.le_ediv_iff_mul_le hh]

theorem le_fdiv_iff_of_neg (hh : h < 0) : i ≤ D.fdiv h ↔ D ≤ i * h := by
  rw [← Int.neg_fdiv_neg, le_fdiv_iff (by omega), Int.mul_neg]
  omega

theorem abs_fmod_lt (D : ℤ) (hne : h ≠ 0) : |D.fmod h| < |h| := by
  obtain ⟨hpos, hneg⟩ := fmod_bounds D (y := h)
  rcases Int.lt_or_gt_of_ne hne with hh | hh
  · rw [abs_of_neg hh, abs_of_nonpos (hneg hh).2]
    have hlt := (hneg hh).1
    omega
  · rw [abs_of_pos hh, abs_of_nonneg (hpos hh).1]
    exact (hpos hh).2

theorem fdiv_rounds (D : ℤ) (hne : h ≠ 0) : |D.fdiv h * h - D| < |h| := by
  rw [Int.fdiv_mul_self, show D - D.fmod h - D = -D.fmod h by ring, abs_neg]
  exact abs_fmod_lt D hne

theorem cdiv_rounds (D : ℤ) (hne : h ≠ 0) : |cdiv D h * h - D| < |h| := by
  have heq : cdiv D h * h - D = (-D).fmod h := by
    have hmul := Int.fdiv_mul_self (-D) h
    rw [cdiv, Int.neg_mul]
    omega
  rw [heq]
  exact abs_fmod_lt (-D) hne

end Rounding

section Positions

variable {T S X : IntFuncs.IntType} (a : IntegerRange T S) (x : IntFuncs.MachineInt X) (o : FastRangeOrdering)

theorem strictWeak_lt : StrictWeak o.lt := by
  have hiff : ∀ x y, o.lt x y = true ↔ if o.isReverse then y < x else x < y := fun x y => by
    rw [FastRangeOrdering.lt]
    split_ifs <;> exact decide_eq_true_iff
  refine ⟨fun x => ?_, fun {x y z} hxy hyz => ?_, fun {x y z} hxy hyx hyz hzy => ?_⟩
  · rw [Bool.eq_false_iff, ne_eq, hiff]
    split_ifs <;> omega
  · rw [hiff] at *
    split_ifs at * <;> omega
  · rw [Bool.eq_false_iff, ne_eq, hiff] at *
    rw [Bool.eq_false_iff, ne_eq, hiff]
    split_ifs at * <;> omega

-- The elements before `x`, and those not after it
def IntegerRange.before : ℕ := a.elements.countP fun y => o.lt y x.val

def IntegerRange.notAfter : ℕ := a.elements.countP fun y => !o.lt x.val y

@[simp] theorem IntegerRange.length_elements : a.elements.length = a.length := by simp [IntegerRange.elements]

theorem IntegerRange.getElem_elements {i : ℕ} (hi : i < a.elements.length) :
    a.elements[i] = a.first.val + i * a.step.val := by simp [IntegerRange.elements]

variable {a x o}

-- The step of a sorted range
theorem IntegerRange.step_of_sorted (hsorted : Sorted o.lt a.elements) (hlen : 2 ≤ a.length) :
    if o.isReverse then a.step.val ≤ 0 else 0 ≤ a.step.val := by
  have hle := hsorted.getElem_le (strictWeak_lt o) (i := 0) (j := 1) (by omega) (by rw [a.length_elements]; omega)
  rw [a.getElem_elements, a.getElem_elements, FastRangeOrdering.lt] at hle
  push_cast at hle
  split_ifs at hle ⊢ <;> rw [decide_eq_false_iff_not] at hle <;> omega

theorem lt_element_iff {f h y : ℤ} (hdir : if o.isReverse then h < 0 else 0 < h) (i : ℤ) :
    o.lt (f + i * h) y = true ↔ i < cdiv (y - f) h := by
  rw [FastRangeOrdering.lt]
  split_ifs at hdir ⊢ with hrev
  · rw [decide_eq_true_eq, lt_cdiv_iff_of_neg hdir]
    omega
  · rw [decide_eq_true_eq, lt_cdiv_iff hdir]
    omega

theorem not_lt_element_iff {f h y : ℤ} (hdir : if o.isReverse then h < 0 else 0 < h) (i : ℤ) :
    o.lt y (f + i * h) = false ↔ i ≤ (y - f).fdiv h := by
  rw [FastRangeOrdering.lt]
  split_ifs at hdir ⊢ with hrev
  · rw [decide_eq_false_iff_not, le_fdiv_iff_of_neg hdir]
    omega
  · rw [decide_eq_false_iff_not, le_fdiv_iff hdir]
    omega

-- The ends of the range decide the easy cases.
theorem IntegerRange.before_eq_zero (hsorted : Sorted o.lt a.elements) (hlen : 0 < a.length)
    (h : o.lt a.first.val x.val = false) : a.before x o = 0 := by
  have hiff := hsorted.before_iff (strictWeak_lt o) x.val 0 (by rw [a.length_elements]; exact hlen)
  rw [a.getElem_elements, Nat.cast_zero, Int.zero_mul, Int.add_zero, h] at hiff
  exact Nat.eq_zero_of_not_pos fun hpos => Bool.false_ne_true (hiff.2 hpos)

theorem IntegerRange.last_element (hlen : 0 < a.length) (hlast : a.length - 1 < a.elements.length) :
    a.elements[a.length - 1] = a.last.val := by
  rw [a.getElem_elements, a.last_eq hlen, Nat.cast_pred hlen]

theorem IntegerRange.before_eq_length (hsorted : Sorted o.lt a.elements) (hlen : 0 < a.length)
    (h : o.lt a.last.val x.val = true) : a.before x o = a.length := by
  have hiff := hsorted.before_iff (strictWeak_lt o) x.val (a.length - 1) (by rw [a.length_elements]; omega)
  rw [a.last_element hlen _] at hiff
  have hlt := hiff.1 h
  have hle : a.before x o ≤ a.elements.length := List.countP_le_length
  rw [a.length_elements] at hle
  rw [IntegerRange.before] at *
  omega

theorem IntegerRange.notAfter_eq_zero (hsorted : Sorted o.lt a.elements) (hlen : 0 < a.length)
    (h : o.lt x.val a.first.val = true) : a.notAfter x o = 0 := by
  have hiff := hsorted.notAfter_iff (strictWeak_lt o) x.val 0 (by rw [a.length_elements]; exact hlen)
  rw [a.getElem_elements, Nat.cast_zero, Int.zero_mul, Int.add_zero, h] at hiff
  exact Nat.eq_zero_of_not_pos fun hpos => Bool.false_ne_true (hiff.2 hpos).symm

theorem IntegerRange.notAfter_eq_length (hsorted : Sorted o.lt a.elements) (hlen : 0 < a.length)
    (h : o.lt x.val a.last.val = false) : a.notAfter x o = a.length := by
  have hiff := hsorted.notAfter_iff (strictWeak_lt o) x.val (a.length - 1) (by rw [a.length_elements]; omega)
  rw [a.last_element hlen _] at hiff
  have hlt := hiff.1 h
  have hle : a.notAfter x o ≤ a.elements.length := List.countP_le_length
  rw [a.length_elements] at hle
  rw [IntegerRange.notAfter] at *
  omega

-- Between the ends the positions are quotients.
theorem IntegerRange.before_eq_cdiv (hdir : if o.isReverse then a.step.val < 0 else 0 < a.step.val) (hlen : 0 < a.length)
    (hfirst : o.lt a.first.val x.val = true) (hlast : o.lt a.last.val x.val = false) :
    (a.before x o : ℤ) = cdiv (x.val - a.first.val) a.step.val := by
  have h0 := (lt_element_iff (f := a.first.val) (y := x.val) hdir 0).1 (by rwa [Int.zero_mul, Int.add_zero])
  have hend : ¬((a.length : ℤ) - 1) < cdiv (x.val - a.first.val) a.step.val := fun hlt => by
    rw [← lt_element_iff hdir, ← a.last_eq hlen, hlast] at hlt
    exact Bool.false_ne_true hlt
  obtain ⟨k, hk⟩ := Int.eq_ofNat_of_zero_le h0.le
  rw [hk] at hend ⊢
  refine congrArg Nat.cast (boundary_unique (p := fun y => o.lt y x.val) (k := k) (by rw [a.length_elements]; omega) ?_).1
  intro i hi
  rw [a.getElem_elements, lt_element_iff hdir, hk]
  exact Nat.cast_lt

theorem IntegerRange.notAfter_eq_fdiv (hdir : if o.isReverse then a.step.val < 0 else 0 < a.step.val) (hlen : 0 < a.length)
    (hfirst : o.lt x.val a.first.val = false) (hlast : o.lt x.val a.last.val = true) :
    (a.notAfter x o : ℤ) - 1 = (x.val - a.first.val).fdiv a.step.val ∧ 0 ≤ (x.val - a.first.val).fdiv a.step.val := by
  have h0 := (not_lt_element_iff (f := a.first.val) (y := x.val) hdir 0).1 (by rwa [Int.zero_mul, Int.add_zero])
  have hend : ¬((a.length : ℤ) - 1) ≤ (x.val - a.first.val).fdiv a.step.val := fun hle => by
    rw [← not_lt_element_iff hdir, ← a.last_eq hlen, hlast] at hle
    exact Bool.false_ne_true hle.symm
  obtain ⟨k, hk⟩ := Int.eq_ofNat_of_zero_le h0
  refine ⟨?_, h0⟩
  rw [hk] at hend ⊢
  have hcount := (boundary_unique (p := fun y => !o.lt x.val y) (v := a.elements) (k := k + 1)
    (by rw [a.length_elements]; omega) fun i hi => ?_).1
  · rw [IntegerRange.notAfter, hcount]
    push_cast
    omega
  · rw [a.getElem_elements, Bool.not_eq_true', not_lt_element_iff hdir, hk]
    omega

-- `floor(Integer, x) - f` is the difference wrapped to the common type.
theorem minus_eq (X T : IntFuncs.IntType) (x y : ℤ) : minus X T x y = (promote X T).wrap (x - y) :=
  wrap_congr ((wrap_modEq _ x).sub (wrap_modEq _ y))

-- A value between the ends is near the first element.
theorem IntegerRange.abs_difference_lt (hbetween : min a.first.val a.last.val ≤ x.val ∧ x.val ≤ max a.first.val a.last.val) :
    |x.val - a.first.val| < 2 ^ (promote X T).width.bits := by
  have hfirst := holds_val a.first
  have hlast := holds_val a.last
  have hpow : (2 : ℤ) ^ T.width.bits ≤ 2 ^ (promote X T).width.bits :=
    pow_le_pow_right₀ (by omega) (bits_promote X T ▸ le_max_right _ _)
  have htwo := two_pow_bits T.width
  rw [abs_lt]
  unfold Holds IntFuncs.IntType.typemin IntFuncs.IntType.typemax at *
  split_ifs at * <;> omega

-- Between the ends the difference has the sign of the step, which is not 0.
theorem IntegerRange.step_of_between (hsorted : Sorted o.lt a.elements) (hlen : 0 < a.length)
    (h : o.lt a.first.val a.last.val = true) :
    2 ≤ a.length ∧ if o.isReverse then a.step.val < 0 else 0 < a.step.val := by
  have hlast := a.last_eq hlen
  have htwo : 2 ≤ a.length := by
    by_contra hone
    have hlen1 : a.length = 1 := by omega
    rw [hlen1, Nat.cast_one, Int.sub_self, Int.zero_mul, Int.add_zero] at hlast
    rw [hlast, (strictWeak_lt o).irrefl] at h
    exact Bool.false_ne_true h
  have hstep := a.step_of_sorted hsorted htwo
  have hne : a.step.val ≠ 0 := fun h0 => by
    rw [h0, Int.mul_zero, Int.add_zero] at hlast
    rw [hlast, (strictWeak_lt o).irrefl] at h
    exact Bool.false_ne_true h
  refine ⟨htwo, ?_⟩
  split_ifs at hstep ⊢ <;> omega

theorem fld_quotient {P S : IntFuncs.IntType} {D h : ℤ} (hh : Holds S h) (hne : h ≠ 0) :
    fld P S (P.wrap D) h = quotient P S (P.wrap D) h ((P.wrap D).fdiv h) := fld_eq (holds_wrap P D) hh hne

theorem cld_quotient {P S : IntFuncs.IntType} {D h : ℤ} (hh : Holds S h) (hne : h ≠ 0) :
    cld P S (P.wrap D) h = quotient P S (P.wrap D) h (cdiv (P.wrap D) h) := cld_eq (holds_wrap P D) hh hne

-- When the closed forms are right: between the ends, the division must be.
def IntegerRange.Computable (a : IntegerRange T S) (x : IntFuncs.MachineInt X) (o : FastRangeOrdering) : Prop :=
  0 < a.length → o.lt a.first.val x.val = true → o.lt a.last.val x.val = false →
    Divisible (promote X T) S (x.val - a.first.val) a.step.val

theorem searchsortedfirstRange_iff (hsorted : Sorted o.lt a.elements) :
    searchsortedfirstRange a x o = .ok (a.before x o : ℤ) ↔ a.Computable x o := by
  rw [searchsortedfirstRange, IntegerRange.Computable]
  by_cases hlen : a.length = 0
  · have hnil : a.before x o = 0 := by
      rw [IntegerRange.before, List.eq_nil_of_length_eq_zero (a.length_elements.trans hlen)]
      rfl
    rw [if_pos hlen, hnil]
    exact iff_of_true rfl fun h => absurd hlen h.ne'
  · have hpos := Nat.pos_of_ne_zero hlen
    rw [if_neg hlen]
    by_cases hfirst : o.lt a.first.val x.val = true
    · rw [if_neg (not_not.2 hfirst)]
      by_cases hlast : o.lt a.last.val x.val = true
      · rw [if_pos (.inr hlast), a.before_eq_length hsorted hpos hlast, Int.sub_add_cancel]
        exact iff_of_true rfl fun _ _ h => absurd (h.symm.trans hlast) Bool.false_ne_true
      · have hlast' := Bool.eq_false_iff.2 hlast
        obtain ⟨-, hdir⟩ := a.step_of_between hsorted hpos ((strictWeak_lt o).lt_of_lt_of_not_lt hfirst hlast')
        have hne : a.step.val ≠ 0 := by split_ifs at hdir <;> omega
        have hk := a.before_eq_cdiv hdir hpos hfirst hlast'
        have hk1 := (lt_element_iff (f := a.first.val) (y := x.val) hdir 0).1 (by rwa [Int.zero_mul, Int.add_zero])
        have hsize := a.length_lt
        have hcount : a.before x o ≤ a.elements.length := List.countP_le_length
        rw [a.length_elements] at hcount
        have hsign : 0 < x.val - a.first.val ∧ 0 < a.step.val ∨ x.val - a.first.val < 0 ∧ a.step.val < 0 := by
          rw [FastRangeOrdering.lt] at hfirst
          split_ifs at hdir hfirst <;> rw [decide_eq_true_eq] at hfirst <;> omega
        have hbetween : min a.first.val a.last.val ≤ x.val ∧ x.val ≤ max a.first.val a.last.val := by
          rw [FastRangeOrdering.lt] at hfirst hlast
          split_ifs at hfirst hlast <;> rw [decide_eq_true_eq] at hfirst hlast <;> omega
        rw [if_neg (by tauto), minus_eq, cld_quotient (holds_val a.step) hne, hk, quotient_iff (holds_val a.step) hsign
          (a.abs_difference_lt hbetween) (cdiv_rounds _ hne) hk1.le (by omega) (cdiv_rounds _ hne) (fun _ => .inl hk1)
          fun hD => by rw [wrap_of_holds hD]]
        exact ⟨fun h _ _ _ => h, fun h => h hpos hfirst hlast'⟩
    · rw [if_pos hfirst, a.before_eq_zero hsorted hpos (Bool.eq_false_iff.2 hfirst)]
      exact iff_of_true rfl fun _ h => absurd h hfirst

theorem searchsortedlastRange_of_computable (hsorted : Sorted o.lt a.elements) (hcomp : a.Computable x o) :
    searchsortedlastRange a x o = .ok ((a.notAfter x o : ℤ) - 1) := by
  rw [searchsortedlastRange]
  by_cases hlen : a.length = 0
  · have hnil : a.notAfter x o = 0 := by
      rw [IntegerRange.notAfter, List.eq_nil_of_length_eq_zero (a.length_elements.trans hlen)]
      rfl
    rw [if_pos hlen, hnil]
    rfl
  · have hpos := Nat.pos_of_ne_zero hlen
    rw [if_neg hlen]
    by_cases hfirst : o.lt x.val a.first.val = true
    · rw [if_pos hfirst, a.notAfter_eq_zero hsorted hpos hfirst]
      rfl
    · have hfirst' := Bool.eq_false_iff.2 hfirst
      rw [if_neg hfirst]
      by_cases hlast : o.lt x.val a.last.val = true
      · obtain ⟨-, hdir⟩ := a.step_of_between hsorted hpos ((strictWeak_lt o).lt_of_not_lt_of_lt hfirst' hlast)
        have hne : a.step.val ≠ 0 := by split_ifs at hdir <;> omega
        obtain ⟨hk, hk0⟩ := a.notAfter_eq_fdiv hdir hpos hfirst' hlast
        have hsize := a.length_lt
        have hcount : a.notAfter x o ≤ a.elements.length := List.countP_le_length
        rw [a.length_elements] at hcount
        have hbetween : min a.first.val a.last.val ≤ x.val ∧ x.val ≤ max a.first.val a.last.val := by
          rw [FastRangeOrdering.lt] at hfirst hlast
          split_ifs at hfirst hlast <;> rw [decide_eq_true_eq] at hfirst hlast <;> omega
        rw [if_neg (by rw [hlast]; simpa using hne), minus_eq, fld_quotient (holds_val a.step) hne, hk]
        by_cases hzero : x.val - a.first.val = 0
        · -- `x` is the first element
          have hpow := two_pow_bits (promote (promote X T) S).width
          have hmin : ¬((promote X T).signed = true ∧ S.signed = true ∧ 0 = (promote (promote X T) S).typemin ∧ a.step.val = -1) := by
            rintro ⟨hP, hS, hmin, -⟩
            rw [IntFuncs.IntType.typemin, (signed_promote (hP.trans hS.symm)).trans hP, if_pos rfl] at hmin
            have hpos' : (0 : ℤ) < 2 ^ ((promote (promote X T) S).width.bits - 1) := by positivity
            omega
          rw [hzero, wrap_of_holds (holds_zero _), Int.zero_fdiv, quotient, if_neg hmin, wrap_of_holds (holds_zero _), ok_bind]
          rfl
        · have hne' : a.first.val ≠ x.val := by omega
          have hfirst'' : o.lt a.first.val x.val = true := by
            rw [FastRangeOrdering.lt] at hfirst ⊢
            split_ifs at hfirst ⊢ <;> rw [decide_eq_true_eq] at * <;> omega
          have hlast' := (strictWeak_lt o).asymm hlast
          have hsign : 0 < x.val - a.first.val ∧ 0 < a.step.val ∨ x.val - a.first.val < 0 ∧ a.step.val < 0 := by
            rw [FastRangeOrdering.lt] at hfirst''
            split_ifs at hdir hfirst'' <;> rw [decide_eq_true_eq] at hfirst'' <;> omega
          refine (quotient_iff (holds_val a.step) hsign (a.abs_difference_lt hbetween) (fdiv_rounds _ hne) hk0 (by omega)
            (fdiv_rounds _ hne) (fun hD => .inr ?_) fun hD => by rw [wrap_of_holds hD]).2 (hcomp hpos hfirst'' hlast')
          -- the wrapped difference has the other sign
          have hwide := a.abs_difference_lt hbetween
          rw [abs_lt] at hwide
          rcases wrap_difference hD (a.abs_difference_lt hbetween) with ⟨hD0, -, hwrap⟩ | ⟨hD0, hwrap⟩
          · exact Int.fdiv_neg_of_neg_of_pos (by omega) (by omega)
          · rw [← Int.neg_fdiv_neg]
            exact Int.fdiv_neg_of_neg_of_pos (by omega) (by omega)
      · rw [if_pos (.inr hlast), a.notAfter_eq_length hsorted hpos (Bool.eq_false_iff.2 hlast)]

end Positions

section Agreement

variable {T S X : IntFuncs.IntType} {α : Type}

-- Binary search brackets `x`.
structure Bracketed (lt : α → α → Bool) (v : List α) (x : α) : Prop where
  first : searchsortedfirst lt v x 0 (v.length - 1) = .ok ((v.takeWhile fun y => lt y x).length : ℤ)
  last : searchsortedlast lt v x 0 (v.length - 1) = .ok ((v.countP fun y => !lt x y : ℕ) - 1 : ℤ)
  both : searchsorted lt v x 0 (v.length - 1) =
    .ok (((v.takeWhile fun y => lt y x).length : ℤ), ((v.countP fun y => !lt x y : ℕ) - 1 : ℤ))

theorem bracketed {lt : α → α → Bool} {v : List α} (h : StrictWeak lt) (hsorted : Sorted lt v) (hsize : v.length < 2 ^ 63) (x : α) :
    Bracketed lt v x := by
  have hbefore := hsorted.before_iff h x
  have hafter := hsorted.notAfter_iff h x
  have hle : (v.countP fun y => lt y x) ≤ v.length := List.countP_le_length
  have hle' : (v.countP fun y => !lt x y) ≤ v.length := List.countP_le_length
  have hmono : (v.countP fun y => lt y x) ≤ v.countP fun y => !lt x y :=
    List.countP_mono_left fun y _ hy => by rw [Bool.not_eq_true']; exact h.asymm hy
  have hwhile : (v.takeWhile fun y => lt y x).length = v.countP fun y => lt y x := (boundary_unique hle hbefore).2
  refine ⟨?_, ?_, ?_⟩
  · rw [hwhile]
    exact searchsortedfirst_spec hbefore (by omega) (by omega) (by omega) (by omega)
  · exact searchsortedlast_spec hsize hafter (by omega) (by omega) (by omega) (by omega)
  · rw [hwhile]
    exact searchsorted_spec hsize hmono hle' hbefore hafter

-- Both return, and the same value.
def SameResult {β : Type} (r : Except SortError β) (s : Except DivisionError β) : Prop := ∃ p, r = .ok p ∧ s = .ok p

-- The closed forms return the positions of binary search.
structure IntegerRange.SearchAgrees (a : IntegerRange T S) (x : IntFuncs.MachineInt X) (o : FastRangeOrdering) : Prop where
  first : SameResult (searchsortedfirst o.lt a.elements x.val 0 (a.length - 1)) (searchsortedfirstRange a x o)
  last : SameResult (searchsortedlast o.lt a.elements x.val 0 (a.length - 1)) (searchsortedlastRange a x o)
  both : SameResult (searchsorted o.lt a.elements x.val 0 (a.length - 1)) (searchsortedRange a x o)

theorem searchAgrees_iff {a : IntegerRange T S} {x : IntFuncs.MachineInt X} {o : FastRangeOrdering}
    (hsorted : Sorted o.lt a.elements) : a.SearchAgrees x o ↔ a.Computable x o := by
  have hsize : a.elements.length < 2 ^ 63 := by rw [a.length_elements]; exact a.length_lt
  obtain ⟨hfirst, hlast, hboth⟩ := bracketed (strictWeak_lt o) hsorted hsize x.val
  have hwhile : ((a.elements.takeWhile fun y => o.lt y x.val).length) = a.before x o :=
    (boundary_unique List.countP_le_length (hsorted.before_iff (strictWeak_lt o) x.val)).2
  rw [hwhile, a.length_elements] at hfirst hboth
  rw [a.length_elements] at hlast
  constructor
  · rintro ⟨⟨p, hp, hp'⟩, -, -⟩
    rw [hfirst] at hp
    exact (searchsortedfirstRange_iff hsorted).1 (hp'.trans (congrArg Except.ok (Except.ok.inj hp).symm))
  · intro hcomp
    have hfirst' := (searchsortedfirstRange_iff hsorted).2 hcomp
    have hlast' := searchsortedlastRange_of_computable hsorted hcomp
    have hmono : a.before x o ≤ a.notAfter x o :=
      List.countP_mono_left fun y _ hy => by rw [Bool.not_eq_true']; exact (strictWeak_lt o).asymm hy
    refine ⟨⟨_, hfirst, hfirst'⟩, ⟨_, hlast, hlast'⟩, ⟨_, hboth, ?_⟩⟩
    rw [searchsortedRange, hfirst', hlast', ok_bind, ok_bind, unitRange_eq (by omega)]
    rfl

theorem search_brackets_and_range_iff {α : Type} (lt : α → α → Bool) (v : List α) (x : α) (T S X : IntFuncs.IntType)
    (a : IntegerRange T S) (y : IntFuncs.MachineInt X) (o : FastRangeOrdering) :
    (StrictWeak lt → Sorted lt v → v.length < 2 ^ 63 → Bracketed lt v x) ∧
    (Sorted o.lt a.elements → (a.SearchAgrees y o ↔ a.Computable y o)) :=
  ⟨fun h hsorted hsize => bracketed h hsorted hsize x, fun hsorted => searchAgrees_iff hsorted⟩

abbrev Int8 : IntFuncs.IntType := ⟨true, .w8⟩

-- `Int8(-100):Int8(50):Int8(100)`
def fifties : IntegerRange Int8 Int8 where
  first := ⟨-100, by decide, by decide⟩
  step := ⟨50, by decide, by decide⟩
  last := ⟨100, by decide, by decide⟩
  length := 5
  length_lt := by decide
  last_eq := by decide

theorem search_brackets_and_range_iff_fifties :
    Bracketed (fun x y : ℕ => decide (x < y)) [1, 2, 2, 4] 2 ∧
    (fifties.SearchAgrees (⟨0, by decide, by decide⟩ : IntFuncs.MachineInt Int8) .Forward ↔
      fifties.Computable (⟨0, by decide, by decide⟩ : IntFuncs.MachineInt Int8) .Forward) :=
  have h := search_brackets_and_range_iff (fun x y : ℕ => decide (x < y)) [1, 2, 2, 4] 2 Int8 Int8 Int8 fifties
    (⟨0, by decide, by decide⟩ : IntFuncs.MachineInt Int8) .Forward
  ⟨h.1 ⟨by simp, by simp; omega, by simp; omega⟩ (by decide) (by decide), h.2 (by decide)⟩

-- 50 is at position 3; the closed form subtracts -100 from it and wraps.
theorem searchsortedlast_fifties_wrong :
    Sorted FastRangeOrdering.Forward.lt fifties.elements ∧
    searchsortedlast FastRangeOrdering.Forward.lt fifties.elements 50 0 4 = .ok 3 ∧
    searchsortedlastRange fifties (⟨50, by decide, by decide⟩ : IntFuncs.MachineInt Int8) .Forward = .ok (-3) ∧
    ¬fifties.SearchAgrees (⟨50, by decide, by decide⟩ : IntFuncs.MachineInt Int8) .Forward := by
  refine ⟨by decide, by decide, by decide, fun h => ?_⟩
  obtain ⟨p, hp, hp'⟩ := h.last
  have h2 : searchsortedlast FastRangeOrdering.Forward.lt fifties.elements 50 0 (fifties.length - 1) = .ok 3 := by decide
  have h3 : searchsortedlastRange fifties (⟨50, by decide, by decide⟩ : IntFuncs.MachineInt Int8) .Forward = .ok (-3) := by decide
  have hp3 := Except.ok.inj (h2.symm.trans hp)
  have hp4 := Except.ok.inj (h3.symm.trans hp')
  omega

end Agreement

end Joolia.Sort
