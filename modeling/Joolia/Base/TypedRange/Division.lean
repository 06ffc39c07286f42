import Joolia.Base.TypedRange.Scalar

namespace Joolia.TypedRange

open IntFuncs Fallible

inductive DivisionError
  | DivideError
  | InexactError
  | ArgumentError
deriving DecidableEq, Repr

def toUnsigned (T : IntType) : IntType := ⟨false, T.width⟩

-- The unsigned type of the quotient of two numbers that are not both signed
def unsignedType (T S : IntType) : IntType := promote (toUnsigned T) (toUnsigned S)

def signedType (T S : IntType) : IntType := toSigned (unsignedType T S)

-- `checked_sdiv_int`, `checked_udiv_int`
def divSame (P : IntType) (x y : ℤ) : Except DivisionError ℤ :=
  if y = 0 ∨ (P.signed ∧ x = P.typemin ∧ y = -1) then .error .DivideError else .ok (x.tdiv y)

def remSame (x y : ℤ) : Except DivisionError ℤ := if y = 0 then .error .DivideError else .ok (x.tmod y)

-- `div(x, y)`: operands of one sign are promoted, others are not.
def div (T S : IntType) (x y : ℤ) : Except DivisionError ℤ :=
  if T.signed = S.signed then divSame (promote T S) ((promote T S).wrap x) ((promote T S).wrap y)
  else if T.signed then do
    let q ← divSame (unsignedType T S) (unsignedAbs T x : ℕ) y
    .ok (flipsign (signedType T S) ((signedType T S).wrap q) x)
  else do
    let q ← divSame (unsignedType T S) x (unsignedAbs S y : ℕ)
    .ok ((unsignedType T S).wrap (flipsign (signedType T S) ((signedType T S).wrap q) y))

-- `rem(x, y)`
def rem (T S : IntType) (x y : ℤ) : Except DivisionError ℤ :=
  if T.signed = S.signed then remSame ((promote T S).wrap x) ((promote T S).wrap y)
  else if T.signed then do
    let r ← remSame (unsignedAbs T x : ℕ) y
    .ok (flipsign (signedType T S) ((signedType T S).wrap r) x)
  else remSame x (unsignedAbs S y : ℕ)

-- `div(x, y, RoundDown)` and `div(x, y, RoundUp)` at one type
def fldSame (P : IntType) (x y : ℤ) : Except DivisionError ℤ := do
  let d ← divSame P x y
  if P.signed then .ok (P.wrap (d - if (decide (x < 0) != decide (y < 0)) && P.wrap (d * y) != x then 1 else 0))
  else .ok d

def cldSame (P : IntType) (x y : ℤ) : Except DivisionError ℤ := do
  let d ← divSame P x y
  if P.signed then .ok (P.wrap (d + if (decide (0 < x) == decide (0 < y)) && P.wrap (d * y) != x then 1 else 0))
  else .ok (P.wrap (d + if P.wrap (d * y) ≠ x then 1 else 0))

-- `divrem(x, y)` of operands of two signs
def divrem (T S : IntType) (x y : ℤ) : Except DivisionError (ℤ × ℤ) :=
  if T.signed then do
    let q ← divSame (unsignedType T S) (unsignedAbs T x : ℕ) y
    let r := (unsignedType T S).wrap ((unsignedAbs T x : ℕ) - (unsignedType T S).wrap (q * y))
    .ok (flipsign (signedType T S) ((signedType T S).wrap q) x, flipsign (signedType T S) ((signedType T S).wrap r) x)
  else do
    let q ← divSame (unsignedType T S) x (unsignedAbs S y : ℕ)
    let r := (unsignedType T S).wrap (x - (unsignedType T S).wrap (q * (unsignedAbs S y : ℕ)))
    .ok ((unsignedType T S).wrap (flipsign (signedType T S) ((signedType T S).wrap q) y), r)

-- `fld(x, y)`
def fld (T S : IntType) (x y : ℤ) : Except DivisionError ℤ :=
  if T.signed = S.signed then fldSame (promote T S) ((promote T S).wrap x) ((promote T S).wrap y)
  else do
    let (q, r) ← divrem T S x y
    if T.signed then .ok ((signedType T S).wrap (q - if x < 0 ∧ r ≠ 0 then 1 else 0))
    else .ok ((unsignedType T S).wrap (q - if y < 0 ∧ r ≠ 0 then 1 else 0))

-- `cld(x, y)`
def cld (T S : IntType) (x y : ℤ) : Except DivisionError ℤ :=
  if T.signed = S.signed then cldSame (promote T S) ((promote T S).wrap x) ((promote T S).wrap y)
  else do
    let (q, r) ← divrem T S x y
    if T.signed then .ok ((signedType T S).wrap (q + if 0 ≤ x ∧ r ≠ 0 then 1 else 0))
    else .ok ((unsignedType T S).wrap (q + if 0 ≤ y ∧ r ≠ 0 then 1 else 0))

-- `mod(x, y)`
def mod (T S : IntType) (x y : ℤ) : Except DivisionError ℤ :=
  if T.signed = S.signed then
    let P := promote T S
    if P.signed then
      if P.wrap y = -1 then .ok 0
      else fldSame P (P.wrap x) (P.wrap y) >>= fun q => .ok (P.wrap (P.wrap x - P.wrap (q * P.wrap y)))
    else remSame (P.wrap x) (P.wrap y)
  else do
    let r ← rem T S x y
    if T.signed then .ok ((unsignedType T S).wrap (r + if r < 0 then y else 0))
    else .ok ((signedType T S).wrap ((signedType T S).wrap r + if (signedType T S).wrap r ≠ 0 ∧ y < 0 then y else 0))

-- The type of `div(x, y)`, and that of `mod(x, y)`
def quotientType (T S : IntType) : IntType := ⟨T.signed, (unsignedType T S).width⟩

def moduloType (T S : IntType) : IntType := ⟨S.signed, (unsignedType T S).width⟩

section Types

variable {T S : IntType} {x y : ℤ}

theorem bits_unsignedType (T S : IntType) : (unsignedType T S).width.bits = max T.width.bits S.width.bits := bits_promote _ _

theorem bits_signedType (T S : IntType) : (signedType T S).width.bits = max T.width.bits S.width.bits := bits_unsignedType T S

theorem signed_unsignedType (T S : IntType) : (unsignedType T S).signed = false :=
  signed_promote (show (toUnsigned T).signed = (toUnsigned S).signed from rfl)

theorem quotientType_of_eq (h : T.signed = S.signed) : quotientType T S = promote T S := by
  have hwidth : (quotientType T S).width = (promote T S).width :=
    width_eq_of_bits ((bits_unsignedType T S).trans (bits_promote T S).symm)
  have hsigned : (quotientType T S).signed = (promote T S).signed := (signed_promote h).symm
  exact congr_arg₂ IntType.mk hsigned hwidth

theorem quotientType_signed (h : T.signed = true) : quotientType T S = signedType T S := by
  rw [quotientType, h]
  rfl

theorem quotientType_unsigned (h : T.signed = false) : quotientType T S = unsignedType T S := by
  rw [quotientType, h, ← signed_unsignedType T S]

theorem holds_of_bits_le {U : IntType} (hx : Holds T x) (hsigned : T.signed = U.signed) (hle : T.width.bits ≤ U.width.bits) :
    Holds U x := by
  have hpow : (2 : ℤ) ^ T.width.bits ≤ 2 ^ U.width.bits := pow_le_pow_right₀ (by omega) hle
  have hpow' : (2 : ℤ) ^ (T.width.bits - 1) ≤ 2 ^ (U.width.bits - 1) := pow_le_pow_right₀ (by omega) (by omega)
  unfold Holds IntType.typemin IntType.typemax at *
  rw [hsigned] at hx
  split_ifs at hx ⊢ <;> omega

-- Operands of one sign keep their values when they are promoted.
theorem holds_promote_left (h : T.signed = S.signed) (hx : Holds T x) : Holds (promote T S) x :=
  holds_of_bits_le hx (signed_promote h).symm (bits_promote T S ▸ le_max_left _ _)

theorem holds_promote_right (h : T.signed = S.signed) (hy : Holds S y) : Holds (promote T S) y := by
  rw [promote_comm]
  exact holds_promote_left h.symm hy

theorem nonneg_of_unsigned (hx : Holds T x) (h : T.signed = false) : 0 ≤ x := unsigned_nonneg ⟨x, hx.1, hx.2⟩ h

theorem abs_le_of_holds (hx : Holds T x) (h : T.signed = true) : |x| ≤ 2 ^ (T.width.bits - 1) :=
  abs_le_of_signed ⟨x, hx.1, hx.2⟩ h

theorem unsignedAbs_of_holds (hx : Holds T x) : ((unsignedAbs T x : ℕ) : ℤ) = |x| := unsignedAbs_val ⟨x, hx.1, hx.2⟩

theorem holds_flipsign (hx : Holds T x) (y : ℤ) : Holds T (flipsign T x y) := by
  unfold flipsign
  split_ifs
  · exact holds_wrap T _
  · exact hx

end Types

section Quotients

variable {P T S : IntType} {x y : ℤ}

theorem abs_tdiv_le (x y : ℤ) : |x.tdiv y| ≤ |x| := by
  rw [Int.abs_eq_natAbs, Int.abs_eq_natAbs, Int.natAbs_tdiv]
  exact_mod_cast Nat.div_le_self _ _

theorem abs_tmod_le (x y : ℤ) : |x.tmod y| ≤ |x| := by
  rw [Int.abs_eq_natAbs, Int.abs_eq_natAbs, Int.natAbs_tmod]
  exact_mod_cast Nat.mod_le _ _

-- A value no larger than one of the type, and of no other sign
theorem holds_of_abs_le {z : ℤ} (hx : Holds P x) (hle : |z| ≤ |x|) (hpos : 0 ≤ x → 0 ≤ z) (hneg : x ≤ 0 → z ≤ 0) : Holds P z := by
  have hlo := hx.1
  have hhi := hx.2
  have hmin := typemin_nonpos P
  have hmax := (holds_zero P).2
  rcases le_total 0 x with h | h
  · rw [abs_of_nonneg h, abs_of_nonneg (hpos h)] at hle
    exact ⟨by have := hpos h; omega, by omega⟩
  · rw [abs_of_nonpos h, abs_of_nonpos (hneg h)] at hle
    exact ⟨by omega, by have := hneg h; omega⟩

theorem holds_tmod (hx : Holds P x) (y : ℤ) : Holds P (x.tmod y) := by
  refine holds_of_abs_le hx (abs_tmod_le x y) (Int.tmod_nonneg y) fun h => ?_
  have hneg := Int.tmod_nonneg y (Int.neg_nonneg_of_nonpos h)
  rw [Int.neg_tmod] at hneg
  omega

-- Only `typemin ÷ -1` leaves the type.
theorem holds_tdiv (hx : Holds P x) (hy : Holds P y) (h : ¬(P.signed = true ∧ x = P.typemin ∧ y = -1)) : Holds P (x.tdiv y) := by
  by_cases hsigned : P.signed = true
  · have hxabs := abs_le_of_holds hx hsigned
    have hdiv := abs_tdiv_le x y
    have hlo : P.typemin = -2 ^ (P.width.bits - 1) := by rw [IntType.typemin, if_pos hsigned]
    have hhi : P.typemax = 2 ^ (P.width.bits - 1) - 1 := by rw [IntType.typemax, if_pos hsigned]
    by_cases hone : |x.tdiv y| = 2 ^ (P.width.bits - 1)
    · -- no division took place
      have habs : |x| = 2 ^ (P.width.bits - 1) := by omega
      have hx' : x = P.typemin := by
        have hmax := hx.2
        rcases abs_choice x with hx' | hx' <;> omega
      have hpow : (0 : ℤ) < 2 ^ (P.width.bits - 1) := by positivity
      have hy1 : y.natAbs = 1 := by
        rw [Int.abs_eq_natAbs, Int.natAbs_tdiv] at hone
        rw [Int.abs_eq_natAbs] at habs
        have hself : x.natAbs / y.natAbs = x.natAbs := by exact_mod_cast hone.trans habs.symm
        rcases Nat.lt_trichotomy y.natAbs 1 with hlt | heq | hgt
        · rw [Nat.lt_one_iff.1 hlt, Nat.div_zero] at hself
          omega
        · exact heq
        · have hlt := Nat.div_lt_self (show 0 < x.natAbs by omega) hgt
          omega
      have hy' : y = 1 := by
        rcases Int.natAbs_eq y with hy' | hy' <;> rw [hy1] at hy'
        · exact hy'
        · exact absurd ⟨hsigned, hx', hy'⟩ h
      rw [hy', Int.tdiv_one]
      exact hx
    · exact holds_of_abs_lt hsigned (by omega)
  · have hx0 := nonneg_of_unsigned hx (Bool.eq_false_iff.2 hsigned)
    have hy0 := nonneg_of_unsigned hy (Bool.eq_false_iff.2 hsigned)
    refine holds_of_abs_le hx (abs_tdiv_le x y) (fun _ => Int.tdiv_nonneg hx0 hy0) fun hx1 => ?_
    rw [show x = 0 by omega, Int.zero_tdiv]

theorem divSame_eq (hne : y ≠ 0) (h : ¬(P.signed = true ∧ x = P.typemin ∧ y = -1)) : divSame P x y = .ok (x.tdiv y) := by
  rw [divSame, if_neg (by tauto)]

-- Truncated division divides the absolute values.
theorem tdiv_eq_abs (x y : ℤ) : x.tdiv y = if x < 0 then -(|x|.tdiv y) else |x|.tdiv y := by
  split_ifs with hneg
  · rw [abs_of_neg hneg, Int.neg_tdiv, Int.neg_neg]
  · rw [abs_of_nonneg (by omega)]

theorem tmod_eq_abs (x y : ℤ) : x.tmod y = if x < 0 then -(|x|.tmod y) else |x|.tmod y := by
  split_ifs with hneg
  · rw [abs_of_neg hneg, Int.neg_tmod, Int.neg_neg]
  · rw [abs_of_nonneg (by omega)]

theorem tdiv_eq_of_abs (x y : ℤ) : x.tdiv y = if y < 0 then -(x.tdiv |y|) else x.tdiv |y| := by
  split_ifs with hneg
  · rw [abs_of_neg hneg, Int.tdiv_neg, Int.neg_neg]
  · rw [abs_of_nonneg (by omega)]

theorem tmod_abs_right (x y : ℤ) : x.tmod |y| = x.tmod y := by
  rcases abs_choice y with h | h
  · rw [h]
  · rw [h, Int.tmod_neg]

-- The sign of `z` put back.
theorem flipsign_wrap_modEq (q z : ℤ) : flipsign P (P.wrap q) z ≡ (if z < 0 then -q else q) [ZMOD 2 ^ P.width.bits] := by
  refine (flipsign_modEq P _ z).trans ?_
  split_ifs
  · exact (wrap_modEq P q).neg
  · exact wrap_modEq P q

theorem flipsign_wrap_eq {q z w : ℤ} (hw : w = if z < 0 then -q else q) : flipsign P (P.wrap q) z = P.wrap w := by
  refine eq_of_modEq (holds_flipsign (holds_wrap P q) z) (holds_wrap P w) ?_
  rw [hw]
  exact (flipsign_wrap_modEq q z).trans (wrap_modEq P _).symm

theorem wrap_flipsign_eq {Q : IntType} {q z w : ℤ} (hbits : Q.width.bits = P.width.bits) (hw : w = if z < 0 then -q else q) :
    Q.wrap (flipsign P (P.wrap q) z) = Q.wrap w := by
  refine wrap_congr ?_
  rw [hw, hbits]
  exact flipsign_wrap_modEq q z

theorem divSame_unsigned (T S : IntType) (x : ℤ) (hne : y ≠ 0) : divSame (unsignedType T S) x y = .ok (x.tdiv y) := by
  refine divSame_eq hne fun h => ?_
  rw [signed_unsignedType] at h
  exact absurd h.1 Bool.false_ne_true

theorem unsignedAbs_ne_zero (hy : Holds S y) (hne : y ≠ 0) : ((unsignedAbs S y : ℕ) : ℤ) ≠ 0 := by
  rw [unsignedAbs_of_holds hy]
  exact abs_ne_zero.2 hne

-- What `div` computes.
theorem div_eq (hx : Holds T x) (hy : Holds S y) (hne : y ≠ 0) :
    div T S x y = if T.signed = true ∧ S.signed = true ∧ x = (promote T S).typemin ∧ y = -1 then .error .DivideError
      else .ok ((quotientType T S).wrap (x.tdiv y)) := by
  rw [div]
  by_cases hsame : T.signed = S.signed
  · have hPx := holds_promote_left hsame hx
    have hPy := holds_promote_right hsame hy
    rw [if_pos hsame, wrap_of_holds hPx, wrap_of_holds hPy, quotientType_of_eq hsame]
    have hiff : (T.signed = true ∧ S.signed = true ∧ x = (promote T S).typemin ∧ y = -1) ↔
        ((promote T S).signed = true ∧ x = (promote T S).typemin ∧ y = -1) := by
      rw [signed_promote hsame, ← hsame]
      tauto
    rw [if_congr hiff rfl rfl]
    split_ifs with hmin
    · rw [divSame, if_pos (.inr hmin)]
    · rw [divSame_eq hne hmin, wrap_of_holds (holds_tdiv hPx hPy hmin)]
  · rw [if_neg hsame, if_neg (c := T.signed = true ∧ _) (by rintro ⟨h, h', -⟩; exact hsame (h.trans h'.symm))]
    by_cases hsigned : T.signed = true
    · rw [if_pos hsigned, divSame_unsigned T S _ hne, ok_bind, unsignedAbs_of_holds hx, flipsign_wrap_eq (tdiv_eq_abs x y),
        quotientType_signed hsigned]
    · rw [if_neg hsigned, divSame_unsigned T S _ (unsignedAbs_ne_zero hy hne), ok_bind, unsignedAbs_of_holds hy,
        wrap_flipsign_eq (show (unsignedType T S).width.bits = (signedType T S).width.bits from rfl) (tdiv_eq_of_abs x y), quotientType_unsigned (Bool.eq_false_iff.2 hsigned)]

-- `rem` is always exact.
theorem rem_eq (hx : Holds T x) (hy : Holds S y) (hne : y ≠ 0) : rem T S x y = .ok (x.tmod y) := by
  rw [rem]
  by_cases hsame : T.signed = S.signed
  · rw [if_pos hsame, wrap_of_holds (holds_promote_left hsame hx), wrap_of_holds (holds_promote_right hsame hy), remSame,
      if_neg hne]
  · rw [if_neg hsame]
    by_cases hsigned : T.signed = true
    · have hwide : Holds (signedType T S) x :=
        holds_of_bits_le hx hsigned (bits_signedType T S ▸ le_max_left _ _)
      rw [if_pos hsigned, remSame, if_neg hne, ok_bind, unsignedAbs_of_holds hx, flipsign_wrap_eq (tmod_eq_abs x y),
        wrap_of_holds (holds_tmod hwide y)]
    · rw [if_neg hsigned, remSame, if_neg (unsignedAbs_ne_zero hy hne), unsignedAbs_of_holds hy, tmod_abs_right]

section Floors

-- Rounding down corrects the truncated quotient.
theorem fdiv_eq_tdiv_sub (x y : ℤ) (hne : y ≠ 0) :
    x.fdiv y = x.tdiv y - if (decide (x < 0) != decide (y < 0)) && x.tdiv y * y != x then 1 else 0 := by
  have hdvd : y ∣ x ↔ x.tdiv y * y = x := ⟨Int.tdiv_mul_cancel, fun h => ⟨x.tdiv y, by rw [Int.mul_comm]; exact h.symm⟩⟩
  rw [Int.fdiv_eq_tdiv]
  simp only [Bool.and_eq_true, bne_iff_ne, ne_eq, decide_eq_decide, ← hdvd]
  by_cases h : y ∣ x
  · rw [if_pos h, if_neg fun hc => hc.2 h]
  · rw [if_neg h]
    rcases Int.lt_or_gt_of_ne hne with hneg | hpos
    · rw [Int.sign_eq_neg_one_of_neg hneg]
      split_ifs <;> omega
    · rw [Int.sign_eq_one_of_pos hpos]
      split_ifs <;> omega

theorem fmod_eq_tmod_add (x y : ℤ) (hne : y ≠ 0) :
    x.fmod y = x.tmod y + if (decide (x < 0) != decide (y < 0)) && x.tdiv y * y != x then y else 0 := by
  rw [Int.fmod_def, Int.tmod_def, fdiv_eq_tdiv_sub x y hne]
  split_ifs <;> ring

theorem fmod_bounds (x : ℤ) {y : ℤ} : (0 < y → 0 ≤ x.fmod y ∧ x.fmod y < y) ∧ (y < 0 → y < x.fmod y ∧ x.fmod y ≤ 0) := by
  refine ⟨fun hpos => ⟨Int.fmod_nonneg_of_pos x hpos, Int.fmod_lt_of_pos x hpos⟩, fun hneg => ?_⟩
  have hflip : x.fmod y = -((-x).fmod (-y)) := by
    rw [Int.fmod_def, Int.fmod_def, Int.neg_fdiv_neg]
    ring
  have hlo := Int.fmod_nonneg_of_pos (-x) (by omega : 0 < -y)
  have hhi := Int.fmod_lt_of_pos (-x) (by omega : 0 < -y)
  omega

theorem holds_fmod (hy : Holds P y) (x : ℤ) (hne : y ≠ 0) : Holds P (x.fmod y) := by
  obtain ⟨hpos, hneg⟩ := fmod_bounds x
  refine holds_of_abs_le hy ?_ (fun h => (hpos (by omega)).1) fun h => (hneg (by omega)).2
  rcases Int.lt_or_gt_of_ne hne with h | h
  · have hb := hneg h
    rw [abs_of_nonpos hb.2, abs_of_neg h]
    omega
  · have hb := hpos h
    rw [abs_of_nonneg hb.1, abs_of_pos h]
    omega

-- The quotient rounded up
def cdiv (x y : ℤ) : ℤ := -((-x).fdiv y)

theorem cdiv_eq_tdiv_add (x y : ℤ) (hne : y ≠ 0) :
    cdiv x y = x.tdiv y + if (decide (0 < x) == decide (0 < y)) && x.tdiv y * y != x then 1 else 0 := by
  have hflip : (-x).tdiv y * y ≠ -x ↔ x.tdiv y * y ≠ x := by
    rw [Int.neg_tdiv, Int.neg_mul]
    omega
  have hzero : x = 0 → x.tdiv y * y = x := by
    rintro rfl
    rw [Int.zero_tdiv, Int.zero_mul]
  rw [cdiv, fdiv_eq_tdiv_sub (-x) y hne, Int.neg_sub, Int.neg_tdiv, Int.sub_neg, Int.add_comm]
  congr 1
  refine if_congr ?_ rfl rfl
  rw [← Int.neg_tdiv]
  simp only [Bool.and_eq_true, bne_iff_ne, beq_iff_eq, ne_eq, decide_eq_decide]
  rw [← ne_eq, ← ne_eq, hflip]
  refine and_congr_left fun hxy => ?_
  have hx0 : x ≠ 0 := fun h => hxy (hzero h)
  omega

-- The product of a quotient and its divisor
theorem holds_tdiv_mul (hx : Holds P x) (y : ℤ) : Holds P (x.tdiv y * y) := by
  have hmod := Int.tdiv_mul_self x y
  have habs := abs_tmod_le x y
  refine holds_of_abs_le hx ?_ (fun h0 => ?_) fun h0 => ?_
  · rw [abs_mul, Int.abs_eq_natAbs (x.tdiv y), Int.natAbs_tdiv, Int.abs_eq_natAbs y, Int.abs_eq_natAbs x]
    exact_mod_cast Nat.div_mul_le_self _ _
  · have hle := (le_abs_self _).trans habs
    rw [abs_of_nonneg h0] at hle
    omega
  · have hle := neg_abs_le (x.tmod y)
    rw [abs_of_nonpos h0] at habs
    omega

theorem fldSame_eq (hx : Holds P x) (hy : Holds P y) (hne : y ≠ 0) (h : ¬(P.signed = true ∧ x = P.typemin ∧ y = -1)) :
    fldSame P x y = .ok (P.wrap (x.fdiv y)) := by
  rw [fldSame, divSame_eq hne h, ok_bind]
  by_cases hsigned : P.signed = true
  · rw [if_pos hsigned, wrap_of_holds (holds_tdiv_mul hx y), fdiv_eq_tdiv_sub x y hne]
  · have hx0 := nonneg_of_unsigned hx (Bool.eq_false_iff.2 hsigned)
    have hy0 := nonneg_of_unsigned hy (Bool.eq_false_iff.2 hsigned)
    rw [if_neg hsigned, Int.fdiv_eq_tdiv_of_nonneg hx0 hy0, wrap_of_holds (holds_tdiv hx hy h)]

theorem cldSame_eq (hx : Holds P x) (hy : Holds P y) (hne : y ≠ 0) (h : ¬(P.signed = true ∧ x = P.typemin ∧ y = -1)) :
    cldSame P x y = .ok (P.wrap (cdiv x y)) := by
  rw [cldSame, divSame_eq hne h, ok_bind, wrap_of_holds (holds_tdiv_mul hx y), cdiv_eq_tdiv_add x y hne]
  by_cases hsigned : P.signed = true
  · rw [if_pos hsigned]
  · have hx0 := nonneg_of_unsigned hx (Bool.eq_false_iff.2 hsigned)
    have hy0 := nonneg_of_unsigned hy (Bool.eq_false_iff.2 hsigned)
    have hzero : x = 0 → x.tdiv y * y = x := by
      rintro rfl
      rw [Int.zero_tdiv, Int.zero_mul]
    rw [if_neg hsigned]
    refine congrArg Except.ok (congrArg P.wrap (congrArg (x.tdiv y + ·) (if_congr ?_ rfl rfl)))
    simp only [Bool.and_eq_true, bne_iff_ne, beq_iff_eq, ne_eq, decide_eq_decide]
    refine ⟨fun hxy => ⟨?_, hxy⟩, fun hxy => hxy.2⟩
    have hx1 : x ≠ 0 := fun h => hxy (hzero h)
    omega

theorem divSame_bad (h : P.signed = true ∧ x = P.typemin ∧ y = -1) : divSame P x y = .error .DivideError := by
  rw [divSame, if_pos (.inr h)]

theorem wrap_add_wrap (P : IntType) (x y : ℤ) : P.wrap (P.wrap x + y) = P.wrap (x + y) := wrap_congr ((wrap_modEq P x).add_right y)

theorem wrap_sub_wrap (P : IntType) (x y : ℤ) : P.wrap (P.wrap x - y) = P.wrap (x - y) := wrap_congr ((wrap_modEq P x).sub_right y)

-- `divrem` of operands of two signs
theorem divrem_eq (hx : Holds T x) (hy : Holds S y) (hne : y ≠ 0) :
    ∃ r, divrem T S x y = .ok ((quotientType T S).wrap (x.tdiv y), r) ∧ (r ≠ 0 ↔ x.tdiv y * y ≠ x) := by
  have hmod := Int.tdiv_mul_self x y
  rw [divrem]
  by_cases hsigned : T.signed = true
  · have hxabs : Holds (unsignedType T S) |x| := by
      have habs := abs_le_of_holds hx hsigned
      have hpow : (2 : ℤ) ^ (T.width.bits - 1) ≤ 2 ^ ((unsignedType T S).width.bits - 1) :=
        pow_le_pow_right₀ (by omega) (Nat.sub_le_sub_right (bits_unsignedType T S ▸ le_max_left _ _) 1)
      have htwo := two_pow_bits (unsignedType T S).width
      have hpos : (0 : ℤ) < 2 ^ ((unsignedType T S).width.bits - 1) := by positivity
      rw [Holds, IntType.typemin, IntType.typemax, signed_unsignedType, if_neg Bool.false_ne_true, if_neg Bool.false_ne_true]
      exact ⟨abs_nonneg x, by omega⟩
    have hwide : Holds (signedType T S) x := holds_of_bits_le hx hsigned (bits_signedType T S ▸ le_max_left _ _)
    have hrest : |x| - |x|.tdiv y * y = |x|.tmod y := by
      have hmod' := Int.tdiv_mul_self |x| y
      omega
    have hr : (unsignedType T S).wrap (|x| - (unsignedType T S).wrap (|x|.tdiv y * y)) = |x|.tmod y := by
      rw [wrap_of_holds (holds_tdiv_mul hxabs y), hrest, wrap_of_holds (holds_tmod hxabs y)]
    rw [if_pos hsigned, divSame_unsigned T S _ hne, ok_bind, unsignedAbs_of_holds hx]
    dsimp only
    rw [hr, flipsign_wrap_eq (tdiv_eq_abs x y), flipsign_wrap_eq (tmod_eq_abs x y), wrap_of_holds (holds_tmod hwide y),
      quotientType_signed hsigned]
    exact ⟨_, rfl, by omega⟩
  · have hT : T.signed = false := Bool.eq_false_iff.2 hsigned
    have hwide : Holds (unsignedType T S) x :=
      holds_of_bits_le hx (hT.trans (signed_unsignedType T S).symm) (bits_unsignedType T S ▸ le_max_left _ _)
    have hrest : x - x.tdiv |y| * |y| = x.tmod y := by
      have hmod' := Int.tdiv_mul_self x |y|
      rw [tmod_abs_right] at hmod'
      omega
    have hr : (unsignedType T S).wrap (x - (unsignedType T S).wrap (x.tdiv |y| * |y|)) = x.tmod y := by
      rw [wrap_of_holds (holds_tdiv_mul hwide _), hrest, wrap_of_holds (holds_tmod hwide y)]
    rw [if_neg hsigned, divSame_unsigned T S _ (unsignedAbs_ne_zero hy hne), ok_bind, unsignedAbs_of_holds hy]
    dsimp only
    rw [hr, wrap_flipsign_eq (show (unsignedType T S).width.bits = (signedType T S).width.bits from rfl) (tdiv_eq_of_abs x y),
      quotientType_unsigned hT]
    exact ⟨_, rfl, by omega⟩

-- What `fld` computes.
theorem fld_eq (hx : Holds T x) (hy : Holds S y) (hne : y ≠ 0) :
    fld T S x y = if T.signed = true ∧ S.signed = true ∧ x = (promote T S).typemin ∧ y = -1 then .error .DivideError
      else .ok ((quotientType T S).wrap (x.fdiv y)) := by
  rw [fld]
  by_cases hsame : T.signed = S.signed
  · have hPx := holds_promote_left hsame hx
    have hPy := holds_promote_right hsame hy
    have hiff : (T.signed = true ∧ S.signed = true ∧ x = (promote T S).typemin ∧ y = -1) ↔
        ((promote T S).signed = true ∧ x = (promote T S).typemin ∧ y = -1) := by
      rw [signed_promote hsame, ← hsame]
      tauto
    rw [if_pos hsame, wrap_of_holds hPx, wrap_of_holds hPy, quotientType_of_eq hsame, if_congr hiff rfl rfl]
    split_ifs with hmin
    · rw [fldSame, divSame_bad hmin, error_bind]
    · rw [fldSame_eq hPx hPy hne hmin]
  · obtain ⟨r, hdivrem, hr⟩ := divrem_eq hx hy hne
    rw [if_neg hsame, if_neg (c := T.signed = true ∧ _) (by rintro ⟨h, h', -⟩; exact hsame (h.trans h'.symm)), hdivrem, ok_bind,
      fdiv_eq_tdiv_sub x y hne]
    dsimp only
    by_cases hsigned : T.signed = true
    · have hy0 := nonneg_of_unsigned hy (Bool.eq_false_iff.2 fun h => hsame (hsigned.trans h.symm))
      rw [if_pos hsigned, quotientType_signed hsigned, wrap_sub_wrap]
      refine congrArg Except.ok (congrArg _ (congrArg (x.tdiv y - ·) (if_congr ?_ rfl rfl)))
      simp only [Bool.and_eq_true, bne_iff_ne, ne_eq, decide_eq_decide]
      omega
    · have hx0 := nonneg_of_unsigned hx (Bool.eq_false_iff.2 hsigned)
      rw [if_neg hsigned, quotientType_unsigned (Bool.eq_false_iff.2 hsigned), wrap_sub_wrap]
      refine congrArg Except.ok (congrArg _ (congrArg (x.tdiv y - ·) (if_congr ?_ rfl rfl)))
      simp only [Bool.and_eq_true, bne_iff_ne, ne_eq, decide_eq_decide]
      omega

-- What `cld` computes.
theorem cld_eq (hx : Holds T x) (hy : Holds S y) (hne : y ≠ 0) :
    cld T S x y = if T.signed = true ∧ S.signed = true ∧ x = (promote T S).typemin ∧ y = -1 then .error .DivideError
      else .ok ((quotientType T S).wrap (cdiv x y)) := by
  have hzero : x = 0 → x.tdiv y * y = x := by
    rintro rfl
    rw [Int.zero_tdiv, Int.zero_mul]
  rw [cld]
  by_cases hsame : T.signed = S.signed
  · have hPx := holds_promote_left hsame hx
    have hPy := holds_promote_right hsame hy
    have hiff : (T.signed = true ∧ S.signed = true ∧ x = (promote T S).typemin ∧ y = -1) ↔
        ((promote T S).signed = true ∧ x = (promote T S).typemin ∧ y = -1) := by
      rw [signed_promote hsame, ← hsame]
      tauto
    rw [if_pos hsame, wrap_of_holds hPx, wrap_of_holds hPy, quotientType_of_eq hsame, if_congr hiff rfl rfl]
    split_ifs with hmin
    · rw [cldSame, divSame_bad hmin, error_bind]
    · rw [cldSame_eq hPx hPy hne hmin]
  · obtain ⟨r, hdivrem, hr⟩ := divrem_eq hx hy hne
    rw [if_neg hsame, if_neg (c := T.signed = true ∧ _) (by rintro ⟨h, h', -⟩; exact hsame (h.trans h'.symm)), hdivrem, ok_bind,
      cdiv_eq_tdiv_add x y hne]
    dsimp only
    by_cases hsigned : T.signed = true
    · have hy0 := nonneg_of_unsigned hy (Bool.eq_false_iff.2 fun h => hsame (hsigned.trans h.symm))
      rw [if_pos hsigned, quotientType_signed hsigned, wrap_add_wrap]
      refine congrArg Except.ok (congrArg _ (congrArg (x.tdiv y + ·) (if_congr ?_ rfl rfl)))
      simp only [Bool.and_eq_true, bne_iff_ne, beq_iff_eq, ne_eq, decide_eq_decide]
      omega
    · have hx0 := nonneg_of_unsigned hx (Bool.eq_false_iff.2 hsigned)
      rw [if_neg hsigned, quotientType_unsigned (Bool.eq_false_iff.2 hsigned), wrap_add_wrap]
      refine congrArg Except.ok (congrArg _ (congrArg (x.tdiv y + ·) (if_congr ?_ rfl rfl)))
      simp only [Bool.and_eq_true, bne_iff_ne, beq_iff_eq, ne_eq, decide_eq_decide]
      omega

-- `mod` is always exact.
theorem mod_eq (hx : Holds T x) (hy : Holds S y) (hne : y ≠ 0) : mod T S x y = .ok (x.fmod y) := by
  have hcorrect := fmod_eq_tmod_add x y hne
  have hdvd : x.tdiv y * y = x ↔ x.tmod y = 0 := by
    have hmod := Int.tdiv_mul_self x y
    omega
  rw [mod]
  by_cases hsame : T.signed = S.signed
  · have hPx := holds_promote_left hsame hx
    have hPy := holds_promote_right hsame hy
    rw [if_pos hsame]
    dsimp only
    rw [wrap_of_holds hPx, wrap_of_holds hPy]
    by_cases hsigned : (promote T S).signed = true
    · rw [if_pos hsigned]
      by_cases hone : y = -1
      · have hb := (fmod_bounds x (y := y)).2 (by omega)
        rw [if_pos hone, show x.fmod y = 0 by omega]
      · rw [if_neg hone, fldSame_eq hPx hPy hne fun h => hone h.2.2, ok_bind]
        have hmod : (promote T S).wrap (x - (promote T S).wrap ((promote T S).wrap (x.fdiv y) * y)) =
            (promote T S).wrap (x.fmod y) := by
          refine wrap_congr ?_
          rw [Int.fmod_def, Int.mul_comm y]
          exact Int.ModEq.rfl.sub ((wrap_modEq _ _).trans ((wrap_modEq _ _).mul_right y))
        rw [hmod, wrap_of_holds (holds_fmod hPy x hne)]
    · have hx0 := nonneg_of_unsigned hPx (Bool.eq_false_iff.2 hsigned)
      have hy0 := nonneg_of_unsigned hPy (Bool.eq_false_iff.2 hsigned)
      rw [if_neg hsigned, remSame, if_neg hne, Int.fmod_eq_tmod_of_nonneg hx0 hy0]
  · rw [if_neg hsame, rem_eq hx hy hne, ok_bind]
    by_cases hsigned : T.signed = true
    · have hS : S.signed = false := Bool.eq_false_iff.2 fun h => hsame (hsigned.trans h.symm)
      have hy0 := nonneg_of_unsigned hy hS
      have hwide : Holds (unsignedType T S) (x.fmod y) :=
        holds_of_bits_le (holds_fmod hy x hne) (hS.trans (signed_unsignedType T S).symm)
          (bits_unsignedType T S ▸ le_max_right _ _)
      have hsum : (x.tmod y + if x.tmod y < 0 then y else 0) = x.fmod y := by
        rw [hcorrect]
        congr 1
        refine if_congr ?_ rfl rfl
        simp only [Bool.and_eq_true, bne_iff_ne, ne_eq, decide_eq_decide, hdvd]
        have hnonneg := fun h : 0 ≤ x => Int.tmod_nonneg y h
        have hnonpos := fun h : 0 ≤ -x => Int.tmod_nonneg y h
        rw [Int.neg_tmod] at hnonpos
        omega
      rw [if_pos hsigned, hsum, wrap_of_holds hwide]
    · have hT : T.signed = false := Bool.eq_false_iff.2 hsigned
      have hS : S.signed = true := by
        by_contra h
        exact hsame (hT.trans (Bool.eq_false_iff.2 h).symm)
      have hx0 := nonneg_of_unsigned hx hT
      have hwide : ∀ z, Holds S z → Holds (signedType T S) z := fun z hz =>
        holds_of_bits_le hz hS (bits_signedType T S ▸ le_max_right _ _)
      have hr0 := Int.tmod_nonneg y hx0
      have hr : Holds (signedType T S) (x.tmod y) := by
        refine holds_of_abs_lt rfl ?_
        have hlt : |x.tmod y| < |y| := by
          rw [Int.abs_eq_natAbs, Int.abs_eq_natAbs, Int.natAbs_tmod]
          exact_mod_cast Nat.mod_lt _ (by omega)
        exact (hlt.trans_le (abs_le_of_holds hy hS)).trans_le
          (pow_le_pow_right₀ (by omega) (Nat.sub_le_sub_right (bits_signedType T S ▸ le_max_right _ _) 1))
      have hsum : (x.tmod y + if x.tmod y ≠ 0 ∧ y < 0 then y else 0) = x.fmod y := by
        rw [hcorrect]
        congr 1
        refine if_congr ?_ rfl rfl
        simp only [Bool.and_eq_true, bne_iff_ne, ne_eq, decide_eq_decide, hdvd]
        omega
      rw [if_neg hsigned, wrap_of_holds hr, hsum, wrap_of_holds (hwide _ (holds_fmod hy x hne))]

end Floors

end Quotients

end Joolia.TypedRange
