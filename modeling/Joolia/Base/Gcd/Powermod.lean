import Joolia.Base.Gcd.Machine
import Joolia.Base.MultInverses.Theorems

namespace Joolia.Gcd.Machine

open IntFuncs TypedRange MultInverses Fallible

section Model

-- The functions of the library for big integers
structure Gmp where
  gcdext : ℤ → ℤ → ℤ × ℤ × ℤ
  powm : ℤ → ℤ → ℤ → ℤ

-- The loops of `powermod`, with the reduced product of each
def squareLoop (reduce : ℤ → ℤ → Except IntegerError ℤ) : ℕ → ℤ → ℤ → ℤ → Except IntegerError ℤ
  | 0, _, _, _ => .error .Unfinished
  | fuel + 1, p, rr, bb => do
      let rr ← (if p % 2 ≠ 0 then reduce rr bb else .ok rr)
      let p := p / 2
      if p = 0 then .ok rr
      else do
        let bb ← reduce bb bb
        squareLoop reduce fuel p rr bb

variable (T : IntType)

-- `mod(a * b, mis)`
def reduceInverse {w : Width} (mis : UnsignedMultiplicativeInverse w) (a b : ℤ) : Except IntegerError ℤ :=
  .ok (mis.mod ((unsigned w).wrap (a * b)))

-- `oftype(mm, mod(widemul(a, b), mm))`
def reduceWide (mm a b : ℤ) : Except IntegerError ℤ := do
  let U := toUnsigned T
  let r ← mod (widemulType U U) U (widemul U U a b) mm
  convert U r

-- `_powermod_mi_legal(mm)`
def powermodMiLegal (mm : ℤ) : Prop := mm ≤ (toUnsigned T).typemax / 2 ^ (T.width.sizeof * 4)

instance (mm : ℤ) : Decidable (powermodMiLegal T mm) := inferInstanceAs (Decidable (_ ≤ _))

-- `uabs(m)`
def uabs (m : ℤ) : MachineInt (unsigned T.width) :=
  ⟨(unsigned T.width).wrap (abs T m), (holds_wrap _ _).1, (holds_wrap _ _).2⟩

-- The powers by one way of reducing products, and by the other
def powerInverse (mm : MachineInt (unsigned T.width)) (p bb : ℤ) : Except IntegerError ℤ :=
  if bb = 0 then .ok 0
  else
    match UnsignedMultiplicativeInverse.new T.width mm with
    | .error _ => .error .ArgumentError
    | .ok mis => squareLoop (reduceInverse mis) p.toNat.size p 1 bb

def powerWide (mm : MachineInt (unsigned T.width)) (p bb : ℤ) : Except IntegerError ℤ :=
  if bb = 0 then .ok 0 else squareLoop (reduceWide T mm.val) p.toNat.size p 1 bb

-- `powermod(x, p, m)` with an exponent that is not negative
def powermodNonneg (X : IntType) (x p m : ℤ) : Except IntegerError ℤ :=
  if p = 0 then mod T T 1 m
  else if m = 1 ∨ m = -1 then .ok 0
  else do
    let U := toUnsigned T
    let mm := uabs T m
    let bb ← mod X U x mm.val
    let bb ← convert U bb
    let rr ← (if powermodMiLegal T mm.val ∧ 2 * T.width.sizeof < p then powerInverse T mm p bb else powerWide T mm p bb)
    let r ← convert T rr
    .ok (if r = 0 ∨ 0 < m then r else T.wrap (r + m))

-- `mod(widemul(r, x), m)`; the product of a 128-bit number is a big integer.
def widemulMod (I : IntType) (r x m : ℤ) : Except IntegerError ℤ :=
  if T.width = .w128 ∨ I.width = .w128 then modBig (r * x) m else mod (widemulType T I) T (widemul T I r x) m

-- `powermod(x, p, m)` of big integers
def powermodBig (gmp : Gmp) (x p m : ℤ) : ℤ :=
  let r := gmp.powm x p m
  if m < 0 ∧ 0 < r then r + m else r

-- powermod
def powermod (gmp : Gmp) (X P T : IntType) (x p m : ℤ) : Except IntegerError ℤ :=
  if T.width = .w128 then convert T (powermodBig gmp x p m)
  else if p < 0 then do
    let imod ← invmod gmp.gcdext X T x m
    let I := moduloType (promote X T) T
    if p = P.wrap (-p) then
      match TypedRange.div P IntFuncs.Int64 p 2 with
      | .error _ => .error .DivideError
      | .ok q => do
          let rhalf ← powermodNonneg T I imod ((quotientType P IntFuncs.Int64).wrap (-q)) m
          let r ← widemulMod T T rhalf rhalf m
          let r ← convert T r
          if p % 2 ≠ 0 then widemulMod T I r imod m >>= convert T else .ok r
    else powermodNonneg T I imod (P.wrap (-p)) m
  else powermodNonneg T X x p m

end Model

section Loops

variable {T : IntType} {mm : ℤ}

-- What both ways of reducing a product do below the modulus
def Reduces (mm : ℤ) (reduce : ℤ → ℤ → Except IntegerError ℤ) : Prop :=
  ∀ a b, 0 ≤ a → a < mm → 0 ≤ b → b < mm → reduce a b = .ok (a * b % mm)

-- One pass takes the lowest bit of the exponent and squares the base.
theorem squareLoop_spec {reduce : ℤ → ℤ → Except IntegerError ℤ} (hreduce : Reduces mm reduce) {fuel n : ℕ} {rr bb : ℤ}
    (hpos : 0 < n) (hfuel : n < 2 ^ fuel) (hr0 : 0 ≤ rr) (hr : rr < mm) (hb0 : 0 ≤ bb) (hb : bb < mm) :
    squareLoop reduce fuel n rr bb = .ok (rr * bb ^ n % mm) := by
  induction fuel generalizing n rr bb with
  | zero => omega
  | succ fuel ih =>
      have hmm : 0 < mm := hr0.trans_lt hr
      have hhalf : (n : ℤ) / 2 = (n / 2 : ℕ) := rfl
      have hbit : (n : ℤ) % 2 = (n % 2 : ℕ) := rfl
      have hsplit : bb ^ n = bb ^ (n % 2) * (bb * bb) ^ (n / 2) := by
        rw [← pow_two, ← pow_mul, ← pow_add, Nat.mod_add_div]
      have hfirst : (if (n : ℤ) % 2 ≠ 0 then reduce rr bb else .ok rr) = .ok (rr * bb ^ (n % 2) % mm) := by
        rw [hbit]
        rcases Nat.mod_two_eq_zero_or_one n with h | h
        · rw [h, pow_zero, mul_one, Int.emod_eq_of_lt hr0 hr]
          rfl
        · rw [h, pow_one]
          exact hreduce rr bb hr0 hr hb0 hb
      rw [squareLoop, hfirst, ok_bind, hhalf]
      dsimp only
      by_cases hlast : n / 2 = 0
      · rw [hsplit, hlast, pow_zero, mul_one]
        exact if_pos rfl
      · rw [if_neg (Int.natCast_ne_zero.2 hlast), hreduce bb bb hb0 hb hb0 hb, ok_bind,
          ih (Nat.pos_of_ne_zero hlast) (by omega) (Int.emod_nonneg _ hmm.ne') (Int.emod_lt_of_pos _ hmm)
            (Int.emod_nonneg _ hmm.ne') (Int.emod_lt_of_pos _ hmm), hsplit]
        congr 1
        have hpow : (bb * bb % mm) ^ (n / 2) ≡ (bb * bb) ^ (n / 2) [ZMOD mm] := (Int.mod_modEq _ _).pow _
        have hmul : rr * bb ^ (n % 2) % mm * (bb * bb % mm) ^ (n / 2) ≡ rr * bb ^ (n % 2) * (bb * bb) ^ (n / 2) [ZMOD mm] :=
          (Int.mod_modEq _ _).mul hpow
        rw [← mul_assoc]
        exact hmul

theorem squareLoop_size {reduce : ℤ → ℤ → Except IntegerError ℤ} (hreduce : Reduces mm reduce) {p bb : ℤ} (hp : 0 < p)
    (hmm : 1 < mm) (hb0 : 0 ≤ bb) (hb : bb < mm) : squareLoop reduce p.toNat.size p 1 bb = .ok (bb ^ p.toNat % mm) := by
  obtain ⟨n, rfl⟩ : ∃ n : ℕ, p = n := ⟨p.toNat, by omega⟩
  rw [Int.toNat_natCast, squareLoop_spec hreduce (by omega) (Nat.lt_size_self n) (by omega) hmm hb0 hb, one_mul]

theorem fmod_eq_emod {x : ℤ} (hmm : 0 < mm) : x.fmod mm = x % mm := Int.fmod_eq_emod_of_nonneg x hmm.le

theorem holds_unsigned {x : ℤ} (h0 : 0 ≤ x) (hlt : x < 2 ^ T.width.bits) : Holds (unsigned T.width) x := by
  have hmax : (unsigned T.width).typemax = 2 ^ T.width.bits - 1 := rfl
  exact ⟨h0, by omega⟩

-- A product of two numbers below a small enough modulus fits the word.
theorem mul_lt_of_legal {a b : ℤ} (hlegal : powermodMiLegal T mm) (ha0 : 0 ≤ a) (ha : a < mm) (hb0 : 0 ≤ b) (hb : b < mm) :
    a * b < 2 ^ T.width.bits := by
  have hhalf : (2 : ℤ) ^ T.width.bits = 2 ^ (T.width.sizeof * 4) * 2 ^ (T.width.sizeof * 4) := by
    rw [← pow_add, Width.bits]
    congr 1
    omega
  have hpos : (0 : ℤ) < 2 ^ (T.width.sizeof * 4) := by positivity
  have hmul := (Int.le_ediv_iff_mul_le hpos).1 hlegal
  have hmax : (toUnsigned T).typemax = 2 ^ T.width.bits - 1 := rfl
  have hlt : mm < 2 ^ (T.width.sizeof * 4) := by
    apply lt_of_mul_lt_mul_right _ hpos.le
    omega
  rw [hhalf]
  exact mul_lt_mul'' (ha.trans hlt) (hb.trans hlt) ha0 hb0

theorem reduceInverse_spec {d : MachineInt (unsigned T.width)} (hlegal : powermodMiLegal T d.val) (hpos : 0 < d.val) :
    ∃ mis, UnsignedMultiplicativeInverse.new T.width d = .ok mis ∧ Reduces d.val (reduceInverse mis) := by
  obtain ⟨mis, hnew, hall⟩ := unsigned_spec hpos.ne'
  refine ⟨mis, hnew, fun a b ha0 ha hb0 hb => ?_⟩
  have hfits := holds_unsigned (mul_nonneg ha0 hb0) (mul_lt_of_legal hlegal ha0 ha hb0 hb)
  rw [reduceInverse, wrap_of_holds hfits, (hall _ hfits).2.2, fmod_eq_emod hpos]

theorem reduceWide_spec (hwide : T.width ≠ .w128) (hmm : Holds (unsigned T.width) mm) (hpos : 0 < mm) :
    Reduces mm (reduceWide T mm) := by
  intro a b ha0 ha hb0 hb
  have hmm' : Holds (toUnsigned T) mm := hmm
  have hlt : mm ≤ 2 ^ T.width.bits - 1 := hmm.2
  have ha' : Holds (toUnsigned T) a := holds_unsigned ha0 (by omega)
  have hb' : Holds (toUnsigned T) b := holds_unsigned hb0 (by omega)
  have hprod : Holds (widemulType (toUnsigned T) (toUnsigned T)) (a * b) :=
    holds_widemul (S := toUnsigned T) (I := toUnsigned T) hwide hwide ⟨a, ha'.1, ha'.2⟩ ⟨b, hb'.1, hb'.2⟩
  have hmul : widemul (toUnsigned T) (toUnsigned T) a b = a * b :=
    widemul_eq (S := toUnsigned T) (I := toUnsigned T) hwide hwide ⟨a, ha'.1, ha'.2⟩ ⟨b, hb'.1, hb'.2⟩
  have hrem := Int.emod_nonneg (a * b) hpos.ne'
  have hrem' := Int.emod_lt_of_pos (a * b) hpos
  rw [reduceWide, hmul, mod_ok hprod hmm' hpos.ne', ok_bind, fmod_eq_emod hpos]
  exact convert_of_holds (holds_unsigned hrem (by omega))

theorem powerInverse_spec {d : MachineInt (unsigned T.width)} (hlegal : powermodMiLegal T d.val) (hone : 1 < d.val) {p bb : ℤ}
    (hp : 0 < p) (hb0 : 0 ≤ bb) (hb : bb < d.val) : powerInverse T d p bb = .ok (bb ^ p.toNat % d.val) := by
  rw [powerInverse]
  split_ifs with h0
  · rw [h0, zero_pow (by omega), Int.zero_emod]
  · obtain ⟨mis, hnew, hreduce⟩ := reduceInverse_spec hlegal (by omega)
    rw [hnew]
    exact squareLoop_size hreduce hp hone hb0 hb

theorem powerWide_spec {d : MachineInt (unsigned T.width)} (hwide : T.width ≠ .w128) (hone : 1 < d.val) {p bb : ℤ}
    (hp : 0 < p) (hb0 : 0 ≤ bb) (hb : bb < d.val) : powerWide T d p bb = .ok (bb ^ p.toNat % d.val) := by
  rw [powerWide]
  split_ifs with h0
  · rw [h0, zero_pow (by omega), Int.zero_emod]
  · exact squareLoop_size (reduceWide_spec hwide (holds_val d) (by omega)) hp hone hb0 hb

end Loops

section Powers

variable {X P T I : IntType} {x p m : ℤ}

theorem uabs_val (hm : Holds T m) : (uabs T m).val = |m| := by
  have hlt := abs_lt_two_pow_of_holds hm
  have hholds : Holds (unsigned T.width) |m| := holds_unsigned (abs_nonneg m) hlt
  have hmod : abs T m ≡ |m| [ZMOD 2 ^ T.width.bits] := by
    by_cases h : Holds T |m|
    · rw [abs_spec h]
    · obtain ⟨hsigned, rfl⟩ := eq_typemin hm h
      have hmin : T.typemin = -2 ^ (T.width.bits - 1) := if_pos hsigned
      rw [abs_typemin hsigned, abs_of_neg (typemin_neg hsigned), Int.modEq_iff_dvd, hmin, two_pow_bits]
      exact ⟨1, by ring⟩
  calc
    (uabs T m).val = (unsigned T.width).wrap |m| := wrap_congr hmod
    _ = |m| := wrap_of_holds hholds

-- A number smaller than the modulus, with the sign of the modulus put right
theorem signed_remainder (hm : Holds T m) (hne : m ≠ 0) (hx0 : 0 ≤ x) (hx : x < |m|) :
    convert T x = .ok x ∧ Normal m (if x = 0 ∨ 0 < m then x else T.wrap (x + m)) ∧
      (if x = 0 ∨ 0 < m then x else T.wrap (x + m)) ≡ x [ZMOD m] := by
  have hholds : Holds T x := by
    have hmin := typemin_nonpos T
    by_cases h : Holds T |m|
    · exact ⟨by omega, hx.le.trans h.2⟩
    · obtain ⟨hsigned, rfl⟩ := eq_typemin hm h
      have htypemin : T.typemin = -2 ^ (T.width.bits - 1) := if_pos hsigned
      have htypemax : T.typemax = 2 ^ (T.width.bits - 1) - 1 := if_pos hsigned
      rw [abs_of_neg (typemin_neg hsigned)] at hx
      exact ⟨by omega, by omega⟩
  refine ⟨convert_of_holds hholds, ?_⟩
  split_ifs with h
  · refine ⟨⟨fun hpos => ⟨hx0, by rwa [abs_of_pos hpos] at hx⟩, fun hneg => ?_⟩, Int.ModEq.rfl⟩
    omega
  · obtain ⟨hx1, hm0⟩ := not_or.1 h
    rw [abs_of_neg (by omega)] at hx
    have hsum : Holds T (x + m) := ⟨by have := hm.1; omega, by have := (holds_zero T).2; omega⟩
    rw [wrap_of_holds hsum]
    exact ⟨⟨fun hpos => by omega, fun hneg => by omega⟩, Int.add_modEq_right⟩

-- The powers with exponents that are not negative
theorem powermodNonneg_spec (hx : Holds X x) (hm : Holds T m) (hne : m ≠ 0) (hwide : T.width ≠ .w128) (hp : 0 ≤ p) :
    ∃ r, powermodNonneg T X x p m = .ok r ∧ Normal m r ∧ r ≡ x ^ p.toNat [ZMOD m] := by
  rw [powermodNonneg]
  split_ifs with hzero hunit
  · obtain ⟨y, hy, hmod, hnormal⟩ := mod_step (holds_one T) hm hne
    rw [hzero, Int.toNat_zero, pow_zero]
    exact ⟨y, hy, hnormal, hmod⟩
  · have hdvd : m ∣ 1 := by
      rcases hunit with rfl | rfl
      · exact one_dvd 1
      · exact ⟨-1, rfl⟩
    refine ⟨0, rfl, ⟨fun h => by omega, fun h => by omega⟩, ?_⟩
    exact Int.modEq_iff_dvd.2 (hdvd.trans (one_dvd _))
  · obtain ⟨h1, h2⟩ := not_or.1 hunit
    have hone : 1 < |m| := by
      rcases lt_or_gt_of_ne hne with h | h
      · rw [abs_of_neg h]
        omega
      · rw [abs_of_pos h]
        omega
    have hmm := uabs_val hm
    have hU : Holds (toUnsigned T) (uabs T m).val := holds_val (uabs T m)
    have hrem := Int.emod_nonneg x (by omega : |m| ≠ 0)
    have hrem' := Int.emod_lt_of_pos x (by omega : 0 < |m|)
    have hbb : Holds (toUnsigned T) (x % |m|) := by
      have hmax := hU.2
      rw [hmm] at hmax
      exact ⟨hrem, hrem'.le.trans hmax⟩
    have hpower : (if powermodMiLegal T (uabs T m).val ∧ 2 * T.width.sizeof < p then powerInverse T (uabs T m) p (x % |m|)
        else powerWide T (uabs T m) p (x % |m|)) = .ok ((x % |m|) ^ p.toNat % |m|) := by
      split_ifs with hlegal
      · rw [powerInverse_spec hlegal.1 (by omega) (by omega) hrem (by omega), hmm]
      · rw [powerWide_spec hwide (by omega) (by omega) hrem (by omega), hmm]
    have hr := Int.emod_nonneg ((x % |m|) ^ p.toNat) (by omega : |m| ≠ 0)
    have hr' := Int.emod_lt_of_pos ((x % |m|) ^ p.toNat) (by omega : 0 < |m|)
    obtain ⟨hconvert, hnormal, hmod⟩ := signed_remainder hm hne hr hr'
    dsimp only
    rw [mod_ok hx hU (by omega), ok_bind, hmm, fmod_eq_emod (by omega), convert_of_holds hbb, ok_bind]
    rw [hmm] at hpower
    rw [hpower, ok_bind, hconvert, ok_bind]
    refine ⟨_, rfl, hnormal, hmod.trans ?_⟩
    have habs : (x % |m|) ^ p.toNat % |m| ≡ x ^ p.toNat [ZMOD |m|] := (Int.mod_modEq _ _).trans ((Int.mod_modEq x _).pow _)
    exact habs.of_dvd (self_dvd_abs m)

theorem holds_of_normal (hm : Holds T m) (hne : m ≠ 0) (hx : Normal m x) : Holds T x := by
  obtain ⟨hpos, hneg⟩ := hx
  rcases lt_or_gt_of_ne hne with h | h
  · exact ⟨hm.1.trans (hneg h).1.le, (hneg h).2.trans (holds_zero T).2⟩
  · exact ⟨(typemin_nonpos T).trans (hpos h).1, (hpos h).2.le.trans hm.2⟩

theorem holds_moduloType (hx : Holds T x) (R : IntType) : Holds (moduloType R T) x := by
  apply holds_of_bits_le hx
  · rfl
  · exact (le_max_right R.width.bits T.width.bits).trans (bits_unsignedType R T).ge

-- Only the smallest number is its own negative.
theorem eq_wrap_neg_iff (hp : Holds P p) (hneg : p < 0) : p = P.wrap (-p) ↔ ¬Holds P |p| := by
  have habs : P.wrap (-p) = abs P p := (if_pos hneg).symm
  rw [habs]
  constructor
  · intro h hholds
    rw [abs_spec hholds] at h
    have := abs_nonneg p
    omega
  · intro h
    obtain ⟨hsigned, rfl⟩ := eq_typemin hp h
    exact (abs_typemin hsigned).symm

theorem widemulMod_self (hx : Holds T x) (hm : Holds T m) (hne : m ≠ 0) (hwide : T.width ≠ .w128) :
    ∃ y, widemulMod T T x x m = .ok y ∧ y ≡ x * x [ZMOD m] ∧ Normal m y := by
  have hprod := holds_widemul hwide hwide ⟨x, hx.1, hx.2⟩ ⟨x, hx.1, hx.2⟩
  rw [widemulMod, if_neg (not_or.2 ⟨hwide, hwide⟩)]
  rw [widemul_eq hwide hwide ⟨x, hx.1, hx.2⟩ ⟨x, hx.1, hx.2⟩]
  exact mod_step hprod hm hne

-- The smallest exponent is twice a number whose negative the type has.
theorem half_typemin (h : P.signed = true) : ∃ n : ℕ, TypedRange.div P IntFuncs.Int64 P.typemin 2 = .ok (-n) ∧
    (quotientType P IntFuncs.Int64).wrap (- -(n : ℤ)) = n ∧ (-P.typemin).toNat = n + n ∧ P.typemin % 2 = 0 := by
  have hbits := bits_ge P.width
  have htypemin : P.typemin = -2 ^ (P.width.bits - 1) := if_pos h
  have hdouble : (2 : ℤ) ^ (P.width.bits - 1) = 2 ^ (P.width.bits - 2) + 2 ^ (P.width.bits - 2) := by
    rw [← two_mul, ← pow_succ']
    congr 1
    omega
  have hcast : ((2 ^ (P.width.bits - 2) : ℕ) : ℤ) = 2 ^ (P.width.bits - 2) := by push_cast; rfl
  have hholds : Holds P P.typemin := ⟨le_rfl, (typemin_nonpos P).trans (holds_zero P).2⟩
  have htwo : Holds IntFuncs.Int64 2 := by decide
  have hquot : P.typemin.tdiv 2 = -(2 ^ (P.width.bits - 2) : ℕ) := by
    rw [htypemin, hdouble, hcast, Int.neg_tdiv, ← two_mul, Int.mul_tdiv_cancel_left _ (by omega)]
  have hfits : ∀ z : ℤ, |z| = 2 ^ (P.width.bits - 2) → Holds (quotientType P IntFuncs.Int64) z := fun z hz => by
    have hwidth : P.width.bits ≤ (quotientType P IntFuncs.Int64).width.bits :=
      (le_max_left ..).trans (bits_unsignedType P IntFuncs.Int64).ge
    apply holds_of_abs_lt (show (quotientType P IntFuncs.Int64).signed = true from h)
    rw [hz]
    exact pow_lt_pow_right₀ (by omega) (by omega)
  have hpos : (0 : ℤ) < 2 ^ (P.width.bits - 2) := by positivity
  refine ⟨2 ^ (P.width.bits - 2), ?_, ?_, by omega, by omega⟩
  · rw [div_eq hholds htwo (by omega), if_neg (by rintro ⟨-, -, -, h2⟩; omega), hquot]
    rw [wrap_of_holds (hfits _ (by rw [abs_neg, hcast, abs_of_pos hpos]))]
  · rw [neg_neg]
    exact wrap_of_holds (hfits _ (by rw [hcast, abs_of_pos hpos]))

-- What the library documents
structure Gmp.Documented (gmp : Gmp) : Prop where
  gcdext : Machine.Documented gmp.gcdext
  powm_range : ∀ x p m, m ≠ 0 → 0 ≤ p ∨ Int.gcd x m = 1 → 0 ≤ gmp.powm x p m ∧ gmp.powm x p m < |m|
  powm_modEq : ∀ x p m, m ≠ 0 → 0 ≤ p → gmp.powm x p m ≡ x ^ p.toNat [ZMOD m]
  powm_inverse : ∀ x p m y, m ≠ 0 → p < 0 → x * y ≡ 1 [ZMOD m] → gmp.powm x p m ≡ y ^ (-p).toNat [ZMOD m]

-- `x^p` modulo `m`; the powers with a negative exponent are those of the inverse.
def PowerOf (x p m r : ℤ) : Prop :=
  Normal m r ∧ (0 ≤ p → r ≡ x ^ p.toNat [ZMOD m]) ∧ (p < 0 → ∀ y, x * y ≡ 1 [ZMOD m] → r ≡ y ^ (-p).toNat [ZMOD m])

theorem powermodBig_spec {gmp : Gmp} (hlib : gmp.Documented) (hm : Holds T m) (hne : m ≠ 0) (hinv : 0 ≤ p ∨ Int.gcd x m = 1) :
    ∃ r, convert T (powermodBig gmp x p m) = .ok r ∧ PowerOf x p m r := by
  obtain ⟨h0, hlt⟩ := hlib.powm_range x p m hne hinv
  have hnormal : Normal m (powermodBig gmp x p m) ∧ powermodBig gmp x p m ≡ gmp.powm x p m [ZMOD m] := by
    rw [powermodBig]
    split_ifs with h
    · rw [abs_of_neg h.1] at hlt
      exact ⟨⟨fun hpos => by omega, fun _ => by omega⟩, Int.add_modEq_right⟩
    · refine ⟨⟨fun hpos => ⟨h0, by rwa [abs_of_pos hpos] at hlt⟩, fun hneg => ?_⟩, Int.ModEq.rfl⟩
      omega
  refine ⟨_, convert_of_holds (holds_of_normal hm hne hnormal.1), hnormal.1, fun hp => ?_, fun hp y hy => ?_⟩
  · exact hnormal.2.trans (hlib.powm_modEq x p m hne hp)
  · exact hnormal.2.trans (hlib.powm_inverse x p m y hne hp hy)

theorem powermodNeg_spec {gmp : Gmp} (hlib : gmp.Documented) (hx : Holds X x) (hp : Holds P p) (hm : Holds T m) (hne : m ≠ 0)
    (hwide : T.width ≠ .w128) (hneg : p < 0) (hcop : Int.gcd x m = 1) :
    ∃ r, powermod gmp X P T x p m = .ok r ∧ Normal m r ∧ ∀ y, x * y ≡ 1 [ZMOD m] → r ≡ y ^ (-p).toNat [ZMOD m] := by
  rw [powermod, if_neg hwide, if_pos hneg]
  rcases invmod_spec hlib.gcdext hx hm hne with ⟨-, imod, hinvmod, hinv, hnormal⟩ | ⟨hbad, -⟩
  · have himod := holds_moduloType (holds_of_normal hm hne hnormal) (promote X T)
    -- all inverses are congruent
    have hunique : ∀ y, x * y ≡ 1 [ZMOD m] → imod ≡ y [ZMOD m] := fun y hy => by
      calc
        imod = imod * 1 := (mul_one imod).symm
        _ ≡ imod * (x * y) [ZMOD m] := (hy.symm).mul_left imod
        _ = x * imod * y := by ring
        _ ≡ 1 * y [ZMOD m] := hinv.mul_right y
        _ = y := one_mul y
    rw [hinvmod, ok_bind]
    dsimp only
    by_cases hself : p = P.wrap (-p)
    · have hnot := (eq_wrap_neg_iff hp hneg).1 hself
      obtain ⟨hsigned, rfl⟩ := eq_typemin hp hnot
      obtain ⟨n, hdiv, hhalf, hsum, heven⟩ := half_typemin hsigned
      obtain ⟨rhalf, hpower, hnormal', hmod⟩ := powermodNonneg_spec himod hm hne hwide (Int.natCast_nonneg n)
      have hrhalf := holds_of_normal hm hne hnormal'
      obtain ⟨r, hmul, hsquare, hnormal''⟩ := widemulMod_self hrhalf hm hne hwide
      rw [if_pos hself, hdiv]
      dsimp only
      rw [hhalf, hpower, ok_bind, hmul, ok_bind, convert_of_holds (holds_of_normal hm hne hnormal''), ok_bind,
        if_neg (not_not.2 heven)]
      refine ⟨r, rfl, hnormal'', fun y hy => ?_⟩
      rw [Int.toNat_natCast] at hmod
      have hpow := hmod.trans ((hunique y hy).pow n)
      rw [hsum, pow_add]
      exact hsquare.trans (hpow.mul hpow)
    · have hfits : Holds P (-p) := by
        rw [← abs_of_neg hneg]
        exact not_not.1 fun h => hself ((eq_wrap_neg_iff hp hneg).2 h)
      obtain ⟨r, hpower, hnormal', hmod⟩ := powermodNonneg_spec himod hm hne hwide (by omega : 0 ≤ -p)
      rw [if_neg hself, wrap_of_holds hfits]
      exact ⟨r, hpower, hnormal', fun y hy => hmod.trans ((hunique y hy).pow _)⟩
  · exact absurd hcop hbad

end Powers

section Exact

-- The power on the side of the modulus; both ways of reducing products give the same one.
theorem powermod_exact {gmp : Gmp} (hlib : gmp.Documented) :
    (∀ (X P T : IntType) (x : MachineInt X) (p : MachineInt P) (m : MachineInt T), m.val ≠ 0 →
      0 ≤ p.val ∨ Int.gcd x.val m.val = 1 → ∃ r, powermod gmp X P T x.val p.val m.val = .ok r ∧ PowerOf x.val p.val m.val r) ∧
    ∀ (T : IntType) (d : MachineInt (unsigned T.width)) (p bb : ℤ), T.width ≠ .w128 → powermodMiLegal T d.val → 1 < d.val →
      0 < p → 0 ≤ bb → bb < d.val → powerInverse T d p bb = powerWide T d p bb := by
  refine ⟨fun X P T x p m hne hinv => ?_, fun T d p bb hwide hlegal hone hp hb0 hb => ?_⟩
  · by_cases hwide : T.width = .w128
    · rw [powermod, if_pos hwide]
      exact powermodBig_spec hlib (holds_val m) hne hinv
    · by_cases hneg : p.val < 0
      · have hcop := hinv.resolve_left (by omega)
        obtain ⟨r, hr, hnormal, hmod⟩ := powermodNeg_spec hlib (holds_val x) (holds_val p) (holds_val m) hne hwide hneg hcop
        exact ⟨r, hr, hnormal, fun h => by omega, fun _ => hmod⟩
      · obtain ⟨r, hr, hnormal, hmod⟩ := powermodNonneg_spec (holds_val x) (holds_val m) hne hwide (not_lt.1 hneg)
        rw [powermod, if_neg hwide, if_neg hneg]
        exact ⟨r, hr, hnormal, fun _ => hmod, fun h => absurd h hneg⟩
  · rw [powerInverse_spec hlegal hone hp hb0 hb, powerWide_spec hwide hone hp hb0 hb]

-- The library by Euclid's algorithm
def euclid : Gmp where
  gcdext a b := (Int.gcd a b, Int.gcdA a b, Int.gcdB a b)
  powm x p m := (if 0 ≤ p then x ^ p.toNat else Int.gcdA x m ^ (-p).toNat) % |m|

theorem euclid_documented : euclid.Documented where
  gcdext a b := ⟨rfl, (Int.gcd_eq_gcd_ab a b).symm⟩
  powm_range x p m hne _ := ⟨Int.emod_nonneg _ (abs_ne_zero.2 hne), Int.emod_lt_of_pos _ (abs_pos.2 hne)⟩
  powm_modEq x p m _ hp := by
    have hpow : euclid.powm x p m = x ^ p.toNat % |m| := by
      unfold euclid
      dsimp only
      rw [if_pos hp]
    rw [hpow]
    exact (Int.mod_modEq _ _).of_dvd (self_dvd_abs m)
  powm_inverse x p m y _ hp hy := by
    have hpow : euclid.powm x p m = Int.gcdA x m ^ (-p).toNat % |m| := by
      unfold euclid
      dsimp only
      rw [if_neg (not_le.2 hp)]
    have hgcd : (Int.gcd x m : ℤ) ∣ 1 := by
      obtain ⟨c, hc⟩ := Int.modEq_iff_dvd.1 hy
      have hone : 1 = x * y + m * c := by linear_combination hc
      rw [hone]
      exact dvd_add (Dvd.dvd.mul_right (Int.gcd_dvd_left ..) y) (Dvd.dvd.mul_right (Int.gcd_dvd_right ..) c)
    have hcop : (Int.gcd x m : ℤ) = 1 := Int.eq_one_of_dvd_one (Int.natCast_nonneg _) hgcd
    have hbezout := Int.gcd_eq_gcd_ab x m
    rw [hcop] at hbezout
    have hinv : Int.gcdA x m ≡ y [ZMOD m] := by
      obtain ⟨c, hc⟩ := Int.modEq_iff_dvd.1 hy
      apply Int.modEq_iff_dvd.2
      exact ⟨Int.gcdB x m * y - c * Int.gcdA x m, by linear_combination y * hbezout - Int.gcdA x m * hc⟩
    rw [hpow]
    exact ((Int.mod_modEq _ _).of_dvd (self_dvd_abs m)).trans (hinv.pow _)

-- A power of three with the smallest exponent, modulo the smallest byte, and the two ways modulo seven
theorem powermod_exact_bytes :
    (∃ r, powermod euclid ⟨true, .w8⟩ ⟨true, .w8⟩ ⟨true, .w8⟩ 3 (-128) (-128) = .ok r ∧ PowerOf 3 (-128) (-128) r) ∧
      powerInverse ⟨true, .w8⟩ ⟨7, by decide, by decide⟩ 20 3 = powerWide ⟨true, .w8⟩ ⟨7, by decide, by decide⟩ 20 3 := by
  obtain ⟨hpower, hsame⟩ := powermod_exact euclid_documented
  constructor
  · exact hpower ⟨true, .w8⟩ ⟨true, .w8⟩ ⟨true, .w8⟩ ⟨3, by decide, by decide⟩ ⟨-128, by decide, by decide⟩
      ⟨-128, by decide, by decide⟩ (by decide) (.inr rfl)
  · exact hsame ⟨true, .w8⟩ ⟨7, by decide, by decide⟩ 20 3 (by decide) (by decide) (by decide) (by decide) (by decide) (by decide)

end Exact

end Joolia.Gcd.Machine
