import Joolia.Base.Gcd
import Joolia.Base.TypedRange.Division
import Joolia.Library.Euclid

namespace Joolia.Gcd.Machine

open IntFuncs TypedRange Fallible

section Model

inductive OverflowText
  | cannotComputeAbs (x : ℤ)
  | gcdOverflows (a b : ℤ)
deriving DecidableEq, Repr

inductive DomainText
  | notRepresentable (a b : ℤ)
  | zeroModulus (m : ℤ)
  | greatestCommonDivisor (n m g : ℤ)
  | evenArgument (n : ℤ)
deriving DecidableEq, Repr

inductive IntegerError
  | OverflowError (text : OverflowText)
  | DomainError (text : DomainText)
  | DivideError
  | InexactError
  | ArgumentError
  -- the passes allowed to a loop are used up
  | Unfinished
deriving DecidableEq, Repr

variable (T : IntType)

-- `abs(x)`; an unsigned number is its own.
def abs (x : ℤ) : ℤ := flipsign T x x

def checkedAbs (x : ℤ) : Except IntegerError ℤ :=
  if T.signed then
    let r := if x < 0 then T.wrap (-x) else x
    if r < 0 then .error (.OverflowError (.cannotComputeAbs x)) else .ok r
  else .ok x

def trailingZeros (x : ℤ) : ℕ := (BitVec.ofInt T.width.bits x).ctz.toNat

def absdiff (x y : ℤ) : ℤ × ℤ :=
  if T.signed then
    let d := T.wrap (x - y)
    (abs T d, d)
  else
    let d := T.wrap (max x y - min x y)
    (d, d)

-- The loop of `_gcd`
def gcdLoop : ℕ → ℤ → ℤ → ℕ → Except IntegerError ℤ
  | 0, _, _, _ => .error .Unfinished
  | fuel + 1, a, b, za =>
      if a = 0 then .ok b
      else
        let a := a / 2 ^ za
        let (absd, diff) := absdiff T a b
        let za := trailingZeros T diff
        gcdLoop fuel absd (min a b) za

-- `_gcd`; a pass makes the sum of the two numbers smaller.
def gcdBinary (ain bin : ℤ) : Except IntegerError ℤ := do
  let zb := trailingZeros T bin
  let za := trailingZeros T ain
  let a := abs T ain
  let b := abs T (bin / 2 ^ zb)
  let k := min za zb
  let b ← gcdLoop T (a.toNat + b.toNat + 1) a b za
  .ok (T.wrap (b * 2 ^ k))

def gcd (a b : ℤ) : Except IntegerError ℤ :=
  if a = 0 then checkedAbs T b
  else if b = 0 then checkedAbs T a
  else if T.signed ∧ a = T.typemin then
    if a = b then .error (.OverflowError (.gcdOverflows a b)) else gcdBinary T b a
  else gcdBinary T a b

-- The loop of `gcdx`, with `divrem` and `_gcdx_update`
def gcdxLoop : ℕ → ℤ → ℤ → ℤ → ℤ → ℤ → ℤ → Except IntegerError (ℤ × ℤ × ℤ)
  | 0, _, _, _, _, _, _ => .error .Unfinished
  | fuel + 1, a, b, s0, s1, t0, t1 =>
      if b = 0 then .ok (a, s0, t0)
      else
        match divSame T a b with
        | .error _ => .error .DivideError
        | .ok q =>
            let r := T.wrap (a - T.wrap (q * b))
            gcdxLoop fuel b r s1 (T.wrap (s0 - T.wrap (q * s1))) t1 (T.wrap (t0 - T.wrap (q * t1)))

-- `gcdx(a::T, b::T)`
def gcdxSame (a b : ℤ) : Except IntegerError (ℤ × ℤ × ℤ) :=
  if a = 0 ∧ b = 0 then .ok (0, 0, 0)
  else if abs T b = 1 then .ok (1, 0, b)
  else if abs T a = 1 then .ok (1, a, 0)
  else do
    let (d, s0, t0) ← gcdxLoop T (b.natAbs + 1) a b 1 0 0 1
    if d < 0 ∧ abs T d < 0 then .error (.DomainError (.notRepresentable d 0))
    else .ok (if d < 0 then (abs T d, T.wrap (-s0), T.wrap (-t0)) else (d, s0, t0))

-- `convert(T, x)`
def convert (x : ℤ) : Except IntegerError ℤ := if T.typemin ≤ x ∧ x ≤ T.typemax then .ok x else .error .InexactError

-- `gcdx(a::Signed, b::Unsigned)`
def gcdxSigned (T S : IntType) (a b : ℤ) : Except IntegerError (ℤ × ℤ × ℤ) := do
  let R := promote T S
  let P := promote (toSigned R) S
  let x ← convert P (abs (toSigned R) ((toSigned R).wrap a))
  let y ← convert P b
  let (d, u, v) ← gcdxSame P x y
  let flipTypemin := if a < 0 ∧ R.signed then 1 else 0
  .ok (d, flipsign P u (T.wrap (a - flipTypemin)), v)

-- gcdx
def gcdx (T S : IntType) (a b : ℤ) : Except IntegerError (ℤ × ℤ × ℤ) :=
  if T.signed = S.signed then gcdxSame (promote T S) a b
  else if T.signed then gcdxSigned T S a b
  else do
    let (d, v, u) ← gcdxSigned S T b a
    .ok (d, u, v)

-- `gcdx(a::BigInt, b::BigInt)`, after the library's `gcdext`
def gcdxBig (gcdext : ℤ → ℤ → ℤ × ℤ × ℤ) (a b : ℤ) : ℤ × ℤ × ℤ :=
  let (g, s, t) := gcdext a b
  if t = 0 then
    if a = b then (g, t, s)
    else if |a| = |b| then (g, t, -s)
    else (g, s, t)
  else (g, s, t)

-- `_bezout_coef(n, m)`, of what `gcdx(n, m)` returns
def bezoutCoef (n m : ℤ) (result : Except IntegerError (ℤ × ℤ × ℤ)) : Except IntegerError ℤ := do
  let (g, x, _) ← result
  if g ≠ 1 then .error (.DomainError (.greatestCommonDivisor n m g)) else .ok x

-- `mod(x, y)`
def mod (T S : IntType) (x y : ℤ) : Except IntegerError ℤ :=
  match TypedRange.mod T S x y with
  | .ok r => .ok r
  | .error _ => .error .DivideError

def modBig (x y : ℤ) : Except IntegerError ℤ := if y = 0 then .error .DivideError else .ok (x.fmod y)

-- `invmod(n, m)`; there is no machine type wider than 128 bits.
def invmod (gcdext : ℤ → ℤ → ℤ × ℤ × ℤ) (T S : IntType) (n m : ℤ) : Except IntegerError ℤ :=
  if m = 0 then .error (.DomainError (.zeroModulus m))
  else
    let R := promote T S
    if R.signed then do
      let x ← bezoutCoef n m (gcdx T S n m)
      mod R S x m
    else
      let U := toSigned R
      if n ≤ U.typemax ∧ m ≤ U.typemax then do
        let x ← bezoutCoef (U.wrap n) (U.wrap m) (gcdxSame U (U.wrap n) (U.wrap m))
        let x := if x < 0 then plus U S x (abs S m) else x
        mod R S (R.wrap x) m
      else if R.width = .w128 then do
        let x ← bezoutCoef n m (.ok (gcdxBig gcdext n m))
        let t ← modBig x m
        let t := if m < 0 then t - m else t
        mod R S (R.wrap t) m
      else do
        let W := widen U
        let x ← bezoutCoef (W.wrap n) (W.wrap m) (gcdxSame W (W.wrap n) (W.wrap m))
        let t ← mod W W x (W.wrap m)
        let t := if m < 0 then (promote W S).wrap (t - m) else t
        mod R S (R.wrap t) m

-- `x ⊻ y`
def xor (x y : ℤ) : ℤ := T.wrap ((((toUnsigned T).wrap x).toNat ^^^ ((toUnsigned T).wrap y).toNat : ℕ) : ℤ)

-- The loop of `invmod(n)`
def newton : ℕ → ℤ → ℤ → ℤ
  | 0, x, _ => x
  | passes + 1, x, y => newton passes (T.wrap (x * T.wrap (y + 1))) (T.wrap (y * y))

-- `trailing_zeros(2*sizeof(T))`
def newtonPasses (w : Width) : ℕ := trailingZeros IntFuncs.Int64 (2 * w.sizeof : ℕ)

-- `invmod(n)`
def invmodWord (n : ℤ) : Except IntegerError ℤ :=
  if n % 2 = 1 then
    let x := T.wrap (xor (promote IntFuncs.Int64 T) (times IntFuncs.Int64 T 3 n) 2)
    let y := T.wrap (1 - T.wrap (n * x))
    .ok (newton T (newtonPasses T.width) x y)
  else .error (.DomainError (.evenArgument n))

end Model

section Binary

variable {T : IntType} {x : ℤ}

-- Up to the width, a number and its bits have the same powers of two.
theorem two_pow_dvd_toNat_ofInt {w k : ℕ} (hk : k ≤ w) (x : ℤ) : 2 ^ k ∣ (BitVec.ofInt w x).toNat ↔ 2 ^ k ∣ x.natAbs := by
  have hpos : (0 : ℤ) < 2 ^ w := by positivity
  have hcast : (((BitVec.ofInt w x).toNat : ℕ) : ℤ) = x % 2 ^ w := by
    rw [BitVec.toNat_ofInt]
    push_cast
    exact Int.toNat_of_nonneg (Int.emod_nonneg _ hpos.ne')
  rw [← Int.natCast_dvd_natCast, hcast, ← Int.natCast_dvd]
  push_cast
  exact (Int.emod_emod_of_dvd x (pow_dvd_pow 2 hk) ▸ Int.dvd_iff_emod_eq_zero).trans Int.dvd_iff_emod_eq_zero.symm

theorem abs_lt_two_pow_of_holds (hx : Holds T x) : |x| < 2 ^ T.width.bits := abs_lt_two_pow ⟨x, hx.1, hx.2⟩

theorem trailingZeros_spec (hx : Holds T x) (hne : x ≠ 0) :
    trailingZeros T x < T.width.bits ∧ 2 ^ trailingZeros T x ∣ x.natAbs ∧ x.natAbs / 2 ^ trailingZeros T x % 2 = 1 := by
  have hlt := abs_lt_two_pow_of_holds hx
  have hbits : BitVec.ofInt T.width.bits x ≠ 0 := by
    intro h
    have hdvd := (two_pow_dvd_toNat_ofInt le_rfl x).1 (by rw [h]; exact dvd_zero _)
    have hle : (2 ^ T.width.bits : ℤ) ≤ |x| := by
      rw [Int.abs_eq_natAbs]
      exact_mod_cast Nat.le_of_dvd (Int.natAbs_pos.2 hne) hdvd
    omega
  obtain ⟨hwidth, hdvd, hodd⟩ := ctz_spec hbits
  have hdvd' := (two_pow_dvd_toNat_ofInt hwidth.le x).1 hdvd
  refine ⟨hwidth, hdvd', ?_⟩
  -- one more power divides neither
  by_contra heven
  have hmore : 2 ^ (trailingZeros T x + 1) ∣ x.natAbs := by
    rw [pow_succ]
    exact (Nat.dvd_div_iff_mul_dvd hdvd').1 (Nat.dvd_of_mod_eq_zero ((Nat.mod_two_eq_zero_or_one _).resolve_right heven))
  have hbad := (two_pow_dvd_toNat_ofInt (by exact hwidth) x).2 hmore
  rw [pow_succ] at hbad
  have heven' := Nat.mod_eq_zero_of_dvd ((Nat.dvd_div_iff_mul_dvd hdvd).2 hbad)
  omega

theorem holds_of_le {m n : ℕ} (hn : Holds T n) (hle : m ≤ n) : Holds T m :=
  ⟨(typemin_nonpos T).trans (Int.natCast_nonneg m), (Int.ofNat_le.2 hle).trans hn.2⟩

theorem abs_spec (h : Holds T |x|) : abs T x = |x| := by
  rw [abs, flipsign]
  split_ifs with hneg
  · rw [abs_of_neg hneg] at h ⊢
    exact wrap_of_holds h
  · exact (abs_of_nonneg (not_lt.1 hneg)).symm

theorem holds_sub {m n : ℕ} (hm : Holds T m) (hn : Holds T n) (h : T.signed = true) : Holds T ((m : ℤ) - n) := by
  apply holds_of_abs_lt h
  have hmax : T.typemax = 2 ^ (T.width.bits - 1) - 1 := if_pos h
  have hm' := hm.2
  have hn' := hn.2
  rw [abs_lt]
  omega

theorem absdiff_spec {m n : ℕ} (hm : Holds T m) (hn : Holds T n) :
    ∃ diff, absdiff T m n = (((max m n - min m n : ℕ) : ℤ), diff) ∧ Holds T (max m n - min m n : ℕ) ∧ Holds T diff ∧
      diff.natAbs = max m n - min m n := by
  have habs : |(m : ℤ) - n| = (max m n - min m n : ℕ) := by
    rcases Nat.le_total m n with h | h
    · rw [max_eq_right h, min_eq_left h, abs_of_nonpos (by omega)]
      omega
    · rw [max_eq_left h, min_eq_right h, abs_of_nonneg (by omega)]
      omega
  have hmax : Holds T (max m n : ℕ) := by
    rcases Nat.le_total m n with h | h
    · rwa [max_eq_right h]
    · rwa [max_eq_left h]
  have hholds : Holds T (max m n - min m n : ℕ) := holds_of_le hmax (Nat.sub_le _ _)
  rw [absdiff]
  split_ifs with hsigned
  · have hwrap := wrap_of_holds (holds_sub hm hn hsigned)
    refine ⟨(m : ℤ) - n, ?_, hholds, holds_sub hm hn hsigned, by omega⟩
    dsimp only
    rw [hwrap, abs_spec (habs ▸ hholds), habs]
  · have hcast : max (m : ℤ) n - min (m : ℤ) n = (max m n - min m n : ℕ) := by omega
    refine ⟨(max m n - min m n : ℕ), ?_, hholds, hholds, Int.natAbs_natCast _⟩
    dsimp only
    rw [hcast, wrap_of_holds hholds]

-- One pass divides by the power of two and subtracts; an odd divisor stays what it is.
theorem gcdLoop_spec {fuel x y za : ℕ} (hfuel : x + y < fuel) (hx : Holds T x) (hy : Holds T y) (hodd : y % 2 = 1)
    (hza : x ≠ 0 → 2 ^ za ∣ x ∧ x / 2 ^ za % 2 = 1) : gcdLoop T fuel x y za = .ok (Nat.gcd x y : ℕ) := by
  induction fuel generalizing x y za with
  | zero => omega
  | succ fuel ih =>
      rw [gcdLoop]
      by_cases h0 : x = 0
      · rw [h0, Nat.gcd_zero_left]
        exact if_pos rfl
      · obtain ⟨hdvd, hquot⟩ := hza h0
        have hle := Nat.div_le_self x (2 ^ za)
        have hcast : (x : ℤ) / 2 ^ za = (x / 2 ^ za : ℕ) := by push_cast; rfl
        rw [if_neg (Int.natCast_ne_zero.2 h0), hcast, ← gcd_div_two_pow hdvd hodd]
        have hx' := holds_of_le hx hle
        generalize x / 2 ^ za = x' at hle hquot hx' ⊢
        obtain ⟨diff, hdiff, hholds, hholds', habs⟩ := absdiff_spec hx' hy
        have hmin : min (x' : ℤ) y = (min x' y : ℕ) := by omega
        have htz : max x' y - min x' y ≠ 0 → 2 ^ trailingZeros T diff ∣ max x' y - min x' y ∧
            (max x' y - min x' y) / 2 ^ trailingZeros T diff % 2 = 1 := fun hne => by
          rw [← habs]
          exact (trailingZeros_spec hholds' (by omega)).2
        dsimp only
        rw [hdiff]
        dsimp only
        rw [hmin, ← gcd_absdiff]
        exact ih (by omega) hholds (holds_of_le hy (Nat.min_le_right ..)) (by omega) htz

theorem abs_natCast_natAbs (x : ℤ) : |x| = (x.natAbs : ℤ) := Int.abs_eq_natAbs x

theorem holds_of_abs {n : ℕ} (hx : Holds T x) (hle : n ≤ x.natAbs) (hodd : n % 2 = 1) : Holds T n := by
  obtain ⟨signed, w⟩ := T
  have hbits : 8 ≤ w.bits := by cases w <;> decide
  cases signed
  · have hpos := nonneg_of_unsigned hx rfl
    rw [← Int.natAbs_of_nonneg hpos] at hx
    exact holds_of_le hx hle
  · have habs := abs_le_of_holds hx rfl
    have heven : 2 ^ (w.bits - 1) % 2 = 0 := Nat.mod_eq_zero_of_dvd (dvd_pow_self 2 (by omega))
    have hcast : ((2 ^ (w.bits - 1) : ℕ) : ℤ) = 2 ^ (w.bits - 1) := by push_cast; rfl
    have hmax : (⟨true, w⟩ : IntType).typemax = 2 ^ (w.bits - 1) - 1 := rfl
    refine ⟨(typemin_nonpos _).trans (Int.natCast_nonneg n), ?_⟩
    rw [abs_natCast_natAbs] at habs
    dsimp only at habs
    omega

-- The quotient by its power of two is odd, so it has an absolute value also when the smallest number has none.
theorem abs_ediv_spec (hx : Holds T x) (hne : x ≠ 0) :
    abs T (x / 2 ^ trailingZeros T x) = (x.natAbs / 2 ^ trailingZeros T x : ℕ) ∧ Holds T (x.natAbs / 2 ^ trailingZeros T x : ℕ) := by
  obtain ⟨-, hdvd, hodd⟩ := trailingZeros_spec hx hne
  have hdvd' : (2 ^ trailingZeros T x : ℤ) ∣ x := by
    apply Int.natCast_dvd.2 at hdvd
    push_cast at hdvd
    exact hdvd
  have hnat : |x / 2 ^ trailingZeros T x| = (x.natAbs / 2 ^ trailingZeros T x : ℕ) := by
    rw [abs_natCast_natAbs, Int.natAbs_ediv_of_dvd hdvd', Int.natAbs_pow]
    rfl
  have hholds := holds_of_abs hx (Nat.div_le_self _ (2 ^ trailingZeros T x)) hodd
  exact ⟨(abs_spec (hnat ▸ hholds)).trans hnat, hholds⟩

theorem gcdBinary_spec {a b : ℤ} (ha : Holds T a) (hb : Holds T b) (ha0 : a ≠ 0) (hb0 : b ≠ 0) (habs : Holds T |a|) :
    gcdBinary T a b = .ok (Int.gcd a b : ℕ) := by
  obtain ⟨-, hxdvd, hxodd⟩ := trailingZeros_spec ha ha0
  obtain ⟨-, hydvd, hyodd⟩ := trailingZeros_spec hb hb0
  obtain ⟨hbin, hholds⟩ := abs_ediv_spec hb hb0
  have hain := abs_spec habs
  rw [abs_natCast_natAbs] at habs hain
  have hloop := gcdLoop_spec (Nat.lt_succ_self (a.natAbs + b.natAbs / 2 ^ trailingZeros T b)) habs hholds hyodd
    fun _ => ⟨hxdvd, hxodd⟩
  have hgcd := gcd_two_pow_mul (s := trailingZeros T a) (t := trailingZeros T b) hxodd hyodd
  rw [Nat.mul_div_cancel' hxdvd, Nat.mul_div_cancel' hydvd, gcd_div_two_pow hxdvd hyodd] at hgcd
  have hfits : Holds T (Int.gcd a b) := holds_of_le habs (Nat.gcd_le_left _ (Int.natAbs_pos.2 ha0))
  rw [gcdBinary, hbin, hain, Int.toNat_natCast, Int.toNat_natCast, hloop, ok_bind]
  have hval : ((Nat.gcd a.natAbs (b.natAbs / 2 ^ trailingZeros T b) : ℕ) : ℤ) * 2 ^ min (trailingZeros T a) (trailingZeros T b) =
      (Int.gcd a b : ℕ) := by
    rw [Int.gcd, hgcd]
    push_cast
    rfl
  rw [hval, wrap_of_holds hfits]

theorem typemin_neg (h : T.signed = true) : T.typemin < 0 := by
  have hmin : T.typemin = -2 ^ (T.width.bits - 1) := if_pos h
  rw [hmin]
  exact neg_neg_of_pos (by positivity)

-- The smallest number is its own absolute value.
theorem abs_typemin (h : T.signed = true) : abs T T.typemin = T.typemin := by
  have hmin : T.typemin = -2 ^ (T.width.bits - 1) := if_pos h
  have hholds : Holds T T.typemin := ⟨le_rfl, (typemin_neg h).le.trans (holds_zero T).2⟩
  have hmod : -T.typemin ≡ T.typemin [ZMOD 2 ^ T.width.bits] := by
    rw [Int.modEq_iff_dvd, hmin, two_pow_bits]
    exact ⟨-1, by ring⟩
  rw [abs, flipsign, if_pos (typemin_neg h), wrap_congr hmod, wrap_of_holds hholds]

theorem eq_typemin (hx : Holds T x) (h : ¬Holds T |x|) : T.signed = true ∧ x = T.typemin := by
  have hsigned : T.signed = true := by
    by_contra hunsigned
    rw [abs_of_nonneg (nonneg_of_unsigned hx (Bool.not_eq_true _ ▸ hunsigned))] at h
    exact h hx
  refine ⟨hsigned, ?_⟩
  have hmin : T.typemin = -2 ^ (T.width.bits - 1) := if_pos hsigned
  have hmax : T.typemax = 2 ^ (T.width.bits - 1) - 1 := if_pos hsigned
  by_contra hne
  apply h
  have hge := hx.1
  exact ⟨(typemin_nonpos T).trans (abs_nonneg x), abs_le.2 ⟨by omega, hx.2⟩⟩

theorem checkedAbs_spec (hx : Holds T x) :
    Holds T |x| ∧ checkedAbs T x = .ok |x| ∨ ¬Holds T |x| ∧ checkedAbs T x = .error (.OverflowError (.cannotComputeAbs x)) := by
  rw [checkedAbs]
  by_cases hsigned : T.signed = true
  · have hdef : (if x < 0 then T.wrap (-x) else x) = abs T x := rfl
    rw [if_pos hsigned]
    dsimp only
    rw [hdef]
    by_cases h : Holds T |x|
    · rw [abs_spec h, if_neg (not_lt.2 (abs_nonneg x))]
      exact .inl ⟨h, rfl⟩
    · obtain ⟨-, rfl⟩ := eq_typemin hx h
      rw [abs_typemin hsigned, if_pos (typemin_neg hsigned)]
      exact .inr ⟨h, rfl⟩
  · have hnonneg := nonneg_of_unsigned hx (Bool.not_eq_true _ ▸ hsigned)
    rw [if_neg hsigned, abs_of_nonneg hnonneg]
    exact .inl ⟨hx, rfl⟩

-- The greatest common divisor is returned where the type holds it, and only there.
theorem gcd_exact (T : IntType) (a b : MachineInt T) :
    Holds T (Int.gcd a.val b.val) ∧ gcd T a.val b.val = .ok (Int.gcd a.val b.val : ℕ) ∨
    ¬Holds T (Int.gcd a.val b.val) ∧ ∃ text, gcd T a.val b.val = .error (.OverflowError text) := by
  have ha := holds_val a
  have hb := holds_val b
  generalize a.val = x at ha ⊢
  generalize b.val = y at hb ⊢
  rw [gcd]
  split_ifs with ha0 hb0 hmin heq
  · rw [ha0, Int.gcd_zero_left, ← abs_natCast_natAbs]
    exact (checkedAbs_spec hb).imp_right fun h => ⟨h.1, _, h.2⟩
  · rw [hb0, Int.gcd_zero_right, ← abs_natCast_natAbs]
    exact (checkedAbs_spec ha).imp_right fun h => ⟨h.1, _, h.2⟩
  · refine .inr ⟨?_, _, rfl⟩
    rw [← heq, Int.gcd_self, ← abs_natCast_natAbs]
    intro h
    have habs := abs_spec h
    rw [hmin.2, abs_typemin hmin.1] at habs
    have := typemin_neg hmin.1
    have := abs_nonneg T.typemin
    omega
  · have habs : Holds T |y| := by
      by_contra h
      exact heq (hmin.2.trans (eq_typemin hb h).2.symm)
    have hle : Int.gcd x y ≤ y.natAbs := Nat.gcd_le_right _ (Int.natAbs_pos.2 hb0)
    rw [gcdBinary_spec hb ha hb0 ha0 habs, Int.gcd_comm]
    rw [Int.gcd_comm] at hle
    exact .inl ⟨holds_of_le (abs_natCast_natAbs y ▸ habs) hle, rfl⟩
  · have habs : Holds T |x| := by
      by_contra h
      exact hmin (eq_typemin ha h)
    have hle : Int.gcd x y ≤ x.natAbs := Nat.gcd_le_left _ (Int.natAbs_pos.2 ha0)
    rw [gcdBinary_spec ha hb ha0 hb0 habs]
    exact .inl ⟨holds_of_le (abs_natCast_natAbs x ▸ habs) hle, rfl⟩

end Binary

section Extended

open Euclid

variable {T : IntType} {A B a b S0 S1 T0 T1 : ℤ}

theorem wrap_update (q x y : ℤ) : T.wrap (T.wrap x - T.wrap (q * T.wrap y)) = T.wrap (x - q * y) := by
  apply wrap_congr
  exact (wrap_modEq T x).sub ((wrap_modEq T _).trans ((wrap_modEq T y).mul_left q))

theorem gcd_tmod (a b : ℤ) : Int.gcd b (a.tmod b) = Int.gcd a b := by
  rw [Int.gcd, Int.natAbs_tmod, Nat.gcd_comm, ← Nat.gcd_rec, Nat.gcd_comm]
  rfl

theorem abs_tmod_lt (a : ℤ) (hb : b ≠ 0) : |a.tmod b| < |b| := by
  rw [abs_natCast_natAbs, abs_natCast_natAbs, Int.natAbs_tmod]
  exact_mod_cast Nat.mod_lt _ (Int.natAbs_pos.2 hb)

-- One pass; the words follow the exact coefficients.
theorem gcdxLoop_succ {fuel : ℕ} (ha : Holds T a) (hb : b ≠ 0) (hmin : ¬(T.signed = true ∧ a = T.typemin ∧ b = -1)) :
    gcdxLoop T (fuel + 1) a b (T.wrap S0) (T.wrap S1) (T.wrap T0) (T.wrap T1) =
      gcdxLoop T fuel b (a.tmod b) (T.wrap S1) (T.wrap (S0 - a.tdiv b * S1)) (T.wrap T1) (T.wrap (T0 - a.tdiv b * T1)) := by
  have hrem : T.wrap (a - T.wrap (a.tdiv b * b)) = a.tmod b := by
    have hmod : a - T.wrap (a.tdiv b * b) ≡ a.tmod b [ZMOD 2 ^ T.width.bits] := by
      rw [Int.tmod_def, Int.mul_comm b]
      exact (wrap_modEq T _).sub_left a
    rw [wrap_congr hmod, wrap_of_holds (holds_tmod ha b)]
  rw [gcdxLoop, if_neg hb, divSame_eq hb hmin]
  dsimp only
  rw [hrem, wrap_update, wrap_update]

-- Once the second number is the smaller one, the quotient of the last pass is at least two.
theorem gcdxLoop_spec {fuel : ℕ} (hrun : Run A B a b S0 S1 T0 T1) (hfuel : b.natAbs < fuel) (hsigned : T.signed = true)
    (ha : Holds T a) (hlt : |b| < |a|) (hmin : ¬(a = T.typemin ∧ b = -1))
    (hlast : b = 0 → 2 * |S0| ≤ |B| ∧ 2 * |T0| ≤ max |A| 2) :
    ∃ d s t, gcdxLoop T fuel a b (T.wrap S0) (T.wrap S1) (T.wrap T0) (T.wrap T1) = .ok (d, T.wrap s, T.wrap t) ∧
      Holds T d ∧ d.natAbs = Int.gcd a b ∧ s * A + t * B = d ∧ 2 * |s| ≤ |B| ∧ 2 * |t| ≤ max |A| 2 := by
  induction fuel generalizing a b S0 S1 T0 T1 with
  | zero => omega
  | succ fuel ih =>
      by_cases hb0 : b = 0
      · obtain ⟨hs, ht⟩ := hlast hb0
        rw [gcdxLoop, if_pos hb0]
        exact ⟨a, S0, T0, rfl, ha, by rw [hb0, Int.gcd_zero_right], hrun.first, hs, ht⟩
      · have ha0 : a ≠ 0 := by
          rintro rfl
          have := abs_nonneg b
          rw [abs_zero] at hlt
          omega
        have habs := abs_le_of_holds ha hsigned
        have hmod := abs_tmod_lt a hb0
        have hb : Holds T b := holds_of_abs_lt hsigned (by omega)
        have htypemin : T.typemin = -2 ^ (T.width.bits - 1) := if_pos hsigned
        have hdecrease : (a.tmod b).natAbs < b.natAbs := by
          rw [abs_natCast_natAbs, abs_natCast_natAbs] at hmod
          omega
        rw [gcdxLoop_succ ha hb0 fun h => hmin h.2, ← gcd_tmod]
        apply ih hrun.step (by omega) hb hmod
        · rintro ⟨rfl, -⟩
          rw [htypemin, abs_neg, abs_of_pos (by positivity)] at hlt
          omega
        · intro hzero
          obtain ⟨hs, ht⟩ := hrun.bounds_of_last ha0 hb0 hlt hzero
          exact ⟨hs, ht.trans (le_max_left ..)⟩

theorem abs_eq_one_iff (ha : Holds T a) : abs T a = 1 ↔ |a| = 1 := by
  by_cases h : Holds T |a|
  · rw [abs_spec h]
  · obtain ⟨hsigned, rfl⟩ := eq_typemin ha h
    have hneg := typemin_neg hsigned
    rw [abs_typemin hsigned]
    refine ⟨fun h1 => by omega, fun h1 => absurd ?_ h⟩
    rw [h1]
    exact holds_one T

theorem holds_half (hb : Holds T b) (h : T.signed = true) (hx : 2 * |a| ≤ max |b| 2) : Holds T a := by
  have hbits : 8 ≤ T.width.bits := by cases T.width <;> decide
  have hpow : (2 : ℤ) ^ 2 ≤ 2 ^ (T.width.bits - 1) := pow_le_pow_right₀ (by omega) (by omega)
  have habs := abs_le_of_holds hb h
  apply holds_of_abs_lt h
  omega

-- `gcdx` of two signed numbers that are not zero and not units
theorem gcdxLoop_start (ha : Holds T a) (hb : Holds T b) (hsigned : T.signed = true) (hne : ¬(a = 0 ∧ b = 0)) (ha1 : |a| ≠ 1)
    (hb1 : |b| ≠ 1) :
    ∃ d s t, gcdxLoop T (b.natAbs + 1) a b 1 0 0 1 = .ok (d, s, t) ∧ Holds T d ∧ d.natAbs = Int.gcd a b ∧ s * a + t * b = d ∧
      2 * |s| ≤ max |b| 2 ∧ (b ≠ 0 → 2 * |s| ≤ |b|) ∧ 2 * |t| ≤ max |a| 2 := by
  by_cases hb0 : b = 0
  · rw [gcdxLoop, if_pos hb0, hb0, Int.gcd_zero_right]
    exact ⟨a, 1, 0, rfl, ha, rfl, by ring, le_max_right .., fun h => absurd rfl h, by simp⟩
  · have hminus : b ≠ -1 := by
      rintro rfl
      exact hb1 rfl
    have h1 : T.wrap 1 = 1 := wrap_of_holds (holds_one T)
    have h0 : T.wrap 0 = 0 := wrap_of_holds (holds_zero T)
    have hstart : gcdxLoop T (b.natAbs + 1) a b 1 0 0 1 = gcdxLoop T b.natAbs b (a.tmod b) (T.wrap 0) (T.wrap (1 - a.tdiv b * 0))
        (T.wrap 1) (T.wrap (0 - a.tdiv b * 1)) := by
      calc
        gcdxLoop T (b.natAbs + 1) a b 1 0 0 1 =
            gcdxLoop T (b.natAbs + 1) a b (T.wrap 1) (T.wrap 0) (T.wrap 0) (T.wrap 1) := by rw [h1, h0]
        _ = _ := gcdxLoop_succ ha hb0 fun h => hminus h.2.2
    have hfuel : (a.tmod b).natAbs < b.natAbs := by
      rw [Int.natAbs_tmod]
      exact Nat.mod_lt _ (Int.natAbs_pos.2 hb0)
    -- a remainder by the smallest number is the number itself
    have hmin : ¬(b = T.typemin ∧ a.tmod b = -1) := by
      rintro ⟨rfl, hr⟩
      have habs := abs_le_of_holds ha hsigned
      have htypemin : T.typemin = -2 ^ (T.width.bits - 1) := if_pos hsigned
      rcases habs.lt_or_eq with hlt | heq
      · have hself : |a.tmod T.typemin| = |a| := by
          rw [abs_natCast_natAbs, abs_natCast_natAbs, Int.natAbs_tmod, Nat.mod_eq_of_lt]
          rw [abs_natCast_natAbs] at hlt
          have hcast : (T.typemin.natAbs : ℤ) = 2 ^ (T.width.bits - 1) := by
            rw [← abs_natCast_natAbs, htypemin, abs_neg, abs_of_pos (by positivity)]
          omega
        rw [hr] at hself
        exact ha1 hself.symm
      · have hdvd : T.typemin ∣ a := by
          rw [htypemin, neg_dvd, ← heq]
          exact abs_dvd_self a
        rw [Int.tmod_eq_zero_of_dvd hdvd] at hr
        omega
    obtain ⟨d, s, t, hloop, hd, hgcd, hbezout, hs, ht⟩ := gcdxLoop_spec (Run.start a b).step hfuel hsigned hb (abs_tmod_lt a hb0) hmin
      fun _ => ⟨by simp, by simp⟩
    have hs' : 2 * |s| ≤ max |b| 2 := hs.trans (le_max_left ..)
    rw [hstart, hloop, wrap_of_holds (holds_half hb hsigned hs'), wrap_of_holds (holds_half ha hsigned ht)]
    exact ⟨d, s, t, rfl, hd, hgcd.trans (gcd_tmod a b), hbezout, hs', fun _ => hs, ht⟩

-- A result of `gcdx`, with a property of the coefficients
def Bezout (T : IntType) (a b : ℤ) (P : ℤ → ℤ → Prop) (result : Except IntegerError (ℤ × ℤ × ℤ)) : Prop :=
  Holds T (Int.gcd a b) ∧ (∃ u v, result = .ok (Int.gcd a b, u, v) ∧ a * u + b * v = Int.gcd a b ∧ P u v) ∨
  ¬Holds T (Int.gcd a b) ∧ ∃ text, result = .error (.DomainError text)

def Bounded (a b u v : ℤ) : Prop := 2 * |u| ≤ max |b| 2 ∧ (b ≠ 0 → 2 * |u| ≤ |b|) ∧ 2 * |v| ≤ max |a| 2

theorem gcdxSame_spec (ha : Holds T a) (hb : Holds T b) (hsigned : T.signed = true) :
    Bezout T a b (Bounded a b) (gcdxSame T a b) := by
  have hone : Holds T (1 : ℕ) := holds_one T
  have hunit : ∀ x : ℤ, |x| = 1 → x * x = 1 := fun x hx => by rw [← abs_mul_abs_self, hx]; rfl
  rw [gcdxSame, if_congr (abs_eq_one_iff hb) rfl rfl, if_congr (abs_eq_one_iff ha) rfl rfl]
  split_ifs with hzero hb1 ha1
  · obtain ⟨rfl, rfl⟩ := hzero
    exact .inl ⟨holds_zero T, 0, 0, rfl, by simp, by simp, by simp, by simp⟩
  · have hgcd : Int.gcd a b = 1 := by
      have habs : b.natAbs = 1 := by
        rw [abs_natCast_natAbs] at hb1
        omega
      rw [Int.gcd, habs, Nat.gcd_one_right]
    rw [Bezout, hgcd]
    refine .inl ⟨hone, 0, b, rfl, ?_, by simp, by simp, by rw [hb1]; exact le_max_right ..⟩
    rw [hunit b hb1]
    ring
  · have hgcd : Int.gcd a b = 1 := by
      have habs : a.natAbs = 1 := by
        rw [abs_natCast_natAbs] at ha1
        omega
      rw [Int.gcd, habs, Nat.gcd_one_left]
    rw [Bezout, hgcd]
    refine .inl ⟨hone, a, 0, rfl, ?_, by rw [ha1]; exact le_max_right .., fun hne => ?_, by simp⟩
    · rw [hunit a ha1]
      ring
    · have := abs_pos.2 hne
      omega
  · obtain ⟨d, s, t, hloop, hd, hgcd, hbezout, hs, hs', ht⟩ := gcdxLoop_start ha hb hsigned hzero ha1 hb1
    have habs : |d| = (Int.gcd a b : ℕ) := by rw [abs_natCast_natAbs, hgcd]
    have hneg : ∀ x : ℤ, 2 * |x| ≤ max |b| 2 ∨ 2 * |x| ≤ max |a| 2 → T.wrap (-x) = -x := fun x hx => by
      apply wrap_of_holds
      rcases hx with hx | hx
      · exact holds_half hb hsigned (by rwa [abs_neg])
      · exact holds_half ha hsigned (by rwa [abs_neg])
    rw [hloop, ok_bind]
    dsimp only
    by_cases hfits : Holds T |d|
    · rw [abs_spec hfits, if_neg fun h => absurd (abs_nonneg d) (not_le.2 h.2), habs]
      refine .inl ⟨habs ▸ hfits, ?_⟩
      rcases lt_or_ge d 0 with hlt | hge
      · rw [if_pos hlt, hneg s (.inl hs), hneg t (.inr ht)]
        refine ⟨-s, -t, rfl, ?_, by rwa [abs_neg], fun h => by rw [abs_neg]; exact hs' h, by rwa [abs_neg]⟩
        rw [← habs, abs_of_neg hlt, ← hbezout]
        ring
      · rw [if_neg (not_lt.2 hge)]
        rw [abs_of_nonneg hge] at habs
        refine ⟨s, t, by rw [habs], ?_, hs, hs', ht⟩
        rw [← habs, ← hbezout]
        ring
    · obtain ⟨-, rfl⟩ := eq_typemin hd hfits
      have hlt := typemin_neg hsigned
      rw [abs_typemin hsigned, if_pos ⟨hlt, hlt⟩]
      exact .inr ⟨habs ▸ hfits, _, rfl⟩

end Extended

section Inverse

variable {T S R : IntType} {n m x : ℤ}

-- A result that is an inverse with a property, or the error for numbers that are not coprime
def Inverts (n m : ℤ) (P : ℤ → Prop) (result : Except IntegerError ℤ) : Prop :=
  Int.gcd n m = 1 ∧ (∃ x, result = .ok x ∧ n * x ≡ 1 [ZMOD m] ∧ P x) ∨
  Int.gcd n m ≠ 1 ∧ ∃ text, result = .error (.DomainError text)

-- Steps that stay in the residue class
theorem Inverts.bind {P Q : ℤ → Prop} {result : Except IntegerError ℤ} (h : Inverts n m P result) {f : ℤ → Except IntegerError ℤ}
    (hf : ∀ x, P x → ∃ y, f x = .ok y ∧ y ≡ x [ZMOD m] ∧ Q y) : Inverts n m Q (result >>= f) := by
  rcases h with ⟨hgcd, x, rfl, hinv, hx⟩ | ⟨hgcd, text, rfl⟩
  · obtain ⟨y, hy, hmod, hQ⟩ := hf x hx
    exact .inl ⟨hgcd, y, hy, (hmod.mul_left n).trans hinv, hQ⟩
  · exact .inr ⟨hgcd, text, rfl⟩

theorem modEq_one_of_bezout {u v : ℤ} (h : n * u + m * v = 1) : n * u ≡ 1 [ZMOD m] :=
  Int.modEq_iff_dvd.2 ⟨v, by linear_combination -h⟩

theorem bezoutCoef_spec {P : ℤ → ℤ → Prop} {Q : ℤ → Prop} {n' m' : ℤ} {result : Except IntegerError (ℤ × ℤ × ℤ)}
    (h : Bezout T n m P result) (hQ : ∀ u v, P u v → Q u) : Inverts n m Q (bezoutCoef n' m' result) := by
  rcases h with ⟨-, u, v, rfl, hbezout, hP⟩ | ⟨hnot, text, rfl⟩
  · rw [bezoutCoef, ok_bind]
    dsimp only
    by_cases hgcd : Int.gcd n m = 1
    · rw [hgcd] at hbezout ⊢
      rw [Nat.cast_one, if_neg (not_not.2 rfl)]
      exact .inl ⟨hgcd, u, rfl, modEq_one_of_bezout hbezout, hQ u v hP⟩
    · rw [if_pos (by exact_mod_cast hgcd)]
      exact .inr ⟨hgcd, _, rfl⟩
  · refine .inr ⟨fun hgcd => hnot ?_, text, rfl⟩
    rw [hgcd]
    exact holds_one T

theorem convert_of_holds (h : Holds T x) : convert T x = .ok x := if_pos h

theorem promote_eq_left (hS : S.signed = false) (h : (promote T S).signed = true) : promote T S = T := by
  unfold promote at h ⊢
  split_ifs at h ⊢ with hlt hgt
  · rw [hS] at h
    cases h
  · rfl
  · simp [hS] at h

theorem holds_promote_signed (hn : Holds T n) (h : (promote T S).signed = true) : Holds (promote T S) n := by
  rcases holds_promote (U := S) hn with hholds | ⟨hunsigned, -⟩
  · exact hholds
  · rw [h] at hunsigned
    cases hunsigned

theorem natAbs_abs (hn : Holds T n) : (abs T n).natAbs = n.natAbs := by
  by_cases h : Holds T |n|
  · rw [abs_spec h, abs_natCast_natAbs, Int.natAbs_natCast]
  · obtain ⟨hsigned, rfl⟩ := eq_typemin hn h
    rw [abs_typemin hsigned]

-- The coefficient changes its sign with the number; the smallest number has kept its sign.
theorem flipsign_coefficient {u : ℤ} (hn : Holds T n) (hsigned : T.signed = true) (hu : Holds T (-u)) :
    ∃ w, flipsign T u (T.wrap (n - if n < 0 ∧ T.signed = true then 1 else 0)) = w ∧ n * w = abs T n * u ∧ |w| = |u| := by
  by_cases hneg : n < 0
  · rw [if_pos ⟨hneg, hsigned⟩]
    by_cases h : Holds T |n|
    · have hpred : Holds T (n - 1) := by
        have hmin : T.typemin = -2 ^ (T.width.bits - 1) := if_pos hsigned
        have hmax : T.typemax = 2 ^ (T.width.bits - 1) - 1 := if_pos hsigned
        have hle := h.2
        rw [abs_of_neg hneg] at hle
        exact ⟨by omega, by omega⟩
      rw [flipsign, wrap_of_holds hpred, if_pos (by omega), wrap_of_holds hu, abs_spec h, abs_of_neg hneg]
      exact ⟨-u, rfl, by ring, abs_neg u⟩
    · obtain ⟨-, rfl⟩ := eq_typemin hn h
      have hmin : T.typemin = -2 ^ (T.width.bits - 1) := if_pos hsigned
      have hmax : T.typemax = 2 ^ (T.width.bits - 1) - 1 := if_pos hsigned
      have hpow : (0 : ℤ) < 2 ^ (T.width.bits - 1) := by positivity
      have hwrap : T.wrap (T.typemin - 1) = T.typemax := by
        have hmod : T.typemin - 1 ≡ T.typemax [ZMOD 2 ^ T.width.bits] := by
          rw [Int.modEq_iff_dvd, hmin, hmax, two_pow_bits]
          exact ⟨1, by ring⟩
        rw [wrap_congr hmod]
        exact wrap_of_holds ⟨by omega, le_rfl⟩
      rw [flipsign, hwrap, if_neg (by omega), abs_typemin hsigned]
      exact ⟨u, rfl, rfl, rfl⟩
  · have hsub : n - (if n < 0 ∧ T.signed = true then 1 else 0) = n := by
      rw [if_neg fun h => hneg h.1, Int.sub_zero]
    have hself : abs T n = n := if_neg hneg
    rw [hsub, wrap_of_holds hn, flipsign, if_neg hneg, hself]
    exact ⟨u, rfl, rfl, rfl⟩

-- `gcdx` of a signed and an unsigned number, when the signed type is the wider one
theorem gcdxSigned_spec (hn : Holds T n) (hm : Holds S m) (hT : T.signed = true) (hS : S.signed = false)
    (h : (promote T S).signed = true) : Bezout T n m (Bounded n m) (gcdxSigned T S n m) := by
  have hR := promote_eq_left hS h
  have htoSigned : toSigned T = T := by
    obtain ⟨signed, w⟩ := T
    cases hT
    rfl
  have hm' : Holds T m := by
    have hholds := holds_promote_signed (S := T) hm (promote_comm T S ▸ h)
    rwa [promote_comm, hR] at hholds
  have hx : Holds T (abs T n) := holds_flipsign hn n
  have hgcd : Int.gcd (abs T n) m = Int.gcd n m := by rw [Int.gcd, natAbs_abs hn, Int.gcd]
  have habs : |abs T n| = |n| := by rw [abs_natCast_natAbs, natAbs_abs hn, abs_natCast_natAbs]
  have hspec := gcdxSame_spec hx hm' hT
  rw [Bezout, hgcd] at hspec
  rw [gcdxSigned, hR, htoSigned, hR, wrap_of_holds hn]
  dsimp only
  rw [convert_of_holds hx, ok_bind, convert_of_holds hm', ok_bind]
  rcases hspec with ⟨hfits, u, v, hres, hbezout, hu, hu', hv⟩ | ⟨hnot, text, hres⟩
  · have hneg : Holds T (-u) := holds_half hm' hT (by rwa [abs_neg])
    obtain ⟨w, hw, hmul, hwabs⟩ := flipsign_coefficient hn hT hneg
    rw [hres, ok_bind]
    dsimp only
    rw [hw]
    refine .inl ⟨hfits, w, v, rfl, by rw [hmul, hbezout], hwabs ▸ hu, hwabs ▸ hu', ?_⟩
    rwa [habs] at hv
  · rw [hres]
    exact .inr ⟨hnot, text, rfl⟩

-- The coefficient of the first number, when the common type is signed
theorem gcdx_inverts (hn : Holds T n) (hm : Holds S m) (h : (promote T S).signed = true) :
    Inverts n m (Holds (promote T S)) (bezoutCoef n m (gcdx T S n m)) := by
  have hn' := holds_promote_signed hn h
  have hm' : Holds (promote T S) m := by
    rw [promote_comm] at h ⊢
    exact holds_promote_signed hm h
  rw [gcdx]
  split_ifs with hsame hT
  · exact bezoutCoef_spec (gcdxSame_spec hn' hm' h) fun u v hb => holds_half hm' h hb.1
  · have hS : S.signed = false := by simpa [hT] using hsame
    have hR := promote_eq_left hS h
    rw [hR] at hm' ⊢
    exact bezoutCoef_spec (gcdxSigned_spec hn hm hT hS h) fun u v hb => holds_half hm' hT hb.1
  · have hS : S.signed = true := by simpa [hT] using hsame
    have hswap := promote_comm T S
    have hR := promote_eq_left (Bool.not_eq_true _ ▸ hT) (hswap ▸ h)
    rw [hswap, hR] at hm' hn' ⊢
    have hspec := gcdxSigned_spec hm hn hS (Bool.not_eq_true _ ▸ hT) (hswap ▸ h)
    have hspec' : Bezout S n m (fun u v => Bounded m n v u) (gcdxSigned S T m n >>= fun r => .ok (r.1, r.2.2, r.2.1)) := by
      rw [Bezout, Int.gcd_comm]
      rcases hspec with ⟨hfits, u, v, hres, hbezout, hP⟩ | ⟨hnot, text, hres⟩
      · rw [hres]
        exact .inl ⟨hfits, v, u, rfl, by rw [add_comm, hbezout], hP⟩
      · rw [hres]
        exact .inr ⟨hnot, text, rfl⟩
    exact bezoutCoef_spec hspec' fun u v hb => holds_half hm' hS hb.2.2

-- The representative on the side of the modulus
def Normal (m x : ℤ) : Prop := (0 < m → 0 ≤ x ∧ x < m) ∧ (m < 0 → m < x ∧ x ≤ 0)

theorem mod_ok (hx : Holds R x) (hm : Holds S m) (hne : m ≠ 0) : mod R S x m = .ok (x.fmod m) := by rw [mod, mod_eq hx hm hne]

theorem mod_step (hx : Holds R x) (hm : Holds S m) (hne : m ≠ 0) : ∃ y, mod R S x m = .ok y ∧ y ≡ x [ZMOD m] ∧ Normal m y := by
  refine ⟨x.fmod m, mod_ok hx hm hne, ?_, fmod_bounds x⟩
  rw [Int.fmod_def]
  exact Int.modEq_iff_dvd.2 ⟨x.fdiv m, by ring⟩

theorem wrap_unsigned (hR : R.signed = false) (h0 : 0 ≤ x) (hlt : x < 2 ^ R.width.bits) : R.wrap x = x := by
  apply wrap_of_holds
  obtain ⟨signed, w⟩ := R
  cases hR
  have hmax : (⟨false, w⟩ : IntType).typemax = 2 ^ w.bits - 1 := rfl
  dsimp only at hlt
  exact ⟨h0, by omega⟩

theorem abs_lt_of_bits_le (hm : Holds S m) (hle : S.width.bits ≤ R.width.bits) : |m| < 2 ^ R.width.bits :=
  (abs_lt_two_pow_of_holds hm).trans_le (pow_le_pow_right₀ (by omega) hle)

-- A negative coefficient is moved up by the modulus; that the smallest modulus has no absolute value does no harm.
theorem correction_modEq (hR : R.signed = false) (hm : Holds S m) (hle : S.width.bits ≤ R.width.bits) (hne : m ≠ 0)
    (hx : 2 * |x| ≤ |m|) : R.wrap (if x < 0 then plus (toSigned R) S x (abs S m) else x) ≡ x [ZMOD m] := by
  have hlt := abs_lt_of_bits_le hm hle
  have hpos := abs_pos.2 hne
  rcases lt_or_ge x 0 with hneg | hge
  · rw [abs_of_neg hneg] at hx
    have hbits : R.width.bits ≤ (promote (toSigned R) S).width.bits := by
      rw [bits_promote]
      exact le_max_left ..
    rw [if_pos hneg, plus_eq, wrap_wrap_of_le hbits]
    by_cases h : Holds S |m|
    · rw [abs_spec h, wrap_unsigned hR (by omega) (by omega)]
      obtain ⟨c, hc⟩ : m ∣ |m| := self_dvd_abs m
      rw [hc]
      exact Int.modEq_iff_dvd.2 ⟨-c, by ring⟩
    · obtain ⟨hsigned, rfl⟩ := eq_typemin hm h
      have hdvd : S.typemin ∣ 2 ^ R.width.bits := by
        have hmin : S.typemin = -2 ^ (S.width.bits - 1) := if_pos hsigned
        rw [hmin, neg_dvd]
        exact pow_dvd_pow 2 (by omega)
      rw [abs_typemin hsigned]
      refine ((wrap_modEq R _).of_dvd hdvd).trans ?_
      exact Int.modEq_iff_dvd.2 ⟨-1, by ring⟩
  · rw [abs_of_nonneg hge] at hx
    rw [if_neg (not_lt.2 hge), wrap_unsigned hR hge (by omega)]

-- A reduced coefficient is moved to the unsigned type.
theorem reduced_modEq (hR : R.signed = false) (hlt : |m| < 2 ^ R.width.bits) (hne : m ≠ 0) (x : ℤ) :
    R.wrap (if m < 0 then x.fmod m - m else x.fmod m) ≡ x [ZMOD m] ∧ |if m < 0 then x.fmod m - m else x.fmod m| ≤ |m| := by
  obtain ⟨hpos, hneg⟩ := fmod_bounds x (y := m)
  rcases lt_or_gt_of_ne hne with h | h
  · obtain ⟨hlo, hhi⟩ := hneg h
    rw [abs_of_neg h] at hlt
    rw [if_pos h, wrap_unsigned hR (by omega) (by omega), abs_of_neg h, abs_of_nonneg (by omega), Int.fmod_def]
    refine ⟨Int.modEq_iff_dvd.2 ⟨x.fdiv m + 1, by ring⟩, ?_⟩
    rw [← Int.fmod_def]
    omega
  · obtain ⟨hlo, hhi⟩ := hpos h
    rw [abs_of_pos h] at hlt
    rw [if_neg (by omega), wrap_unsigned hR hlo (by omega), abs_of_pos h, abs_of_nonneg hlo]
    refine ⟨?_, hhi.le⟩
    rw [Int.fmod_def]
    exact Int.modEq_iff_dvd.2 ⟨x.fdiv m, by ring⟩

-- What the library documents of `gcdext`
def Documented (gcdext : ℤ → ℤ → ℤ × ℤ × ℤ) : Prop :=
  ∀ a b, (gcdext a b).1 = Int.gcd a b ∧ a * (gcdext a b).2.1 + b * (gcdext a b).2.2 = Int.gcd a b

theorem gcdxBig_spec {gcdext : ℤ → ℤ → ℤ × ℤ × ℤ} (h : Documented gcdext) (a b : ℤ) :
    (gcdxBig gcdext a b).1 = Int.gcd a b ∧ a * (gcdxBig gcdext a b).2.1 + b * (gcdxBig gcdext a b).2.2 = Int.gcd a b := by
  obtain ⟨hg, hbezout⟩ := h a b
  rw [gcdxBig]
  dsimp only
  split_ifs with ht heq habs
  · refine ⟨hg, ?_⟩
    rw [ht] at hbezout ⊢
    rw [heq] at hbezout ⊢
    linear_combination hbezout
  · refine ⟨hg, ?_⟩
    have hopposite : a = -b := (abs_eq_abs.1 habs).resolve_left heq
    rw [ht] at hbezout ⊢
    rw [hopposite] at hbezout ⊢
    linear_combination hbezout
  · exact ⟨hg, hbezout⟩
  · exact ⟨hg, hbezout⟩

theorem holds_toSigned (hn : Holds T n) (hle : T.width.bits ≤ R.width.bits) (hmax : n ≤ (toSigned R).typemax) :
    Holds (toSigned R) n := by
  refine ⟨?_, hmax⟩
  have hmin : (toSigned R).typemin = -2 ^ (R.width.bits - 1) := rfl
  have hpow : (2 : ℤ) ^ (T.width.bits - 1) ≤ 2 ^ (R.width.bits - 1) := pow_le_pow_right₀ (by omega) (by omega)
  rw [hmin]
  refine le_trans ?_ hn.1
  rw [IntType.typemin]
  split_ifs
  · exact neg_le_neg hpow
  · exact neg_nonpos.2 (by positivity)

theorem holds_widen (hn : Holds T n) (hle : T.width.bits ≤ R.width.bits) (hwide : R.width ≠ .w128) :
    Holds (widen (toSigned R)) n := by
  have hbits : (widen (toSigned R)).width.bits = 2 * R.width.bits := bits_widen (S := toSigned R) hwide
  have hR : 8 ≤ R.width.bits := by cases R.width <;> decide
  apply holds_of_abs_lt rfl
  rw [hbits]
  refine (abs_lt_two_pow_of_holds hn).trans_le ?_
  exact pow_le_pow_right₀ (by omega) (by omega)

-- With coprime arguments `invmod` returns the inverse on the side of the modulus, with others it throws.
theorem invmod_spec {gcdext : ℤ → ℤ → ℤ × ℤ × ℤ} (hlib : Documented gcdext) (hn : Holds T n) (hm : Holds S m) (hne : m ≠ 0) :
    Inverts n m (Normal m) (invmod gcdext T S n m) := by
  have hbits := bits_promote T S
  have hleT : T.width.bits ≤ (promote T S).width.bits := hbits ▸ le_max_left ..
  have hleS : S.width.bits ≤ (promote T S).width.bits := hbits ▸ le_max_right ..
  have hlt := abs_lt_of_bits_le hm hleS
  rw [invmod, if_neg hne]
  dsimp only
  by_cases hsigned : (promote T S).signed = true
  · rw [if_pos hsigned]
    exact (gcdx_inverts hn hm hsigned).bind fun x hx => mod_step hx hm hne
  rw [if_neg hsigned]
  have hR := Bool.eq_false_iff.2 hsigned
  by_cases hsmall : n ≤ (toSigned (promote T S)).typemax ∧ m ≤ (toSigned (promote T S)).typemax
  · have hn' := holds_toSigned hn hleT hsmall.1
    have hm' := holds_toSigned hm hleS hsmall.2
    rw [if_pos hsmall, wrap_of_holds hn', wrap_of_holds hm']
    refine (bezoutCoef_spec (gcdxSame_spec hn' hm' rfl) fun u v hb => hb.2.1 hne).bind fun x hx => ?_
    obtain ⟨y, hy, hmod, hnormal⟩ := mod_step (holds_wrap (promote T S) _) hm hne
    exact ⟨y, hy, hmod.trans (correction_modEq hR hm hleS hne hx), hnormal⟩
  rw [if_neg hsmall]
  by_cases hwide : (promote T S).width = .w128
  · have hbig : Inverts n m (fun _ => True) (bezoutCoef n m (.ok (gcdxBig gcdext n m))) := by
      obtain ⟨hg, hbezout⟩ := gcdxBig_spec hlib n m
      rw [bezoutCoef, ok_bind]
      dsimp only
      rw [hg]
      by_cases hgcd : Int.gcd n m = 1
      · rw [hgcd] at hbezout ⊢
        rw [Nat.cast_one, if_neg (not_not.2 rfl)]
        exact .inl ⟨hgcd, _, rfl, modEq_one_of_bezout hbezout, trivial⟩
      · rw [if_pos (by exact_mod_cast hgcd)]
        exact .inr ⟨hgcd, _, rfl⟩
    rw [if_pos hwide]
    refine hbig.bind fun x _ => ?_
    obtain ⟨y, hy, hmod, hnormal⟩ := mod_step (holds_wrap (promote T S) _) hm hne
    rw [modBig, if_neg hne, ok_bind]
    exact ⟨y, hy, hmod.trans (reduced_modEq hR hlt hne x).1, hnormal⟩
  · rw [if_neg hwide]
    have hn' := holds_widen hn hleT hwide
    have hm' := holds_widen hm hleS hwide
    have hW : (widen (toSigned (promote T S))).width.bits = 2 * (promote T S).width.bits :=
      bits_widen (S := toSigned (promote T S)) hwide
    have hpos : 8 ≤ (promote T S).width.bits := by cases (promote T S).width <;> decide
    have hpromote : promote (widen (toSigned (promote T S))) S = widen (toSigned (promote T S)) := by
      rw [promote, if_neg (by omega), if_pos (by omega)]
    rw [wrap_of_holds hn', wrap_of_holds hm']
    refine (bezoutCoef_spec (gcdxSame_spec hn' hm' rfl) fun u v hb => holds_half hm' rfl hb.1).bind fun x hx => ?_
    obtain ⟨y, hy, hmod, hnormal⟩ := mod_step (holds_wrap (promote T S) _) hm hne
    obtain ⟨hred, hsize⟩ := reduced_modEq hR hlt hne x
    have hfits : ∀ z, |z| ≤ |m| → Holds (widen (toSigned (promote T S))) z := fun z hz => by
      apply holds_of_abs_lt rfl
      rw [hW]
      refine (hz.trans_lt hlt).trans_le ?_
      exact pow_le_pow_right₀ (by omega) (by omega)
    have hsub : (if m < 0 then (widen (toSigned (promote T S))).wrap (x.fmod m - m) else x.fmod m) =
        if m < 0 then x.fmod m - m else x.fmod m := by
      split_ifs at hsize ⊢
      · exact wrap_of_holds (hfits _ hsize)
      · rfl
    rw [mod_ok hx hm' hne, ok_bind, hpromote, hsub]
    exact ⟨y, hy, hmod.trans hred, hnormal⟩

end Inverse

section Newton

open Euclid

variable {T : IntType} {n x y z : ℤ}

theorem newton_spec (passes : ℕ) (hx : n * x ≡ 1 - z [ZMOD 2 ^ T.width.bits]) (hy : y ≡ z [ZMOD 2 ^ T.width.bits]) :
    n * newton T passes x y ≡ 1 - z ^ 2 ^ passes [ZMOD 2 ^ T.width.bits] := by
  induction passes generalizing x y z with
  | zero =>
      rw [pow_zero, pow_one]
      exact hx
  | succ passes ih =>
      have hnext : n * T.wrap (x * T.wrap (y + 1)) ≡ 1 - z * z [ZMOD 2 ^ T.width.bits] := by
        refine Int.ModEq.trans ?_ (newton_step hx hy)
        apply Int.ModEq.mul_left
        exact (wrap_modEq T _).trans ((wrap_modEq T _).mul_left x)
      have hsquare : T.wrap (y * y) ≡ z * z [ZMOD 2 ^ T.width.bits] := (wrap_modEq T _).trans (hy.mul hy)
      rw [newton, pow_succ', pow_mul, pow_two]
      exact ih hnext hsquare

theorem two_pow_trailingZeros {k : ℕ} (h : Holds T (2 ^ k : ℕ)) : 2 ^ trailingZeros T (2 ^ k : ℕ) = 2 ^ k := by
  obtain ⟨-, hdvd, hodd⟩ := trailingZeros_spec h (by positivity)
  rw [Int.natAbs_natCast] at hdvd hodd
  have hle := (Nat.pow_dvd_pow_iff_le_right (by omega)).1 hdvd
  rw [Nat.pow_div hle (by omega)] at hodd
  rcases Nat.eq_zero_or_pos (k - trailingZeros T (2 ^ k : ℕ)) with h0 | hpos
  · congr 1
    omega
  · rw [Nat.mod_eq_zero_of_dvd (dvd_pow_self 2 (by omega))] at hodd
    cases hodd

-- Every pass doubles the number of right bits, so the last one reaches the width.
theorem bits_le_newtonPasses (w : Width) : w.bits ≤ 5 * 2 ^ newtonPasses w := by
  obtain ⟨k, hk⟩ : ∃ k, 2 * w.sizeof = 2 ^ k := by
    cases w with
    | w8 => exact ⟨1, rfl⟩
    | w16 => exact ⟨2, rfl⟩
    | w32 => exact ⟨3, rfl⟩
    | w64 => exact ⟨4, rfl⟩
    | w128 => exact ⟨5, rfl⟩
  have hholds : Holds IntFuncs.Int64 (2 ^ k : ℕ) := by
    rw [← hk]
    cases w <;> decide
  rw [newtonPasses, hk, two_pow_trailingZeros hholds, ← hk, Width.bits]
  omega

theorem toNat_wrap_mod {k : ℕ} (hk : k ≤ T.width.bits) (x : ℤ) : ((((toUnsigned T).wrap x).toNat % 2 ^ k : ℕ) : ℤ) = x % 2 ^ k := by
  have hnonneg : 0 ≤ (toUnsigned T).wrap x := nonneg_of_unsigned (holds_wrap _ x) rfl
  push_cast
  rw [Int.toNat_of_nonneg hnonneg]
  exact (wrap_modEq (toUnsigned T) x).of_dvd (pow_dvd_pow 2 hk)

theorem xor_modEq (h5 : 5 ≤ T.width.bits) (x y : ℤ) :
    xor T x y ≡ ((x % 32).toNat ^^^ (y % 32).toNat : ℕ) [ZMOD 32] := by
  have hdvd : (32 : ℤ) ∣ 2 ^ T.width.bits := pow_dvd_pow (2 : ℤ) h5
  have hbits : ∀ z : ℤ, ((toUnsigned T).wrap z).toNat % 2 ^ 5 = (z % 32).toNat := fun z => by
    have hcast := toNat_wrap_mod h5 z
    have hmod : z % 2 ^ 5 = z % 32 := rfl
    omega
  have hnat : (((toUnsigned T).wrap x).toNat ^^^ ((toUnsigned T).wrap y).toNat) % 2 ^ 5 =
      ((x % 32).toNat ^^^ (y % 32).toNat) % 2 ^ 5 := by
    have hx : (x % 32).toNat < 2 ^ 5 := by omega
    have hy : (y % 32).toNat < 2 ^ 5 := by omega
    rw [Nat.xor_mod_two_pow, Nat.xor_mod_two_pow, hbits, hbits, Nat.mod_eq_of_lt hx, Nat.mod_eq_of_lt hy]
  refine ((wrap_modEq T _).of_dvd hdvd).trans ?_
  exact Int.natCast_modEq_iff.2 hnat

-- The inverse of an odd number modulo the word
theorem invmodWord_spec (T : IntType) (n : ℤ) :
    n % 2 = 1 ∧ (∃ x, invmodWord T n = .ok x ∧ n * x ≡ 1 [ZMOD 2 ^ T.width.bits]) ∨
    n % 2 = 0 ∧ invmodWord T n = .error (.DomainError (.evenArgument n)) := by
  rw [invmodWord]
  by_cases hodd : n % 2 = 1
  · rw [if_pos hodd]
    dsimp only
    have hbits : 5 ≤ T.width.bits := by cases T.width <;> decide
    have hbits' : 5 ≤ (promote IntFuncs.Int64 T).width.bits := by
      rw [bits_promote]
      exact hbits.trans (le_max_right ..)
    generalize hx : T.wrap (xor (promote IntFuncs.Int64 T) (times IntFuncs.Int64 T 3 n) 2) = x
    have hfirst : n * x ≡ 1 [ZMOD 2 ^ 5] := by
      have hr : n ≡ ((n % 32).toNat : ℕ) [ZMOD 32] := by
        rw [Int.toNat_of_nonneg (by omega)]
        exact (Int.mod_modEq n 32).symm
      have htriple : (times IntFuncs.Int64 T 3 n % 32).toNat = 3 * (n % 32).toNat % 32 := by
        have hmod : times IntFuncs.Int64 T 3 n ≡ 3 * n [ZMOD 32] := by
          rw [times_eq]
          exact (wrap_modEq _ (3 * n)).of_dvd (pow_dvd_pow (2 : ℤ) hbits')
        have hmod' : times IntFuncs.Int64 T 3 n % 32 = 3 * n % 32 := hmod
        omega
      have hguess : x ≡ (3 * (n % 32).toNat % 32 ^^^ 2 : ℕ) [ZMOD 32] := by
        rw [← hx, ← htriple]
        exact ((wrap_modEq T _).of_dvd (pow_dvd_pow (2 : ℤ) hbits)).trans (xor_modEq hbits' _ 2)
      have hone := three_mul_xor_two (r := (n % 32).toNat) (by omega) (by omega)
      refine (hr.mul hguess).trans ?_
      exact_mod_cast hone
    obtain ⟨c, hc⟩ := Int.modEq_iff_dvd.1 hfirst
    have hspec := newton_spec (T := T) (n := n) (x := x) (y := T.wrap (1 - T.wrap (n * x))) (z := 1 - n * x) (newtonPasses T.width)
      (by rw [sub_sub_cancel]) ((wrap_modEq T _).trans ((wrap_modEq T _).sub_left 1))
    have hzero : 1 - (1 - n * x) ^ 2 ^ newtonPasses T.width ≡ 1 [ZMOD 2 ^ T.width.bits] := by
      rw [hc, mul_pow, ← pow_mul]
      apply Int.modEq_iff_dvd.2
      rw [sub_sub_cancel]
      exact Dvd.dvd.mul_right (pow_dvd_pow 2 (bits_le_newtonPasses T.width)) _
    exact .inl ⟨hodd, _, rfl, hspec.trans hzero⟩
  · rw [if_neg hodd]
    exact .inr ⟨by omega, rfl⟩

theorem holds_newton (passes : ℕ) (hx : Holds T x) : Holds T (newton T passes x y) := by
  induction passes generalizing x y with
  | zero => exact hx
  | succ passes ih => exact ih (holds_wrap T _)

end Newton

section Exact

theorem promote_self (T : IntType) : promote T T = T := by
  rw [promote, if_neg (lt_irrefl _), if_neg (lt_irrefl _), Bool.and_self]

theorem gcdx_self (T : IntType) (a b : ℤ) : gcdx T T a b = gcdxSame T a b := by
  rw [gcdx, if_pos rfl, promote_self]

-- The coefficients of `gcdx`, the inverse modulo a number and the inverse modulo the word
theorem inverses_exact {gcdext : ℤ → ℤ → ℤ × ℤ × ℤ} (hlib : Documented gcdext) :
    (∀ (T : IntType) (a b : MachineInt T) (d u v : ℤ), T.signed = true → gcdx T T a.val b.val = .ok (d, u, v) →
      d = Int.gcd a.val b.val ∧ a.val * u + b.val * v = d) ∧
    (∀ (T S : IntType) (n : MachineInt T) (m : MachineInt S), m.val ≠ 0 →
      Int.gcd n.val m.val = 1 ∧ (∃ x, invmod gcdext T S n.val m.val = .ok x ∧ n.val * x ≡ 1 [ZMOD m.val] ∧ Normal m.val x) ∨
      Int.gcd n.val m.val ≠ 1 ∧ ∃ text, invmod gcdext T S n.val m.val = .error (.DomainError text)) ∧
    ∀ (T : IntType) (n : MachineInt T),
      n.val % 2 = 1 ∧ (∃ x, invmodWord T n.val = .ok x ∧ Holds T x ∧ n.val * x ≡ 1 [ZMOD 2 ^ T.width.bits]) ∨
      n.val % 2 = 0 ∧ ∃ text, invmodWord T n.val = .error (.DomainError text) := by
  refine ⟨fun T a b d u v hsigned hres => ?_, fun T S n m hne => ?_, fun T n => ?_⟩
  · have hspec := gcdxSame_spec (holds_val a) (holds_val b) hsigned
    rw [gcdx_self] at hres
    rcases hspec with ⟨-, u', v', hok, hbezout, -⟩ | ⟨-, text, herror⟩
    · obtain ⟨rfl, rfl, rfl⟩ : d = Int.gcd a.val b.val ∧ u = u' ∧ v = v' := by simpa using hres.symm.trans hok
      exact ⟨rfl, hbezout⟩
    · rw [herror] at hres
      cases hres
  · exact invmod_spec hlib (holds_val n) (holds_val m) hne
  · rcases invmodWord_spec T n.val with ⟨hodd, x, hres, hinv⟩ | ⟨heven, herror⟩
    · refine .inl ⟨hodd, x, hres, ?_, hinv⟩
      rw [invmodWord, if_pos hodd] at hres
      cases hres
      exact holds_newton _ (holds_wrap T _)
    · exact .inr ⟨heven, _, herror⟩

-- The smallest byte has a divisor in common with twelve, and three an inverse modulo it.
theorem inverses_exact_bytes : ((4 : ℤ) = Int.gcd (-128) 12 ∧ -128 * 1 + 12 * 11 = (4 : ℤ)) ∧
    ∃ x, invmod (fun a b => (Int.gcd a b, Int.gcdA a b, Int.gcdB a b)) ⟨true, .w8⟩ ⟨true, .w8⟩ 3 (-128) = .ok x ∧
      3 * x ≡ 1 [ZMOD -128] ∧ Normal (-128) x := by
  obtain ⟨hgcdx, hinvmod, -⟩ := @inverses_exact (fun a b => (Int.gcd a b, Int.gcdA a b, Int.gcdB a b))
    fun a b => ⟨rfl, (Int.gcd_eq_gcd_ab a b).symm⟩
  refine ⟨hgcdx ⟨true, .w8⟩ ⟨-128, by decide, by decide⟩ ⟨12, by decide, by decide⟩ 4 1 11 rfl (by decide), ?_⟩
  rcases hinvmod ⟨true, .w8⟩ ⟨true, .w8⟩ ⟨3, by decide, by decide⟩ ⟨-128, by decide, by decide⟩ (by decide) with h | h
  · exact h.2
  · exact absurd rfl h.1

end Exact

end Joolia.Gcd.Machine
