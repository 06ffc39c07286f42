import Joolia.Library.Fallible
import Joolia.Library.Words
import Mathlib.Data.Int.GCD
import Mathlib.Data.Int.ModEq
import Mathlib.Data.Nat.Prime.Basic
import Mathlib.Tactic.Ring

namespace Joolia.Gcd

open Fallible

section Model

inductive ArithmeticError
  | OverflowError
  | DomainError
deriving DecidableEq, Repr

def checkedAbs (x : Int64) : Except ArithmeticError Int64 :=
  let r := if x < 0 then -x else x
  if r < 0 then .error .OverflowError else .ok r

def checkedMul (x y : Int64) : Except ArithmeticError Int64 :=
  let z := x.toInt * y.toInt
  if -2 ^ 63 ≤ z ∧ z < 2 ^ 63 then .ok (x * y) else .error .OverflowError

def trailingZeros (x : ℕ) : ℕ := (BitVec.ofNat 64 x).ctz.toNat

-- The loop of `_gcd`, on absolute values; a difference and its absolute value have the same trailing zeros.
def gcdLoop : ℕ → ℕ → ℕ → ℕ → ℕ
  | 0, _, b, _ => b
  | fuel + 1, a, b, za =>
    if a = 0 then b
    else
      let a := a / 2 ^ za
      let absd := max a b - min a b
      gcdLoop fuel absd (min a b) (trailingZeros absd)

-- `_gcd`, the binary algorithm
def gcdBinary (ain bin : Int64) : Int64 :=
  let zb := trailingZeros bin.toInt.natAbs
  let za := trailingZeros ain.toInt.natAbs
  let a := ain.toInt.natAbs
  let b := bin.toInt.natAbs / 2 ^ zb
  let k := min za zb
  let r := gcdLoop (a + b + 1) a b za * 2 ^ k
  Int64.ofNat r

def gcd (a b : Int64) : Except ArithmeticError Int64 :=
  if a = 0 then checkedAbs b
  else if b = 0 then checkedAbs a
  else if a = Int64.minValue then
    if a = b then .error .OverflowError else .ok (gcdBinary b a)
  else .ok (gcdBinary a b)

def lcm (a b : Int64) : Except ArithmeticError Int64 :=
  if a = 0 ∨ b = 0 then .ok 0
  else do
    let g ← gcd b a
    let m ← checkedMul a (b / g)
    checkedAbs m

-- The loop of `gcdx`; a remainder is smaller than the number it is one of, so `fuel` passes are enough.
def gcdxLoop : ℕ → Int64 → Int64 → Int64 → Int64 → Int64 → Int64 → Int64 × Int64 × Int64
  | 0, a, _, s0, _, t0, _ => (a, s0, t0)
  | fuel + 1, a, b, s0, s1, t0, t1 =>
    if b = 0 then (a, s0, t0)
    else
      let q := a / b
      let r := a % b
      gcdxLoop fuel b r s1 (s0 - q * s1) t1 (t0 - q * t1)

def abs (x : Int64) : Int64 := if x < 0 then -x else x

def gcdx (a b : Int64) : Except ArithmeticError (Int64 × Int64 × Int64) :=
  if a = 0 ∧ b = 0 then .ok (0, 0, 0)
  else if abs b = 1 then .ok (1, 0, b)
  else if abs a = 1 then .ok (1, a, 0)
  else
    let (a, s0, t0) := gcdxLoop (b.toInt.natAbs + 1) a b 1 0 0 1
    if a < 0 ∧ abs a < 0 then .error .DomainError
    else .ok (if a < 0 then (abs a, -s0, -t0) else (a, s0, t0))

end Model

section Binary

theorem ctz_spec {w : ℕ} {x : BitVec w} (hne : x ≠ 0) :
    x.ctz.toNat < w ∧ 2 ^ x.ctz.toNat ∣ x.toNat ∧ (x.toNat / 2 ^ x.ctz.toNat) % 2 = 1 := by
  have hbit : x.toNat.testBit x.ctz.toNat = true := BitVec.getLsbD_true_ctz_of_ne_zero hne
  refine ⟨BitVec.lt_of_getLsbD hbit, Nat.dvd_of_mod_eq_zero ?_, ?_⟩
  · apply Nat.eq_of_testBit_eq
    intro i
    rw [Nat.testBit_mod_two_pow, Nat.zero_testBit]
    by_cases hi : i < x.ctz.toNat
    · have hz : x.toNat.testBit i = false := BitVec.getLsbD_false_of_lt_ctz hi
      rw [hz, Bool.and_false]
    · rw [decide_eq_false hi, Bool.false_and]
  · rw [Nat.testBit_eq_decide_div_mod_eq] at hbit
    exact of_decide_eq_true hbit

theorem trailingZeros_spec {x : ℕ} (hpos : 0 < x) (hlt : x < 2 ^ 64) :
    trailingZeros x < 64 ∧ 2 ^ trailingZeros x ∣ x ∧ (x / 2 ^ trailingZeros x) % 2 = 1 := by
  have hval : (BitVec.ofNat 64 x).toNat = x := by rw [BitVec.toNat_ofNat, Nat.mod_eq_of_lt hlt]
  have hne : BitVec.ofNat 64 x ≠ 0 := by
    intro h
    have hzero : x = 0 := hval.symm.trans (by rw [h]; rfl)
    omega
  have hspec := ctz_spec hne
  rwa [hval] at hspec

-- Dividing a number by its power of two does not change the divisors it shares with an odd one.
theorem gcd_div_two_pow {a b t : ℕ} (hdvd : 2 ^ t ∣ a) (hb : b % 2 = 1) : Nat.gcd (a / 2 ^ t) b = Nat.gcd a b := by
  have hcop : Nat.Coprime (2 ^ t) b := Nat.Coprime.pow_left t (Nat.coprime_two_left.2 (Nat.odd_iff.2 hb))
  have h := Nat.Coprime.gcd_mul_left_cancel (a / 2 ^ t) hcop
  rw [Nat.mul_div_cancel' hdvd] at h
  exact h.symm

theorem gcd_absdiff (a b : ℕ) : Nat.gcd (max a b - min a b) (min a b) = Nat.gcd a b := by
  rcases Nat.le_total a b with h | h
  · rw [max_eq_right h, min_eq_left h, Nat.gcd_sub_self_left h, Nat.gcd_comm]
  · rw [max_eq_left h, min_eq_right h, Nat.gcd_sub_self_left h]

theorem gcdLoop_spec {fuel a b za : ℕ} (hfuel : a + b < fuel) (ha : a < 2 ^ 64) (hb : b % 2 = 1) (hlt : b < 2 ^ 64)
    (hza : za = trailingZeros a) : gcdLoop fuel a b za = Nat.gcd a b := by
  induction fuel generalizing a b za with
  | zero => omega
  | succ fuel ih =>
      rw [gcdLoop]
      split_ifs with h0
      · rw [h0, Nat.gcd_zero_left]
      · obtain ⟨-, hdvd, hodd⟩ := trailingZeros_spec (Nat.pos_of_ne_zero h0) ha
        rw [← hza] at hdvd hodd
        have hle := Nat.div_le_self a (2 ^ za)
        rw [← gcd_div_two_pow hdvd hb]
        dsimp only
        generalize a / 2 ^ za = a' at hle hodd ⊢
        rw [ih (by omega) (by omega) (by omega) (by omega) rfl, gcd_absdiff]

theorem gcd_two_pow_mul {x y s t : ℕ} (hx : x % 2 = 1) (hy : y % 2 = 1) :
    Nat.gcd (2 ^ s * x) (2 ^ t * y) = Nat.gcd x y * 2 ^ min s t := by
  have hcop : ∀ (n : ℕ) {z : ℕ}, z % 2 = 1 → Nat.Coprime (2 ^ n) z := fun n _ hz =>
    Nat.Coprime.pow_left n (Nat.coprime_two_left.2 (Nat.odd_iff.2 hz))
  rcases Nat.le_total s t with h | h
  · obtain ⟨d, rfl⟩ := Nat.exists_eq_add_of_le h
    rw [min_eq_left h, pow_add, Nat.mul_assoc, Nat.gcd_mul_left, Nat.gcd_comm x,
      Nat.Coprime.gcd_mul_left_cancel y (hcop d hx), Nat.gcd_comm, Nat.mul_comm]
  · obtain ⟨d, rfl⟩ := Nat.exists_eq_add_of_le h
    rw [min_eq_right h, pow_add, Nat.mul_assoc, Nat.gcd_mul_left, Nat.Coprime.gcd_mul_left_cancel x (hcop d hy), Nat.mul_comm]

theorem natAbs_pos {x : Int64} (h : x ≠ 0) : 0 < x.toInt.natAbs := by
  rw [Int.natAbs_pos]
  intro h0
  exact h (Int64.toInt.inj (by simpa using h0))

theorem natAbs_le (x : Int64) : x.toInt.natAbs ≤ 2 ^ 63 := by
  have hlo := x.le_toInt
  have hhi := x.toInt_lt
  omega

theorem natAbs_lt_of_ne {x : Int64} (h : x ≠ Int64.minValue) : x.toInt.natAbs < 2 ^ 63 := by
  have hlo := x.le_toInt
  have hhi := x.toInt_lt
  have hne : x.toInt ≠ -2 ^ 63 := fun h0 => h (Int64.toInt.inj (by rw [h0]; rfl))
  omega

theorem toInt_ofNat {n : ℕ} (h : n < 2 ^ 63) : (Int64.ofNat n).toInt = n := Int64.toInt_ofNat_of_lt h

theorem gcdBinary_spec {ain bin : Int64} (ha : ain ≠ 0) (hb : bin ≠ 0) (hmin : ain ≠ Int64.minValue) :
    (gcdBinary ain bin).toInt = Nat.gcd ain.toInt.natAbs bin.toInt.natAbs := by
  have hapos := natAbs_pos ha
  have hbpos := natAbs_pos hb
  have halt := natAbs_lt_of_ne hmin
  have hble := natAbs_le bin
  rw [gcdBinary]
  generalize ain.toInt.natAbs = x at *
  generalize bin.toInt.natAbs = y at *
  obtain ⟨-, hxdvd, hxodd⟩ := trailingZeros_spec hapos (by omega)
  obtain ⟨-, hydvd, hyodd⟩ := trailingZeros_spec hbpos (by omega)
  have hyle := Nat.div_le_self y (2 ^ trailingZeros y)
  have hloop := gcdLoop_spec (Nat.lt_succ_self (x + y / 2 ^ trailingZeros y)) (by omega) hyodd (by omega) rfl
  have hgcd := gcd_two_pow_mul (s := trailingZeros x) (t := trailingZeros y) hxodd hyodd
  rw [Nat.mul_div_cancel' hxdvd, Nat.mul_div_cancel' hydvd, gcd_div_two_pow hxdvd hyodd] at hgcd
  rw [hloop, ← hgcd]
  exact toInt_ofNat ((Nat.gcd_le_left y hapos).trans_lt halt)

end Binary

section Lcm

theorem toInt_abs {x : Int64} (h : x.toInt.natAbs < 2 ^ 63) : (abs x).toInt = x.toInt.natAbs := by
  have hiff : x < 0 ↔ x.toInt < 0 := by rw [Int64.lt_iff_toInt_lt, Int64.toInt_zero]
  unfold abs
  split_ifs with hneg
  · rw [hiff] at hneg
    rw [Int64.toInt_neg, Int.bmod_eq_of_le (by omega) (by omega)]
    omega
  · rw [hiff] at hneg
    omega

-- Only the smallest number has no absolute value.
theorem checkedAbs_spec (x : Int64) : checkedAbs x = if x.toInt.natAbs < 2 ^ 63 then .ok (abs x) else .error .OverflowError := by
  have hle := natAbs_le x
  have hdef : checkedAbs x = if abs x < 0 then .error .OverflowError else .ok (abs x) := rfl
  rw [hdef]
  by_cases h : x.toInt.natAbs < 2 ^ 63
  · have hnonneg : ¬abs x < 0 := by
      rw [Int64.lt_iff_toInt_lt, Int64.toInt_zero, toInt_abs h]
      omega
    rw [if_pos h, if_neg hnonneg]
  · have hmin : x = Int64.minValue := by
      by_contra hne
      exact h (natAbs_lt_of_ne hne)
    rw [if_neg h, hmin, if_pos (by decide)]

-- `gcd` of two numbers that are not zero
theorem gcd_spec {a b : Int64} (ha : a ≠ 0) (hb : b ≠ 0) :
    (a = Int64.minValue ∧ b = Int64.minValue ∧ gcd a b = .error .OverflowError) ∨
    ∃ g, gcd a b = .ok g ∧ g.toInt = Nat.gcd a.toInt.natAbs b.toInt.natAbs := by
  rw [gcd, if_neg ha, if_neg hb]
  split_ifs with hmin heq
  · exact .inl ⟨hmin, heq ▸ hmin, rfl⟩
  · exact .inr ⟨_, rfl, by rw [gcdBinary_spec hb ha (hmin ▸ Ne.symm heq), Nat.gcd_comm]⟩
  · exact .inr ⟨_, rfl, gcdBinary_spec ha hb hmin⟩

theorem toInt_div_of_pos (x : Int64) {y : Int64} (hy : 0 < y.toInt) : (x / y).toInt = x.toInt.tdiv y.toInt := by
  have hlo := x.le_toInt
  have hhi := x.toInt_lt
  have habs := Int.natAbs_tdiv_le_natAbs x.toInt y.toInt
  have hsign : x.toInt < 0 → x.toInt.tdiv y.toInt ≤ 0 := by
    intro hx
    have hneg := Int.tdiv_nonneg (by omega : 0 ≤ -x.toInt) hy.le
    rw [Int.neg_tdiv] at hneg
    omega
  rw [Int64.toInt_div, Int.bmod_eq_of_le (by omega) (by omega)]

theorem checkedMul_spec (x y : Int64) :
    (-2 ^ 63 ≤ x.toInt * y.toInt ∧ x.toInt * y.toInt < 2 ^ 63 ∧ checkedMul x y = .ok (x * y) ∧ (x * y).toInt = x.toInt * y.toInt) ∨
    ¬(-2 ^ 63 ≤ x.toInt * y.toInt ∧ x.toInt * y.toInt < 2 ^ 63) ∧ checkedMul x y = .error .OverflowError := by
  by_cases h : -2 ^ 63 ≤ x.toInt * y.toInt ∧ x.toInt * y.toInt < 2 ^ 63
  · refine .inl ⟨h.1, h.2, if_pos h, ?_⟩
    rw [Int64.toInt_mul, Int.bmod_eq_of_le (by omega) (by omega)]
  · exact .inr ⟨h, if_neg h⟩

theorem lcm_spec {a b : Int64} (ha : a ≠ 0) (hb : b ≠ 0) :
    (Nat.lcm a.toInt.natAbs b.toInt.natAbs < 2 ^ 63 ∧ ∃ l, lcm a b = .ok l ∧ l.toInt = Nat.lcm a.toInt.natAbs b.toInt.natAbs) ∨
    2 ^ 63 ≤ Nat.lcm a.toInt.natAbs b.toInt.natAbs ∧ lcm a b = .error .OverflowError := by
  have hapos := natAbs_pos ha
  rw [lcm, if_neg (not_or.2 ⟨ha, hb⟩)]
  rcases gcd_spec hb ha with ⟨rfl, rfl, hgcd⟩ | ⟨g, hgcd, hg⟩
  · rw [hgcd]
    exact .inr ⟨by decide, rfl⟩
  · have hgpos : 0 < Nat.gcd b.toInt.natAbs a.toInt.natAbs := Nat.gcd_pos_of_pos_left _ (natAbs_pos hb)
    have hquot : (b / g).toInt.natAbs = b.toInt.natAbs / Nat.gcd b.toInt.natAbs a.toInt.natAbs := by
      rw [toInt_div_of_pos b (by omega), Int.natAbs_tdiv, hg]
      rfl
    have hlcm : (a.toInt * (b / g).toInt).natAbs = Nat.lcm a.toInt.natAbs b.toInt.natAbs := by
      have hdvd : Nat.gcd a.toInt.natAbs b.toInt.natAbs ∣ b.toInt.natAbs := Nat.gcd_dvd_right _ _
      calc (a.toInt * (b / g).toInt).natAbs
          = a.toInt.natAbs * (b.toInt.natAbs / Nat.gcd a.toInt.natAbs b.toInt.natAbs) := by rw [Int.natAbs_mul, hquot, Nat.gcd_comm]
        _ = Nat.lcm a.toInt.natAbs b.toInt.natAbs := (Nat.mul_div_assoc _ hdvd).symm
    rw [hgcd, ok_bind]
    rcases checkedMul_spec a (b / g) with ⟨hlo, hhi, hmul, hval⟩ | ⟨hout, hmul⟩
    · rw [hmul, ok_bind, checkedAbs_spec, hval, hlcm]
      split_ifs with hfits
      · exact .inl ⟨hfits, _, rfl, by rw [toInt_abs (by rw [hval, hlcm]; exact hfits), hval, hlcm]⟩
      · exact .inr ⟨Nat.not_lt.1 hfits, rfl⟩
    · rw [hmul]
      exact .inr ⟨by omega, rfl⟩

end Lcm

section Bezout

-- Each coefficient has a recursion of its own.
theorem xgcdAux_swap (r r' : ℕ) (s t s' t' : ℤ) : (Nat.xgcdAux r s t r' s' t').2.1 = (Nat.xgcdAux r t s r' t' s').2.2 := by
  induction r using Nat.strong_induction_on generalizing r' s t s' t' with
  | _ r ih =>
      rcases Nat.eq_zero_or_pos r with rfl | hpos
      · rw [Nat.xgcd_zero_left, Nat.xgcd_zero_left]
      · rw [Nat.xgcdAux_rec hpos, Nat.xgcdAux_rec hpos]
        exact ih _ (Nat.mod_lt r' hpos) _ _ _ _ _

theorem toInt_modEq_sub (x y : Int64) : (x - y).toInt ≡ x.toInt - y.toInt [ZMOD 2 ^ 64] := by
  rw [Int64.toInt_sub]
  exact Int.bmod_emod

theorem toInt_modEq_mul (x y : Int64) : (x * y).toInt ≡ x.toInt * y.toInt [ZMOD 2 ^ 64] := by
  rw [Int64.toInt_mul]
  exact Int.bmod_emod

theorem gcdxLoop_spec {fuel n m : ℕ} {a b s0 s1 t0 t1 : Int64} (hfuel : m < fuel) (ha : a.toInt = n) (hb : b.toInt = m)
    {S0 S1 : ℤ} (T0 T1 : ℤ) (hs0 : s0.toInt ≡ S0 [ZMOD 2 ^ 64]) (hs1 : s1.toInt ≡ S1 [ZMOD 2 ^ 64]) :
    (gcdxLoop fuel a b s0 s1 t0 t1).1.toInt = Nat.gcd n m ∧
    (gcdxLoop fuel a b s0 s1 t0 t1).2.1.toInt ≡ (Nat.xgcdAux m S1 T1 n S0 T0).2.1 [ZMOD 2 ^ 64] := by
  induction fuel generalizing n m a b s0 s1 t0 t1 S0 S1 T0 T1 with
  | zero => omega
  | succ fuel ih =>
      rw [gcdxLoop]
      by_cases h0 : b = 0
      · have hm : m = 0 := by
          rw [h0, Int64.toInt_zero] at hb
          omega
        rw [if_pos h0, hm, Nat.gcd_zero_right, Nat.xgcd_zero_left]
        exact ⟨ha, hs0⟩
      · have hpos : 0 < m := by
          have hne := natAbs_pos h0
          omega
        have hmod : (a % b).toInt = (n % m : ℕ) := by rw [Int64.toInt_mod, ha, hb, Int.tmod_eq_emod_of_nonneg (by omega), Int.natCast_emod]
        have hdiv : (a / b).toInt = (n : ℤ) / m := by
          rw [toInt_div_of_pos a (by omega), ha, hb, Int.tdiv_eq_ediv_of_nonneg (by omega)]
        have hnext : (s0 - a / b * s1).toInt ≡ S0 - (n : ℤ) / m * S1 [ZMOD 2 ^ 64] := by
          refine (toInt_modEq_sub _ _).trans (hs0.sub ((toInt_modEq_mul _ _).trans ?_))
          rw [hdiv]
          exact hs1.mul_left _
        have hlt := Nat.mod_lt n hpos
        rw [if_neg h0, Nat.xgcdAux_rec hpos, Nat.gcd_comm, Nat.gcd_rec, Nat.gcd_comm]
        exact ih (by omega) hb hmod _ _ hs1 hnext

-- The coefficient of `a` in Euclid's algorithm
def bezout (n m : ℕ) : ℤ := Nat.gcdB m n

theorem xgcdAux_snd (r r' : ℕ) (s s' u u' t t' : ℤ) : (Nat.xgcdAux r s t r' s' t').2.2 = (Nat.xgcdAux r u t r' u' t').2.2 := by
  induction r using Nat.strong_induction_on generalizing r' s s' u u' t t' with
  | _ r ih =>
      rcases Nat.eq_zero_or_pos r with rfl | hpos
      · rw [Nat.xgcd_zero_left, Nat.xgcd_zero_left]
      · rw [Nat.xgcdAux_rec hpos, Nat.xgcdAux_rec hpos]
        exact ih _ (Nat.mod_lt r' hpos) _ _ _ _ _ _ _

theorem xgcdAux_bezout (n m : ℕ) (T0 T1 : ℤ) : (Nat.xgcdAux m 0 T1 n 1 T0).2.1 = bezout n m := by
  rw [xgcdAux_swap, xgcdAux_snd m n T1 T0 1 0 0 1]
  rfl

theorem bezout_one (n : ℕ) : bezout n 1 = 0 := by
  rw [bezout, Nat.gcdB, Nat.xgcd, Nat.xgcdAux_rec Nat.one_pos, Nat.mod_one, Nat.xgcd_zero_left]

theorem one_bezout {m : ℕ} (hm : 1 < m) : bezout 1 m = 1 := by
  rw [bezout, Nat.gcdB, Nat.xgcd, Nat.xgcdAux_rec (by omega), Nat.mod_eq_of_lt hm, Nat.xgcdAux_rec Nat.one_pos, Nat.mod_one,
    Nat.xgcd_zero_left]
  simp

theorem abs_eq_one_iff {x : Int64} (hx : 0 < x.toInt) : abs x = 1 ↔ x.toInt.natAbs = 1 := by
  have hlt := x.toInt_lt
  have habs := toInt_abs (x := x) (by omega)
  rw [← Int64.toInt_inj, habs]
  exact Nat.cast_inj

theorem gcdx_spec {a b : Int64} (ha : 0 < a.toInt) (hb : 0 < b.toInt) : ∃ g x y, gcdx a b = .ok (g, x, y) ∧
    g.toInt = Nat.gcd a.toInt.natAbs b.toInt.natAbs ∧ x.toInt ≡ bezout a.toInt.natAbs b.toInt.natAbs [ZMOD 2 ^ 64] := by
  have hne : a ≠ 0 := by
    rintro rfl
    exact absurd ha (by decide)
  have hn : a.toInt = a.toInt.natAbs := by omega
  have hm : b.toInt = b.toInt.natAbs := by omega
  rw [gcdx, if_neg fun h => hne h.1]
  split_ifs with hone hone'
  · rw [abs_eq_one_iff hb] at hone
    rw [hone, Nat.gcd_one_right, bezout_one]
    exact ⟨_, _, _, rfl, rfl, Int.ModEq.rfl⟩
  · rw [abs_eq_one_iff ha] at hone'
    rw [abs_eq_one_iff hb] at hone
    rw [hone', Nat.gcd_one_left, one_bezout (by omega)]
    exact ⟨_, _, _, rfl, rfl, by rw [hn, hone']; rfl⟩
  · have hloop : (gcdxLoop (b.toInt.natAbs + 1) a b 1 0 0 1).1.toInt = Nat.gcd a.toInt.natAbs b.toInt.natAbs ∧
        (gcdxLoop (b.toInt.natAbs + 1) a b 1 0 0 1).2.1.toInt ≡
          (Nat.xgcdAux b.toInt.natAbs 0 1 a.toInt.natAbs 1 0).2.1 [ZMOD 2 ^ 64] :=
      gcdxLoop_spec (Nat.lt_succ_self _) hn hm 0 1 (Int.ModEq.refl 1) (Int.ModEq.refl 0)
    rw [xgcdAux_bezout] at hloop
    obtain ⟨hg, hx⟩ := hloop
    have hnonneg : ¬(gcdxLoop (b.toInt.natAbs + 1) a b 1 0 0 1).1 < 0 := by
      rw [Int64.lt_iff_toInt_lt, Int64.toInt_zero]
      omega
    dsimp only
    rw [if_neg fun h => hnonneg h.1, if_neg hnonneg]
    exact ⟨_, _, _, rfl, hg, hx⟩

theorem bezout_spec (n m : ℕ) : bezout n m * n ≡ Nat.gcd n m [ZMOD m] := by
  have h := Nat.gcd_eq_gcd_ab m n
  rw [Nat.gcd_comm] at h
  rw [h, bezout]
  exact Int.modEq_iff_dvd.2 ⟨Nat.gcdA m n, by ring⟩

end Bezout

end Joolia.Gcd
