import Joolia.Base.MultInverses
import Mathlib.Data.Nat.Prime.Basic

namespace Joolia.MultInverses

open IntFuncs TypedRange

section Signed

variable {w : Width} (d : MachineInt (signed w))

open Reciprocal

-- What the constructor makes of the multiplier `M` and the power `p`.
def signedOf (M p : ℕ) : SignedMultiplicativeInverse w :=
  let m := flipsign (signed w) ((signed w).wrap M) d.val
  ⟨d, m, if 0 < d.val ∧ m < 0 then 1 else if d.val < 0 ∧ 0 < m then -1 else 0, p - w.bits⟩

-- One more than the largest number to divide
def topOf : ℕ := 2 ^ (w.bits - 1) + if d.val < 0 then 1 else 0

theorem natAbs_le : d.val.natAbs ≤ 2 ^ (w.bits - 1) := by
  have hlo : -2 ^ (w.bits - 1) ≤ d.val := d.min_le
  have hhi : d.val ≤ 2 ^ (w.bits - 1) - 1 := d.le_max
  have hcast : ((2 ^ (w.bits - 1) : ℕ) : ℤ) = 2 ^ (w.bits - 1) := Nat.cast_pow 2 _
  omega

theorem natAbs_lt_of_pos (hpos : 0 ≤ d.val) : d.val.natAbs < 2 ^ (w.bits - 1) := by
  have hhi : d.val ≤ 2 ^ (w.bits - 1) - 1 := d.le_max
  have hcast : ((2 ^ (w.bits - 1) : ℕ) : ℤ) = 2 ^ (w.bits - 1) := Nat.cast_pow 2 _
  omega

theorem unsigned_abs_eq : ((unsigned w).wrap (flipsign (signed w) d.val d.val)).toNat = d.val.natAbs := by
  have hle := natAbs_le d
  have hW := two_pow_eq w
  have hHolds : Holds (unsigned w) |d.val| := by
    refine ⟨abs_nonneg _, ?_⟩
    change |d.val| ≤ 2 ^ w.bits - 1
    zify at hle hW
    have := half_ge w
    zify at this
    omega
  have habs : (if d.val < 0 then -d.val else d.val) = |d.val| := by
    split_ifs with hneg
    · exact (abs_of_neg hneg).symm
    · exact (abs_of_nonneg (Int.not_lt.1 hneg)).symm
  have hflip := flipsign_modEq (signed w) d.val d.val
  rw [habs] at hflip
  rw [eq_of_modEq (holds_wrap _ _) hHolds ((wrap_modEq (unsigned w) _).trans hflip), Int.abs_eq_natAbs, Int.toNat_natCast]

theorem roundsUp_div {n p : ℕ} (hn : 0 < n) : RoundsUp n p (2 ^ p / n + 1) (n - 2 ^ p % n) := by
  have hlt := Nat.mod_lt (2 ^ p) hn
  have hsplit := Nat.div_add_mod (2 ^ p) n
  refine ⟨?_, Nat.sub_le _ _⟩
  rw [Nat.add_mul, Nat.one_mul, Nat.mul_comm]
  omega

-- The multiplier fits in a word.
theorem signed_multiplier_lt {n c p : ℕ} (hn : 2 ≤ n) (hle : n ≤ 2 ^ (w.bits - 1)) (hc : c ≤ 2 ^ (w.bits - 1))
    (hdvd : c = 2 ^ (w.bits - 1) → n ∣ 2 ^ (w.bits - 1) + 1)
    (hprev : p = w.bits ∨ w.bits < p ∧ 2 ^ (p - 1) ≤ c * (n - 2 ^ (p - 1) % n)) : 2 ^ p / n + 1 < 2 ^ w.bits := by
  have hW := two_pow_eq w
  have hH := half_ge w
  rcases hprev with rfl | ⟨hlt, hprev⟩
  · have hhalf : 2 ^ w.bits / n ≤ 2 ^ w.bits / 2 := Nat.div_le_div_left hn (by omega)
    omega
  · have hround := roundsUp_div (p := p) (by omega : 0 < n)
    have hdouble : 2 ^ p = 2 * 2 ^ (p - 1) := by
      rw [← Nat.pow_succ', Nat.sub_one, Nat.succ_pred_eq_of_pos (by omega)]
    by_cases hfull : c = 2 ^ (w.bits - 1)
    · -- an odd divisor always leaves a remainder
      have hodd : (2 ^ (w.bits - 1) + 1) % 2 = 1 := by
        have heven : 2 ^ (w.bits - 1) = 2 * 2 ^ (w.bits - 2) := by
          have hbits := bits_ge w
          rw [← Nat.pow_succ']
          congr 1
          omega
        omega
      have hrem : ∀ k, 2 ^ k % n ≠ 0 := by
        intro k hzero
        have hcop : Nat.Coprime (2 ^ k) (2 ^ (w.bits - 1) + 1) :=
          Nat.Coprime.pow_left k (Nat.coprime_two_left.2 (Nat.odd_iff.2 hodd))
        have hone := Nat.dvd_gcd (Nat.dvd_of_mod_eq_zero hzero) (hdvd hfull)
        rw [hcop] at hone
        have := Nat.le_of_dvd Nat.one_pos hone
        omega
      have h0 := hrem p
      have h1 := hrem (p - 1)
      have hmul := mul_le_of_prev (e := n - 1) hround.mul_eq (by omega) (by
        rw [hdouble]
        exact Nat.mul_le_mul_left 2 (hprev.trans (Nat.mul_le_mul_left c (by omega))))
      rw [hfull, ← hW] at hmul
      apply Nat.lt_of_mul_lt_mul_right (a := n)
      calc
        (2 ^ p / n + 1) * n ≤ (2 ^ w.bits + 1) * (n - 1) := hmul
        _ = 2 ^ w.bits * (n - 1) + (n - 1) := by rw [Nat.add_mul, Nat.one_mul]
        _ < 2 ^ w.bits * (n - 1) + 2 ^ w.bits := by omega
        _ = 2 ^ w.bits * (n - 1 + 1) := (Nat.mul_add_one ..).symm
        _ = 2 ^ w.bits * n := by rw [Nat.sub_add_cancel (by omega)]
    · have hmul := mul_le_of_prev (e := n) hround.mul_eq (by omega) (by
        rw [hdouble]
        exact Nat.mul_le_mul_left 2 (hprev.trans (Nat.mul_le_mul_left c (by omega))))
      have := Nat.le_of_mul_le_mul_right hmul (by omega)
      omega

theorem signed_new_spec (hd : d.val ≠ 0) : ∃ p,
    SignedMultiplicativeInverse.new w d = .ok (signedOf d (2 ^ p / d.val.natAbs + 1) p) ∧ w.bits ≤ p ∧
    (d.val.natAbs * (topOf d / d.val.natAbs) - 1) * (d.val.natAbs - 2 ^ p % d.val.natAbs) < 2 ^ p ∧
    (2 ≤ d.val.natAbs → 2 ^ p / d.val.natAbs + 1 < 2 ^ w.bits) := by
  have hW := two_pow_eq w
  have hH := half_ge w
  have hpos : 0 < d.val.natAbs := Int.natAbs_pos.2 hd
  have hle := natAbs_le d
  have hltpos := natAbs_lt_of_pos d
  have htop : topOf d = 2 ^ (w.bits - 1) + if d.val < 0 then 1 else 0 := rfl
  have hone : (if d.val < 0 then 1 else 0) ≤ 1 := by split_ifs <;> omega
  have hquot : 1 ≤ topOf d / d.val.natAbs := (Nat.le_div_iff_mul_le hpos).2 (by omega)
  have hbase : d.val.natAbs ≤ d.val.natAbs * (topOf d / d.val.natAbs) := Nat.le_mul_of_pos_right _ hquot
  have hsplit := Nat.div_add_mod (topOf d) d.val.natAbs
  have hmod := Nat.mod_lt (topOf d) hpos
  have hanc : subWord w (subWord w (addWord w (2 ^ (w.bits - 1)) (if d.val < 0 then 1 else 0)) 1)
      (addWord w (2 ^ (w.bits - 1)) (if d.val < 0 then 1 else 0) % d.val.natAbs) =
      d.val.natAbs * (topOf d / d.val.natAbs) - 1 := by
    rw [addWord_eq (by omega), ← htop, subWord_eq (by omega : 1 ≤ topOf d) (by omega), subWord_eq (by omega) (by omega)]
    omega
  have hodd : d.val.natAbs = 2 ^ (w.bits - 1) → (d.val.natAbs * (topOf d / d.val.natAbs) - 1) % 2 = 1 := by
    intro hfull
    have hneg : d.val < 0 := by
      by_contra h
      have := hltpos (Int.not_lt.1 h)
      omega
    have hdiv : topOf d / d.val.natAbs = 1 := by
      apply Nat.div_eq_of_lt_le <;> omega
    have heven : 2 ^ (w.bits - 1) = 2 * 2 ^ (w.bits - 2) := by
      have hbits := bits_ge w
      rw [← Nat.pow_succ']
      congr 1
      omega
    rw [hdiv, hfull]
    omega
  have hfuel : 2 * w.bits ≤ w.bits - 1 + 1 + w.bits := by omega
  obtain ⟨p, hsearch, hp, hp2, hcrit, hprev⟩ := signedSearch_spec hpos hle
    (by omega : 2 ≤ d.val.natAbs * (topOf d / d.val.natAbs) - 1) (by omega) hodd hfuel (by omega)
    (lt_mul_of_one_lt_left (by omega) (by omega)) rfl rfl
    (Nat.mod_eq_of_lt (Nat.lt_of_le_of_lt (Nat.div_le_self _ _) (by omega))).symm rfl
  refine ⟨p, ?_, by omega, hcrit, fun h2 => ?_⟩
  · have hshift : shiftOf ((p : ℤ) - w.bits) = .ok (p - w.bits) := by
      have hwidth : w.bits ≤ 128 := by cases w <;> decide
      rw [shiftOf, if_pos (by omega)]
      congr 1
      omega
    rw [SignedMultiplicativeInverse.new, if_neg hd]
    dsimp only
    rw [unsigned_abs_eq, hanc, hsearch]
    dsimp only
    rw [hshift]
    have hwrap : (signed w).wrap (addWord w (2 ^ p / d.val.natAbs % 2 ^ w.bits) 1 : ℕ) =
        (signed w).wrap ((2 ^ p / d.val.natAbs + 1 : ℕ) : ℤ) := by
      apply wrap_congr
      rw [addWord_mod, Int.natCast_mod]
      exact Int.mod_modEq _ _
    rw [hwrap]
    rfl
  · apply signed_multiplier_lt h2 hle (by omega) ?_ ?_ (c := d.val.natAbs * (topOf d / d.val.natAbs) - 1)
    · intro hfull
      exact ⟨topOf d / d.val.natAbs, by omega⟩
    · rcases hprev with hprev | hprev
      · exact .inl (by omega)
      · by_cases hfirst : p = w.bits
        · exact .inl hfirst
        · exact .inr ⟨by omega, hprev⟩

theorem wrap_word {M : ℤ} (h0 : 0 ≤ M) (h : M < 2 ^ w.bits) :
    (signed w).wrap M = if M < 2 ^ (w.bits - 1) then M else M - 2 ^ w.bits := by
  have hW := two_pow_bits w
  have hmin : (signed w).typemin = -2 ^ (w.bits - 1) := rfl
  have hmax : (signed w).typemax = 2 ^ (w.bits - 1) - 1 := rfl
  split_ifs with hlow
  · exact wrap_of_holds ⟨by omega, by omega⟩
  · rw [← wrap_of_holds (T := signed w) (x := M - 2 ^ w.bits) ⟨by omega, by omega⟩]
    apply wrap_congr
    exact (Int.modEq_iff_dvd.2 ⟨-1, by change M - 2 ^ w.bits - M = 2 ^ w.bits * -1; ring⟩)

-- The multiplier and the correction stand for `M` with the sign of the divisor.
theorem signedOf_multiplier {M : ℕ} (p : ℕ) (hM : 1 ≤ M) (hMW : M < 2 ^ w.bits) (hd : d.val ≠ 0) :
    Holds (signed w) (signedOf d M p).multiplier ∧
      (signedOf d M p).multiplier + (signedOf d M p).addmul * 2 ^ w.bits = if d.val < 0 then -(M : ℤ) else M := by
  have hW := two_pow_bits w
  have hmin : (signed w).typemin = -2 ^ (w.bits - 1) := rfl
  have hmax : (signed w).typemax = 2 ^ (w.bits - 1) - 1 := rfl
  have hMW' : (M : ℤ) < 2 ^ w.bits := by exact_mod_cast hMW
  have hH : (0 : ℤ) < 2 ^ (w.bits - 1) := by positivity
  have hword := wrap_word (Int.natCast_nonneg M) hMW'
  refine ⟨holds_flipsign (holds_wrap _ _) _, ?_⟩
  change flipsign (signed w) ((signed w).wrap M) d.val + (if 0 < d.val ∧ flipsign (signed w) ((signed w).wrap M) d.val < 0 then 1
    else if d.val < 0 ∧ 0 < flipsign (signed w) ((signed w).wrap M) d.val then -1 else 0) * 2 ^ w.bits = _
  rw [hword, flipsign]
  by_cases hneg : d.val < 0
  · rw [if_pos hneg, if_neg (by omega : ¬(0 < d.val ∧ _)), if_pos hneg]
    rcases Int.lt_trichotomy (M : ℤ) (2 ^ (w.bits - 1)) with hlt | heq | hgt
    · rw [if_pos hlt, wrap_of_holds ⟨by omega, by omega⟩, if_neg (by omega)]
      omega
    · have hedge : (signed w).wrap (-(M - 2 ^ w.bits)) = -M := by
        rw [wrap_word (by omega) (by omega), if_neg (by omega)]
        omega
      rw [if_neg (by omega), hedge, if_neg (by omega)]
      omega
    · rw [if_neg (by omega : ¬(M : ℤ) < 2 ^ (w.bits - 1)), wrap_of_holds ⟨by omega, by omega⟩, if_pos ⟨hneg, by omega⟩]
      omega
  · have hpos : 0 < d.val := by omega
    rw [if_neg hneg, if_neg (by omega : ¬(d.val < 0 ∧ _)), if_neg hneg]
    split_ifs with h1 h2 h2 <;> omega

-- Up to the rounding of the last bits the quotient is the product with `M / 2 ^ p`.
theorem signedOf_div {M p : ℕ} (hM : 1 ≤ M) (hMW : M < 2 ^ w.bits) (hp : w.bits ≤ p) (hd : d.val ≠ 0)
    (habs : flipsign (signed w) d.val d.val ≠ 1) {a : ℤ} (ha : Holds (signed w) a) :
    (signedOf d M p).div a = (signed w).wrap ((if a * (if d.val < 0 then -(M : ℤ) else M) < 0 then 1 else 0) +
      a * (if d.val < 0 then -(M : ℤ) else M) / 2 ^ p) := by
  obtain ⟨hholds, hsum⟩ := signedOf_multiplier d p hM hMW hd
  have hW := two_pow_bits w
  have hpos : (0 : ℤ) < 2 ^ w.bits := by positivity
  generalize hMs : (if d.val < 0 then -(M : ℤ) else M) = Ms at *
  have hbound : |Ms| < 2 ^ w.bits := by
    rw [← hMs]
    split_ifs
    · rw [abs_neg, Nat.abs_cast]
      exact_mod_cast hMW
    · rw [Nat.abs_cast]
      exact_mod_cast hMW
  have hx : (signed w).wrap (mulHi (signed w) a (signedOf d M p).multiplier +
      (signed w).wrap (a * (signedOf d M p).addmul)) = a * Ms / 2 ^ w.bits := by
    have hmod : mulHi (signed w) a (signedOf d M p).multiplier + (signed w).wrap (a * (signedOf d M p).addmul) ≡
        a * Ms / 2 ^ w.bits [ZMOD 2 ^ w.bits] := by
      have hadd := (mulHi_modEq ha hholds).add (wrap_modEq (signed w) (a * (signedOf d M p).addmul))
      refine hadd.trans ?_
      rw [← hsum, Int.mul_add, ← Int.mul_assoc, Int.add_mul_ediv_right _ _ (by omega)]
      exact Int.ModEq.rfl
    rw [wrap_congr (T := signed w) hmod]
    apply wrap_of_holds
    have hlo : -2 ^ (w.bits - 1) ≤ a := ha.1
    have hhi : a ≤ 2 ^ (w.bits - 1) - 1 := ha.2
    have habs' : |a * Ms| < 2 ^ (w.bits - 1) * 2 ^ w.bits := by
      rw [abs_mul]
      have hle : |a| ≤ 2 ^ (w.bits - 1) := abs_le.2 ⟨by omega, by omega⟩
      calc
        |a| * |Ms| ≤ 2 ^ (w.bits - 1) * |Ms| := Int.mul_le_mul_of_nonneg_right hle (abs_nonneg _)
        _ < 2 ^ (w.bits - 1) * 2 ^ w.bits := Int.mul_lt_mul_of_pos_left hbound (by positivity)
    obtain ⟨hlow, hhigh⟩ := abs_lt.1 habs'
    constructor
    · change -2 ^ (w.bits - 1) ≤ _
      apply (Int.le_ediv_iff_mul_le hpos).2
      rw [Int.neg_mul]
      omega
    · change _ ≤ 2 ^ (w.bits - 1) - 1
      have := (Int.ediv_lt_iff_lt_mul hpos).2 hhigh
      omega
  have hshift : a * Ms / 2 ^ w.bits / 2 ^ (p - w.bits) = a * Ms / 2 ^ p := by
    rw [Int.ediv_ediv_of_nonneg (by omega), ← pow_add, Nat.add_sub_of_le hp]
  have hsign : a * Ms / 2 ^ w.bits < 0 ↔ a * Ms < 0 := by
    rw [← Int.not_le, ← Int.not_le, Int.ediv_nonneg_iff_of_pos hpos]
  rw [SignedMultiplicativeInverse.div, if_neg (show ¬flipsign (signed w) (signedOf d M p).divisor.val (signedOf d M p).divisor.val = 1 from habs), hx,
    if_congr hsign rfl rfl]
  change (signed w).wrap (_ + _ / 2 ^ (p - w.bits)) = _
  rw [hshift]

-- The divisors of absolute value one are recognised.
theorem flipsign_eq_one_iff : flipsign (signed w) d.val d.val = 1 ↔ d.val.natAbs = 1 := by
  have habs := unsigned_abs_eq d
  constructor
  · intro h
    rw [h, wrap_of_holds (holds_one _)] at habs
    exact habs.symm
  · intro h
    rcases Int.natAbs_eq d.val with hd | hd
    · rw [hd, h, flipsign, if_neg (by decide)]
      rfl
    · rw [hd, h, flipsign, if_pos (by decide), wrap_of_holds (by rw [Int.neg_neg]; exact holds_one _)]
      rfl

variable {n M p δ t ad : ℕ}

theorem quotient_nonneg (h : RoundsUp ad p M δ) (had : 0 < ad) (hn : n * δ < (ad - n % ad) * 2 ^ p) :
    (n : ℤ) * M / 2 ^ p = (n / ad : ℕ) := by
  rw [← h.mul_div_eq had hn]
  push_cast
  rfl

theorem quotient_neg (h : RoundsUp ad p M δ) (had : 0 < ad) (hδ : 0 < δ) (hpos : 0 < n)
    (hn : n * δ ≤ (ad - n % ad) * 2 ^ p) : 1 + -((n : ℤ) * M) / 2 ^ p = -((n / ad : ℕ) : ℤ) := by
  have hpow : 0 < 2 ^ p := Nat.pow_pos (by omega)
  have hM : 0 < M := by
    by_contra h0
    have hmul := h.mul_eq
    rw [Nat.eq_zero_of_not_pos h0, Nat.zero_mul] at hmul
    omega
  have hprod : 0 < n * M := Nat.mul_pos hpos hM
  have hsplit := Nat.div_add_mod (n * M - 1) (2 ^ p)
  have hmod := Nat.mod_lt (n * M - 1) hpow
  have hcast : (n : ℤ) * M = 2 ^ p * ((n * M - 1) / 2 ^ p : ℕ) + ((n * M - 1) % 2 ^ p : ℕ) + 1 := by
    have hnat : n * M = 2 ^ p * ((n * M - 1) / 2 ^ p) + (n * M - 1) % 2 ^ p + 1 := by omega
    exact_mod_cast hnat
  have hdiv : -((n : ℤ) * M) / 2 ^ p = -((n * M - 1) / 2 ^ p : ℕ) - 1 := by
    have hpow' : ((2 ^ p : ℕ) : ℤ) = 2 ^ p := Nat.cast_pow 2 p
    apply (Int.ediv_emod_unique (r := 2 ^ p - 1 - ((n * M - 1) % 2 ^ p : ℕ)) (by omega)).2 ⟨?_, by omega, by omega⟩ |>.1
    rw [hcast]
    ring
  rw [hdiv, h.pred_div_eq had hδ hpos hn]
  omega

theorem tdiv_natAbs (a d : ℤ) :
    a.tdiv d = if (a < 0 ↔ d < 0) then ((a.natAbs / d.natAbs : ℕ) : ℤ) else -((a.natAbs / d.natAbs : ℕ) : ℤ) := by
  have hcast : |a|.tdiv |d| = ((a.natAbs / d.natAbs : ℕ) : ℤ) := by
    rw [Int.abs_eq_natAbs, Int.abs_eq_natAbs]
    rfl
  rw [tdiv_eq_abs, tdiv_eq_of_abs |a|, hcast]
  split_ifs <;> omega

-- The quotient by an inverse is the truncated one, in the word.
theorem signed_div_eq (hd : d.val ≠ 0) : ∃ b, SignedMultiplicativeInverse.new w d = .ok b ∧ b.divisor = d ∧
    ∀ a, Holds (signed w) a → b.div a = (signed w).wrap (a.tdiv d.val) := by
  obtain ⟨p, hnew, hp, hcrit, hfits⟩ := signed_new_spec d hd
  refine ⟨_, hnew, rfl, fun a ha => ?_⟩
  have had : 0 < d.val.natAbs := Int.natAbs_pos.2 hd
  by_cases hone : d.val.natAbs = 1
  · change (if flipsign (signed w) d.val d.val = 1 then (signed w).wrap (a * d.val) else _) = _
    rw [if_pos ((flipsign_eq_one_iff d).2 hone)]
    congr 1
    rcases Int.natAbs_eq d.val with h | h
    · rw [h, hone, Nat.cast_one, Int.mul_one, Int.tdiv_one]
    · rw [h, hone, Nat.cast_one, Int.tdiv_neg, Int.tdiv_one, Int.mul_neg, Int.mul_one]
  · rw [signedOf_div d (Nat.le_add_left 1 _) (hfits (by omega)) hp hd (fun h => hone ((flipsign_eq_one_iff d).1 h)) ha, tdiv_natAbs]
    congr 1
    have hround := roundsUp_div (p := p) had
    have hmod := Nat.mod_lt (2 ^ p) had
    have hδ : 0 < d.val.natAbs - 2 ^ p % d.val.natAbs := by omega
    have hle : a.natAbs ≤ 2 ^ (w.bits - 1) := natAbs_le ⟨a, ha.1, ha.2⟩
    have hltpos : 0 ≤ a → a.natAbs < 2 ^ (w.bits - 1) := natAbs_lt_of_pos ⟨a, ha.1, ha.2⟩
    have hdle := natAbs_le d
    have htop : topOf d = 2 ^ (w.bits - 1) + if d.val < 0 then 1 else 0 := rfl
    have hsplit := Nat.div_add_mod (topOf d) d.val.natAbs
    have hmod' := Nat.mod_lt (topOf d) had
    have hpos : 0 ≤ (a.natAbs : ℤ) * ((2 ^ p / d.val.natAbs + 1 : ℕ) : ℤ) := by positivity
    by_cases hsame : a < 0 ↔ d.val < 0
    · -- the product is not negative
      have hprod : a * (if d.val < 0 then -((2 ^ p / d.val.natAbs + 1 : ℕ) : ℤ) else (2 ^ p / d.val.natAbs + 1 : ℕ)) =
          a.natAbs * (2 ^ p / d.val.natAbs + 1 : ℕ) := by
        split_ifs with hneg
        · obtain ha' : a = -a.natAbs := by omega
          rw [ha', Int.natAbs_neg, Int.natAbs_natCast, Int.neg_mul_neg]
        · obtain ha' : a = a.natAbs := by omega
          rw [← ha']
      have hsmall : a.natAbs < topOf d := by
        rw [htop]
        split_ifs with hneg
        · omega
        · exact hltpos (by omega)
      rw [hprod, if_neg (Int.not_lt.2 hpos), if_pos hsame, Int.zero_add]
      exact quotient_nonneg hround had (error_lt hround.error_le hcrit had (by omega) (by omega))
    · have hprod : a * (if d.val < 0 then -((2 ^ p / d.val.natAbs + 1 : ℕ) : ℤ) else (2 ^ p / d.val.natAbs + 1 : ℕ)) =
          -(a.natAbs * (2 ^ p / d.val.natAbs + 1 : ℕ)) := by
        split_ifs with hneg
        · obtain ha' : a = a.natAbs := by omega
          rw [← ha', Int.mul_neg]
        · obtain ha' : a = -a.natAbs := by omega
          rw [ha', Int.natAbs_neg, Int.natAbs_natCast, Int.neg_mul]
      rw [hprod, if_neg hsame]
      rcases Nat.eq_zero_or_pos a.natAbs with hzero | hn
      · rw [hzero, Nat.cast_zero, Int.zero_mul, Int.neg_zero, if_neg (by decide), Int.zero_ediv, Nat.zero_div]
        rfl
      · have hneg : -((a.natAbs : ℤ) * (2 ^ p / d.val.natAbs + 1 : ℕ)) < 0 := by
          have : 0 < (a.natAbs : ℤ) * ((2 ^ p / d.val.natAbs + 1 : ℕ) : ℤ) := by positivity
          omega
        rw [if_pos hneg]
        apply quotient_neg hround had hδ hn
        by_cases hdneg : d.val < 0
        · have hsmall := hltpos (by omega)
          rw [if_pos hdneg] at htop
          exact (error_lt hround.error_le hcrit had (by omega) (by omega)).le
        · rw [if_neg hdneg, Nat.add_zero] at htop
          rw [htop] at hcrit
          exact hround.two_pow_error_le (by omega) had hdle hcrit hle

end Signed

section Unsigned

variable {w : Width} (d : MachineInt (unsigned w))

open Reciprocal

-- The multiplier for the power `p`, of which a word is kept.
def multiplierOf (n p : ℕ) : ℕ := (2 ^ p - 1) / n + 1

theorem roundsUp_multiplierOf {n p : ℕ} (hn : 0 < n) :
    RoundsUp n p (multiplierOf n p) (n - 1 - (2 ^ p - 1) % n) := by
  have hlt := Nat.mod_lt (2 ^ p - 1) hn
  have hsplit := Nat.div_add_mod (2 ^ p - 1) n
  have hpos : 0 < 2 ^ p := Nat.pow_pos (by omega)
  refine ⟨?_, by omega⟩
  rw [multiplierOf, Nat.add_mul, Nat.one_mul, Nat.mul_comm]
  omega

theorem toNat_lt : d.val.toNat < 2 ^ w.bits := by
  have hlo : 0 ≤ d.val := d.min_le
  have hhi : d.val ≤ 2 ^ w.bits - 1 := d.le_max
  have hcast : ((2 ^ w.bits : ℕ) : ℤ) = 2 ^ w.bits := Nat.cast_pow 2 _
  omega

-- The largest multiple of the divisor in the word is in its upper half.
theorem last_multiple_ge {n : ℕ} (hn : 0 < n) (hlt : n < 2 ^ w.bits) :
    2 ^ (w.bits - 1) ≤ n * ((2 ^ w.bits - 1) / n) ∧
      (n * ((2 ^ w.bits - 1) / n) = 2 ^ (w.bits - 1) → n ∣ 2 ^ (w.bits - 1)) := by
  have hW := two_pow_eq w
  have hsplit := Nat.div_add_mod (2 ^ w.bits - 1) n
  have hmod := Nat.mod_lt (2 ^ w.bits - 1) hn
  have hquot : 1 ≤ (2 ^ w.bits - 1) / n := (Nat.le_div_iff_mul_le hn).2 (by omega)
  have hbase : n ≤ n * ((2 ^ w.bits - 1) / n) := Nat.le_mul_of_pos_right n hquot
  exact ⟨by omega, fun h => ⟨_, h.symm⟩⟩

-- The number tested is at least the critical one, unless there is no error.
theorem critical_of_tested {n p : ℕ} (hn : 0 < n) (hlt : n < 2 ^ w.bits) (hp : w.bits ≤ p) (hp2 : p ≤ 2 * w.bits)
    (htested : p < 2 * w.bits → n * ((2 ^ w.bits - 1) / n) * (n - 1 - (2 ^ p - 1) % n) < 2 ^ p) :
    (n * (2 ^ w.bits / n) - 1) * (n - 1 - (2 ^ p - 1) % n) < 2 ^ p := by
  have hpos : 0 < 2 ^ w.bits := Nat.pow_pos (by omega)
  by_cases hend : p < 2 * w.bits
  · by_cases hdvd : n ∣ 2 ^ w.bits
    · rw [error_eq_zero hn hdvd hp, Nat.mul_zero]
      exact Nat.pow_pos (by omega)
    · have hsame : 2 ^ w.bits / n = (2 ^ w.bits - 1) / n := by
        have hsucc := @Nat.succ_div (2 ^ w.bits - 1) n
        rw [Nat.sub_add_cancel hpos, if_neg hdvd] at hsucc
        exact hsucc
      rw [hsame]
      exact Nat.lt_of_le_of_lt (Nat.mul_le_mul_right _ (Nat.sub_le _ _)) (htested hend)
  · obtain rfl : p = 2 * w.bits := by omega
    have hle := Nat.mul_div_le (2 ^ w.bits) n
    calc
      (n * (2 ^ w.bits / n) - 1) * (n - 1 - (2 ^ (2 * w.bits) - 1) % n) ≤ (2 ^ w.bits - 1) * 2 ^ w.bits :=
        Nat.mul_le_mul (by omega) (by omega)
      _ < 2 ^ w.bits * 2 ^ w.bits := Nat.mul_lt_mul_of_pos_right (by omega) hpos
      _ = 2 ^ (2 * w.bits) := by rw [← Nat.pow_add, Nat.two_mul]

-- The multiplier has one bit more than a word at most.
theorem unsigned_multiplier_lt {n nc p : ℕ} (hn : 0 < n) (hnc : nc < 2 ^ w.bits)
    (hprev : p = w.bits ∨ w.bits < p ∧ 2 ^ (p - 1) ≤ nc * (n - 1 - (2 ^ (p - 1) - 1) % n)) :
    multiplierOf n p < 2 * 2 ^ w.bits := by
  rcases hprev with rfl | ⟨hlt, hprev⟩
  · have hle := Nat.div_le_self (2 ^ w.bits - 1) n
    have hH := half_ge w
    have hW := two_pow_eq w
    rw [multiplierOf]
    omega
  · have hdouble : 2 ^ p = 2 * 2 ^ (p - 1) := by
      rw [← Nat.pow_succ', Nat.sub_one, Nat.succ_pred_eq_of_pos (by omega)]
    have hmul := mul_le_of_prev (e := n - 1) (roundsUp_multiplierOf (p := p) hn).mul_eq (by omega) (by
      rw [hdouble]
      exact Nat.mul_le_mul_left 2 (hprev.trans (Nat.mul_le_mul_left nc (by omega))))
    apply Nat.lt_of_mul_lt_mul_right (a := n)
    calc
      multiplierOf n p * n ≤ (2 * nc + 1) * (n - 1) := hmul
      _ ≤ 2 * 2 ^ w.bits * (n - 1) := Nat.mul_le_mul_right _ (by omega)
      _ < 2 * 2 ^ w.bits * n := Nat.mul_lt_mul_of_pos_left (by omega) (by have := half_ge w; have := two_pow_eq w; omega)

theorem unsigned_new_spec (hd : d.val ≠ 0) : ∃ p, let n := d.val.toNat
    UnsignedMultiplicativeInverse.new w d = .ok ⟨d, multiplierOf n p % 2 ^ w.bits, decide (2 ^ w.bits ≤ multiplierOf n p),
      (((p : ℤ) - w.bits - if decide (2 ^ w.bits ≤ multiplierOf n p) then 1 else 0) % 256).toNat⟩ ∧
    w.bits ≤ p ∧ p ≤ 2 * w.bits ∧ (n * (2 ^ w.bits / n) - 1) * (n - 1 - (2 ^ p - 1) % n) < 2 ^ p ∧
    multiplierOf n p < 2 * 2 ^ w.bits := by
  have hlo : 0 ≤ d.val := d.min_le
  have hn : 0 < d.val.toNat := by omega
  have hlt := toNat_lt d
  have hW := two_pow_eq w
  have hH := half_ge w
  have hallones : subWord w 0 1 = 2 ^ w.bits - 1 := by
    rw [subWord, Nat.zero_add, Nat.mod_eq_of_lt (by omega)]
  have hsplit := Nat.div_add_mod (2 ^ w.bits - 1) d.val.toNat
  have hmod := Nat.mod_lt (2 ^ w.bits - 1) hn
  have hnc : subWord w (2 ^ w.bits - 1) (subWord w (2 ^ w.bits - 1) d.val.toNat % d.val.toNat) =
      d.val.toNat * ((2 ^ w.bits - 1) / d.val.toNat) := by
    rw [subWord_eq (by omega : d.val.toNat ≤ 2 ^ w.bits - 1) (by omega), ← Nat.mod_eq_sub_mod (by omega),
      subWord_eq (by omega) (by omega)]
    omega
  obtain ⟨hge, hdvd⟩ := last_multiple_ge hn hlt
  have hle := Nat.mul_div_le (2 ^ w.bits - 1) d.val.toNat
  have hbits := bits_ge w
  have hsmall : (2 ^ (w.bits - 1) - 1) / d.val.toNat ≤ 2 ^ (w.bits - 1) - 1 := Nat.div_le_self _ _
  have hsmall' : 2 ^ (w.bits - 1) / (d.val.toNat * ((2 ^ w.bits - 1) / d.val.toNat)) ≤ 2 ^ (w.bits - 1) := Nat.div_le_self _ _
  have hfuel : 2 * w.bits ≤ w.bits - 1 + (w.bits + 1) := by omega
  obtain ⟨p, hsearch, hp, hp2, htested, hprev⟩ := unsignedSearch_spec hn hlt hge (by omega) hdvd hfuel (by omega) (by omega)
    (.inl (by omega)) (Nat.mod_eq_of_lt (Nat.lt_of_le_of_lt hsmall' (by omega))).symm rfl
    (Nat.mod_eq_of_lt (Nat.lt_of_le_of_lt hsmall (by omega))).symm rfl (decide_eq_false (by omega)).symm
  refine ⟨p, ?_, by omega, hp2, critical_of_tested hn hlt (by omega) hp2 htested,
    unsigned_multiplier_lt hn (by omega : d.val.toNat * ((2 ^ w.bits - 1) / d.val.toNat) < 2 ^ w.bits) ?_⟩
  · rw [UnsignedMultiplicativeInverse.new, if_neg hd]
    dsimp only
    rw [hallones, hnc, hsearch]
    dsimp only
    rw [addWord_mod]
    rfl
  · rcases hprev with hprev | hprev
    · exact .inl (by omega)
    · by_cases hfirst : p = w.bits
      · exact .inl hfirst
      · exact .inr ⟨by omega, hprev⟩

theorem holds_mulHi {a b : ℤ} (ha : Holds (unsigned w) a) (hb : Holds (unsigned w) b) :
    Holds (unsigned w) (mulHi (unsigned w) a b) := by
  rw [mulHi]
  by_cases hwide : (unsigned w).width = .w128
  · obtain rfl : w = .w128 := hwide
    have ha0 : 0 ≤ a := ha.1
    have ha1 : a ≤ 2 ^ 128 - 1 := ha.2
    have hb0 : 0 ≤ b := hb.1
    have hb1 : b ≤ 2 ^ 128 - 1 := hb.2
    rw [if_pos (show (unsigned .w128).width = .w128 from rfl)]
    dsimp only
    rw [if_neg (show ¬(unsigned .w128).signed = true from Bool.false_ne_true), wrap_of_holds ha, wrap_of_holds hb,
      mulHiUInt128_eq (by omega) (by omega)]
    have hlt : a.toNat * b.toNat / 2 ^ 128 < 2 ^ 128 := by
      apply Nat.div_lt_of_lt_mul
      exact Nat.mul_lt_mul'' (by omega) (by omega)
    refine ⟨Int.natCast_nonneg _, ?_⟩
    change _ ≤ (2 : ℤ) ^ 128 - 1
    omega
  · rw [if_neg hwide]
    exact holds_wrap _ _

theorem holds_natCast {n : ℕ} (h : n < 2 ^ w.bits) : Holds (unsigned w) n := by
  have hcast : ((2 ^ w.bits : ℕ) : ℤ) = 2 ^ w.bits := Nat.cast_pow 2 _
  refine ⟨Int.natCast_nonneg n, ?_⟩
  change (n : ℤ) ≤ 2 ^ w.bits - 1
  omega

theorem mulHi_unsigned {n m : ℕ} (hn : n < 2 ^ w.bits) (hm : m < 2 ^ w.bits) :
    mulHi (unsigned w) n m = (n * m / 2 ^ w.bits : ℕ) := by
  apply eq_of_modEq (holds_mulHi (holds_natCast hn) (holds_natCast hm)) (holds_natCast (Nat.div_lt_of_lt_mul (Nat.mul_lt_mul'' hn hm)))
  have h := mulHi_modEq (holds_natCast hn) (holds_natCast hm)
  push_cast
  exact h

-- The word above the multiplier is added in two halves.
theorem half_sum {n M W : ℕ} (hW : 0 < W) (hle : W ≤ M) (hM : M < 2 * W) :
    (n - n * (M - W) / W) / 2 + n * (M - W) / W = n * M / W / 2 ∧ n * (M - W) / W ≤ n ∧ n * M / W / 2 ≤ n := by
  obtain ⟨m, rfl⟩ : ∃ m, M = m + W := ⟨M - W, by omega⟩
  have hx : n * m / W ≤ n := by
    apply Nat.div_le_of_le_mul
    rw [Nat.mul_comm W]
    exact Nat.mul_le_mul_left n (by omega)
  have hsum : n * (m + W) / W = n * m / W + n := by rw [Nat.mul_add, Nat.add_mul_div_right _ _ hW]
  rw [hsum, Nat.add_sub_cancel]
  omega

theorem unsigned_div_eq (hd : d.val ≠ 0) : ∃ b, UnsignedMultiplicativeInverse.new w d = .ok b ∧ b.divisor = d ∧
    ∀ a, Holds (unsigned w) a → b.div a = a.tdiv d.val := by
  obtain ⟨p, hnew, hp, hp2, hcrit, hfits⟩ := unsigned_new_spec d hd
  refine ⟨_, hnew, rfl, fun a ha => ?_⟩
  have hdlo : 0 ≤ d.val := d.min_le
  have hlo : 0 ≤ a := ha.1
  have hhi : a ≤ 2 ^ w.bits - 1 := ha.2
  have hcast : ((2 ^ w.bits : ℕ) : ℤ) = 2 ^ w.bits := Nat.cast_pow 2 _
  obtain ⟨n, rfl⟩ : ∃ n : ℕ, a = n := ⟨a.toNat, by omega⟩
  have hn : n < 2 ^ w.bits := by omega
  have hpos : 0 < d.val.toNat := by omega
  have hquot : (n : ℤ).tdiv d.val = (n / d.val.toNat : ℕ) := by
    conv_lhs => rw [← Int.toNat_of_nonneg hdlo]
    rfl
  rw [UnsignedMultiplicativeInverse.div]
  dsimp only
  by_cases hone : d.val = 1
  · rw [if_pos hone, hone, Int.tdiv_one]
  · have hW := two_pow_eq w
    have hmod := Nat.mod_lt (2 ^ w.bits) hpos
    have hsplit := Nat.div_add_mod (2 ^ w.bits) d.val.toNat
    have hround := roundsUp_multiplierOf (p := p) hpos
    have hexact : n * multiplierOf d.val.toNat p / 2 ^ p = n / d.val.toNat :=
      hround.mul_div_eq hpos (error_lt hround.error_le hcrit hpos (toNat_lt d).le (by omega))
    have hwidth : w.bits ≤ 128 := by cases w <;> decide
    rw [if_neg hone, hquot, ← hexact]
    by_cases hcarry : 2 ^ w.bits ≤ multiplierOf d.val.toNat p
    · obtain ⟨hhalf, hxle, hle⟩ := half_sum (n := n) (Nat.pow_pos (by omega)) hcarry hfits
      have hlow : multiplierOf d.val.toNat p % 2 ^ w.bits = multiplierOf d.val.toNat p - 2 ^ w.bits := by
        rw [Nat.mod_eq_sub_mod hcarry, Nat.mod_eq_of_lt (by omega)]
      have hlater : w.bits < p := by
        by_contra hfirst
        obtain rfl : p = w.bits := by omega
        have hhalf : (2 ^ w.bits - 1) / d.val.toNat ≤ (2 ^ w.bits - 1) / 2 := Nat.div_le_div_left (by omega) (by omega)
        rw [multiplierOf] at hcarry
        omega
      have hshift : (((p : ℤ) - w.bits - if decide (2 ^ w.bits ≤ multiplierOf d.val.toNat p) then 1 else 0) % 256).toNat =
          p - w.bits - 1 := by
        rw [if_pos (decide_eq_true hcarry)]
        omega
      rw [if_pos (decide_eq_true hcarry), hshift, hlow, mulHi_unsigned hn (by omega)]
      have hsub : (n : ℤ) - (n * (multiplierOf d.val.toNat p - 2 ^ w.bits) / 2 ^ w.bits : ℕ) =
          (n - n * (multiplierOf d.val.toNat p - 2 ^ w.bits) / 2 ^ w.bits : ℕ) := by omega
      rw [hsub, wrap_of_holds (holds_natCast (Nat.lt_of_le_of_lt (Nat.sub_le _ _) hn))]
      have hsum : ((n - n * (multiplierOf d.val.toNat p - 2 ^ w.bits) / 2 ^ w.bits : ℕ) : ℤ) / 2 +
          (n * (multiplierOf d.val.toNat p - 2 ^ w.bits) / 2 ^ w.bits : ℕ) =
          (n * multiplierOf d.val.toNat p / 2 ^ w.bits / 2 : ℕ) := by
        rw [← hhalf]
        push_cast
        rfl
      rw [hsum, wrap_of_holds (holds_natCast (Nat.lt_of_le_of_lt hle hn))]
      have hpow : 2 ^ w.bits * 2 * 2 ^ (p - w.bits - 1) = 2 ^ p := by
        rw [← Nat.pow_succ, ← Nat.pow_add]
        congr 1
        omega
      rw [← hpow, ← Nat.div_div_eq_div_mul, ← Nat.div_div_eq_div_mul]
      push_cast
      rfl
    · have hshift : (((p : ℤ) - w.bits - if decide (2 ^ w.bits ≤ multiplierOf d.val.toNat p) then 1 else 0) % 256).toNat =
          p - w.bits := by
        rw [if_neg (by simpa using hcarry)]
        omega
      have hpow : 2 ^ w.bits * 2 ^ (p - w.bits) = 2 ^ p := by rw [← Nat.pow_add, Nat.add_sub_of_le hp]
      rw [if_neg (by simpa using hcarry), hshift, Nat.mod_eq_of_lt (by omega), mulHi_unsigned hn (by omega), ← hpow,
        ← Nat.div_div_eq_div_mul]
      push_cast
      rfl

end Unsigned

section Exact

variable {w : Width}

-- The remainder comes out right whatever the quotient lost.
theorem wrap_remainder {T : IntType} {a : ℤ} (ha : Holds T a) (d : ℤ) {q : ℤ} (hq : q ≡ a.tdiv d [ZMOD 2 ^ T.width.bits]) :
    T.wrap (a - T.wrap (q * d)) = a.tmod d := by
  rw [← wrap_of_holds (holds_tmod ha d)]
  apply wrap_congr
  have hproduct := (wrap_modEq T (q * d)).trans (hq.mul_right d)
  have hsub := (Int.ModEq.refl a).sub hproduct
  rwa [Int.mul_comm (a.tdiv d), ← Int.tmod_def] at hsub

theorem fmod_of_tmod (a d : ℤ) (hd : d ≠ 0) :
    a.fmod d = if a.tmod d = 0 ∨ decide (a.tmod d < 0) = decide (d < 0) then a.tmod d else a.tmod d + d := by
  have hsum := Int.tdiv_mul_add_tmod a d
  have hsign : a.tmod d ≠ 0 → (a < 0 ↔ a.tmod d < 0) := by
    intro hne
    constructor
    · intro hneg
      have := Int.tmod_nonneg d (by omega : 0 ≤ -a)
      rw [Int.neg_tmod] at this
      omega
    · intro hneg
      by_contra hpos
      have := Int.tmod_nonneg d (Int.not_lt.1 hpos)
      omega
  rw [fmod_eq_tmod_add a d hd]
  simp only [Bool.and_eq_true, bne_iff_ne, ne_eq, decide_eq_decide]
  split_ifs with hadd hkeep hkeep
  · rcases hkeep with hzero | hiff
    · omega
    · have hne : a.tmod d ≠ 0 := by omega
      exact absurd ((hsign hne).trans hiff) hadd.1
  · rfl
  · exact Int.add_zero _
  · obtain ⟨hne, hiff⟩ := not_or.1 hkeep
    exact absurd ⟨fun h => hiff ((hsign hne).symm.trans h), fun h => hne (by omega)⟩ hadd

theorem unsigned_spec {d : MachineInt (unsigned w)} (hd : d.val ≠ 0) : ∃ b, UnsignedMultiplicativeInverse.new w d = .ok b ∧
    ∀ a, Holds (unsigned w) a → b.div a = a.tdiv d.val ∧ b.rem a = a.tmod d.val ∧ b.mod a = a.fmod d.val := by
  obtain ⟨b, hnew, hdivisor, hdiv⟩ := unsigned_div_eq d hd
  refine ⟨b, hnew, fun a ha => ?_⟩
  have hquot := hdiv a ha
  have hrem : b.rem a = a.tmod d.val := by
    rw [UnsignedMultiplicativeInverse.rem, hquot, hdivisor]
    exact wrap_remainder ha d.val Int.ModEq.rfl
  refine ⟨hquot, hrem, ?_⟩
  have ha0 : 0 ≤ a := ha.1
  have hd0 : 0 ≤ d.val := d.min_le
  rw [UnsignedMultiplicativeInverse.mod, hrem, Int.fmod_eq_tmod_of_nonneg ha0 hd0]

-- Division by a precomputed inverse is division.
theorem multiplicativeInverse_exact (w : Width) :
    (∀ d : MachineInt (signed w), d.val ≠ 0 → ∃ b, SignedMultiplicativeInverse.new w d = .ok b ∧
      ∀ a : MachineInt (signed w), b.div a.val = (signed w).wrap (a.val.tdiv d.val) ∧ b.rem a.val = a.val.tmod d.val ∧
        b.divrem a.val = ((signed w).wrap (a.val.tdiv d.val), a.val.tmod d.val) ∧ b.mod a.val = a.val.fmod d.val) ∧
    (∀ d : MachineInt (unsigned w), d.val ≠ 0 → ∃ b, UnsignedMultiplicativeInverse.new w d = .ok b ∧
      ∀ a : MachineInt (unsigned w), b.div a.val = a.val.tdiv d.val ∧ b.rem a.val = a.val.tmod d.val ∧
        b.divrem a.val = (a.val.tdiv d.val, a.val.tmod d.val) ∧ b.mod a.val = a.val.fmod d.val) := by
  constructor
  · intro d hd
    obtain ⟨b, hnew, hdivisor, hdiv⟩ := signed_div_eq d hd
    refine ⟨b, hnew, fun a => ?_⟩
    have ha := holds_val a
    have hquot := hdiv a.val ha
    have hrem : b.rem a.val = a.val.tmod d.val := by
      rw [SignedMultiplicativeInverse.rem, hquot, hdivisor]
      exact wrap_remainder ha d.val (wrap_modEq _ _)
    refine ⟨hquot, hrem, ?_, ?_⟩
    · rw [SignedMultiplicativeInverse.divrem, ← hrem, ← hquot]
      rfl
    · rw [SignedMultiplicativeInverse.mod, hrem, hdivisor, fmod_of_tmod _ _ hd]
      split_ifs with hkeep
      · rfl
      · apply wrap_of_holds
        have hfmod := holds_fmod (holds_val d) a.val hd
        rwa [fmod_of_tmod _ _ hd, if_neg hkeep] at hfmod
  · intro d hd
    obtain ⟨b, hnew, hall⟩ := unsigned_spec hd
    refine ⟨b, hnew, fun a => ?_⟩
    obtain ⟨hquot, hrem, hmod⟩ := hall a.val (holds_val a)
    refine ⟨hquot, hrem, ?_, hmod⟩
    rw [UnsignedMultiplicativeInverse.divrem, ← hrem, ← hquot]
    rfl

-- typemin of Int8 by -1 and by 7
theorem multiplicativeInverse_exact_bytes :
    (∃ b, SignedMultiplicativeInverse.new .w8 ⟨-1, by decide, by decide⟩ = .ok b ∧ b.div (-128) = -128) ∧
      ∃ b, SignedMultiplicativeInverse.new .w8 ⟨7, by decide, by decide⟩ = .ok b ∧ b.mod (-128) = 5 := by
  obtain ⟨b, hb, hall⟩ := (multiplicativeInverse_exact .w8).1 ⟨-1, by decide, by decide⟩ (by decide)
  obtain ⟨b', hb', hall'⟩ := (multiplicativeInverse_exact .w8).1 ⟨7, by decide, by decide⟩ (by decide)
  exact ⟨⟨b, hb, (hall ⟨-128, by decide, by decide⟩).1⟩, b', hb', (hall' ⟨-128, by decide, by decide⟩).2.2.2⟩

end Exact

end Joolia.MultInverses
