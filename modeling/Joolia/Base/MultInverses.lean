import Joolia.Base.TypedRange.Division
import Joolia.Library.Reciprocal

namespace Joolia.MultInverses

open IntFuncs TypedRange

inductive InverseError
  | ArgumentError
  | InexactError
  -- the passes allowed to the search are used up
  | Unfinished
deriving DecidableEq, Repr

section Model

variable (w : Width)

def signed : IntType := ⟨true, w⟩

def unsigned : IntType := ⟨false, w⟩

-- `+%` and `-%` at the unsigned type
def addWord (x y : ℕ) : ℕ := (x + y) % 2 ^ w.bits

def subWord (x y : ℕ) : ℕ := (x + (2 ^ w.bits - y)) % 2 ^ w.bits

-- `mul_hi(a::UInt128, b::UInt128)`, from products of halves
def mulHiUInt128 (a b : ℕ) : ℕ :=
  let mul x y := x * y % 2 ^ 128
  let shift := 64
  let mask := (2 ^ 128 - 1) >>> shift
  let a1 := a >>> shift
  let a2 := a &&& mask
  let b1 := b >>> shift
  let b2 := b &&& mask
  let a1b1 := mul a1 b1
  let a1b2 := mul a1 b2
  let a2b1 := mul a2 b1
  let a2b2 := mul a2 b2
  let carry := ((((a1b2 &&& mask) + (a2b1 &&& mask)) % 2 ^ 128 + (a2b2 >>> shift)) % 2 ^ 128) >>> shift
  (((a1b1 + (a1b2 >>> shift)) % 2 ^ 128 + (a2b1 >>> shift)) % 2 ^ 128 + carry) % 2 ^ 128

-- `(a >> shift) & b`: all bits of the shifted number are the sign of `a`.
def signMask (a b : ℤ) : ℤ := if a < 0 then b else 0

-- mul_hi
def mulHi (T : IntType) (a b : ℤ) : ℤ :=
  if T.width = .w128 then
    let U := unsigned .w128
    let high : ℤ := mulHiUInt128 (U.wrap a).toNat (U.wrap b).toNat
    if T.signed then
      let t1 := U.wrap (signMask a b)
      let t2 := U.wrap (signMask b a)
      T.wrap (U.wrap (U.wrap (high - t1) - t2))
    else high
  else T.wrap ((toUnsigned (widen T)).wrap ((widen T).wrap (a * b)) / 2 ^ T.width.bits)

structure SignedMultiplicativeInverse where
  divisor : MachineInt (signed w)
  multiplier : ℤ
  addmul : ℤ
  shift : ℕ

-- The search for `p`; it hands `p` and `q2` to the rest of the constructor.
def signedSearch (anc ad : ℕ) : ℕ → ℕ → ℕ → ℕ → ℕ → ℕ → Option (ℕ × ℕ)
  | 0, _, _, _, _, _ => none
  | fuel + 1, p, q1, r1, q2, r2 =>
      let p := p + 1
      let q1 := q1 <<< 1 % 2 ^ w.bits
      let r1 := r1 <<< 1 % 2 ^ w.bits
      let (q1, r1) := if anc ≤ r1 then (addWord w q1 1, subWord w r1 anc) else (q1, r1)
      let q2 := q2 <<< 1 % 2 ^ w.bits
      let r2 := r2 <<< 1 % 2 ^ w.bits
      let (q2, r2) := if ad ≤ r2 then (addWord w q2 1, subWord w r2 ad) else (q2, r2)
      let delta := subWord w ad r2
      if q1 < delta ∨ (q1 = delta ∧ r1 = 0) then signedSearch anc ad fuel p q1 r1 q2 r2 else some (p, q2)

-- `UInt8(s)`
def shiftOf (s : ℤ) : Except InverseError ℕ := if 0 ≤ s ∧ s < 256 then .ok s.toNat else .error .InexactError

def SignedMultiplicativeInverse.new (d : MachineInt (signed w)) : Except InverseError (SignedMultiplicativeInverse w) :=
  if d.val = 0 then .error .ArgumentError
  else
    let signedmin := 2 ^ (w.bits - 1)
    let ad := ((unsigned w).wrap (flipsign (signed w) d.val d.val)).toNat
    let t := addWord w signedmin (if d.val < 0 then 1 else 0)
    let anc := subWord w (subWord w t 1) (t % ad)
    match signedSearch w anc ad w.bits (w.bits - 1) (signedmin / anc) (signedmin % anc) (signedmin / ad) (signedmin % ad) with
    | none => .error .Unfinished
    | some (p, q2) => do
        let m := flipsign (signed w) ((signed w).wrap (addWord w q2 1)) d.val
        let s ← shiftOf ((p : ℤ) - w.bits)
        .ok ⟨d, m, if 0 < d.val ∧ m < 0 then 1 else if d.val < 0 ∧ 0 < m then -1 else 0, s⟩

structure UnsignedMultiplicativeInverse where
  divisor : MachineInt (unsigned w)
  multiplier : ℕ
  add : Bool
  shift : ℕ

-- The search for `p`; it hands `p`, `q2` and `add` to the rest of the constructor.
def unsignedSearch (nc d : ℕ) : ℕ → ℕ → ℕ → ℕ → ℕ → ℕ → Bool → Option (ℕ × ℕ × Bool)
  | 0, _, _, _, _, _, _ => none
  | fuel + 1, p, q1, r1, q2, r2, carry =>
      let signedmin := 2 ^ (w.bits - 1)
      let signedmax := signedmin - 1
      let p := p + 1
      let (q1, r1) :=
        if subWord w nc r1 ≤ r1 then (addWord w (addWord w q1 q1) 1, subWord w (addWord w r1 r1) nc) else (addWord w q1 q1, addWord w r1 r1)
      let (q2, r2, carry) :=
        if subWord w d r2 ≤ addWord w r2 1 then
          (addWord w (addWord w q2 q2) 1, subWord w (addWord w (addWord w r2 r2) 1) d, carry || decide (signedmax ≤ q2))
        else (addWord w q2 q2, addWord w (addWord w r2 r2) 1, carry || decide (signedmin ≤ q2))
      let delta := subWord w (subWord w d 1) r2
      if p < 2 * w.bits ∧ (q1 < delta ∨ (q1 = delta ∧ r1 = 0)) then unsignedSearch nc d fuel p q1 r1 q2 r2 carry
      else some (p, q2, carry)

def UnsignedMultiplicativeInverse.new (d : MachineInt (unsigned w)) : Except InverseError (UnsignedMultiplicativeInverse w) :=
  if d.val = 0 then .error .ArgumentError
  else
    let n := d.val.toNat
    let signedmin := 2 ^ (w.bits - 1)
    let signedmax := signedmin - 1
    let allones := subWord w 0 1
    let nc := subWord w allones (subWord w allones n % n)
    match unsignedSearch w nc n (w.bits + 1) (w.bits - 1) (signedmin / nc) (signedmin % nc) (signedmax / n) (signedmax % n)
      false with
    | none => .error .Unfinished
    | some (p, q2, carry) =>
        .ok ⟨d, addWord w q2 1, carry, (((p : ℤ) - w.bits - if carry then 1 else 0) % 256).toNat⟩

variable {w}

-- `div(a, b)`, `rem(a, b)`, `divrem(a, b)` and `mod(a, b)`
def SignedMultiplicativeInverse.div (a : ℤ) (b : SignedMultiplicativeInverse w) : ℤ :=
  let T := signed w
  let x := mulHi T a b.multiplier
  let x := T.wrap (x + T.wrap (a * b.addmul))
  if flipsign T b.divisor.val b.divisor.val = 1 then T.wrap (a * b.divisor.val)
  else T.wrap ((if x < 0 then 1 else 0) + x / 2 ^ b.shift)

def SignedMultiplicativeInverse.rem (a : ℤ) (b : SignedMultiplicativeInverse w) : ℤ :=
  (signed w).wrap (a - (signed w).wrap (b.div a * b.divisor.val))

def SignedMultiplicativeInverse.divrem (a : ℤ) (b : SignedMultiplicativeInverse w) : ℤ × ℤ :=
  let d := b.div a
  (d, (signed w).wrap (a - (signed w).wrap (d * b.divisor.val)))

def SignedMultiplicativeInverse.mod (a : ℤ) (b : SignedMultiplicativeInverse w) : ℤ :=
  let r := b.rem a
  if r = 0 ∨ decide (r < 0) = decide (b.divisor.val < 0) then r else (signed w).wrap (r + b.divisor.val)

def UnsignedMultiplicativeInverse.div (a : ℤ) (b : UnsignedMultiplicativeInverse w) : ℤ :=
  let T := unsigned w
  let x := mulHi T a b.multiplier
  let x := if b.add then T.wrap (T.wrap (a - x) / 2 + x) else x
  if b.divisor.val = 1 then a else x / 2 ^ b.shift

def UnsignedMultiplicativeInverse.rem (a : ℤ) (b : UnsignedMultiplicativeInverse w) : ℤ :=
  (unsigned w).wrap (a - (unsigned w).wrap (b.div a * b.divisor.val))

def UnsignedMultiplicativeInverse.divrem (a : ℤ) (b : UnsignedMultiplicativeInverse w) : ℤ × ℤ :=
  let d := b.div a
  (d, (unsigned w).wrap (a - (unsigned w).wrap (d * b.divisor.val)))

def UnsignedMultiplicativeInverse.mod (a : ℤ) (b : UnsignedMultiplicativeInverse w) : ℤ := b.rem a

end Model

section Words

variable {w : Width} {x y : ℕ}

theorem addWord_eq (h : x + y < 2 ^ w.bits) : addWord w x y = x + y := Nat.mod_eq_of_lt h

theorem subWord_eq (hle : y ≤ x) (hx : x < 2 ^ w.bits) : subWord w x y = x - y := by
  have hsum : x + (2 ^ w.bits - y) = x - y + 2 ^ w.bits := by omega
  rw [subWord, hsum, Nat.add_mod_right, Nat.mod_eq_of_lt (by omega)]

theorem two_pow_eq (w : Width) : 2 ^ w.bits = 2 * 2 ^ (w.bits - 1) := by
  rw [← Nat.pow_succ', Nat.sub_one, Nat.succ_pred_eq_of_pos (width_bits_pos w)]

theorem bits_ge (w : Width) : 8 ≤ w.bits := by cases w <;> decide

theorem half_ge (w : Width) : 128 ≤ 2 ^ (w.bits - 1) := by
  have h := bits_ge w
  calc
    128 = 2 ^ 7 := rfl
    _ ≤ 2 ^ (w.bits - 1) := Nat.pow_le_pow_right (by omega) (by omega)

end Words

section Searches

variable {w : Width} {anc ad : ℕ}

open Reciprocal

-- One pass doubles a quotient and its remainder.
theorem double_step {m p q r : ℕ} (hm : 0 < m) (hle : 2 * m ≤ 2 ^ w.bits) (hq : q = 2 ^ p / m % 2 ^ w.bits)
    (hr : r = 2 ^ p % m) :
    (if m ≤ r <<< 1 % 2 ^ w.bits then (addWord w (q <<< 1 % 2 ^ w.bits) 1, subWord w (r <<< 1 % 2 ^ w.bits) m)
      else (q <<< 1 % 2 ^ w.bits, r <<< 1 % 2 ^ w.bits)) = (2 ^ (p + 1) / m % 2 ^ w.bits, 2 ^ (p + 1) % m) := by
  have hlt := Nat.mod_lt (2 ^ p) hm
  have hshift : r <<< 1 % 2 ^ w.bits = 2 * (2 ^ p % m) := by
    rw [Nat.shiftLeft_eq, pow_one, hr, Nat.mul_comm, Nat.mod_eq_of_lt (by omega)]
  have hquot : q <<< 1 % 2 ^ w.bits = 2 * (2 ^ p / m) % 2 ^ w.bits := by
    rw [Nat.shiftLeft_eq, pow_one, hq, Nat.mul_comm, Nat.mul_mod_mod]
  rw [hshift, hquot, pow_succ']
  split_ifs with h
  · obtain ⟨hdiv, hmod⟩ := double_div_mod_of_le (b := 0) hm (by omega) h
    simp only [Nat.add_zero] at hdiv hmod
    rw [subWord_eq h (by omega), addWord, Nat.mod_add_mod, hdiv, hmod]
  · obtain ⟨hdiv, hmod⟩ := double_div_mod_of_lt (b := 0) (Nat.not_le.1 h)
    simp only [Nat.add_zero] at hdiv hmod
    rw [hdiv, hmod]

-- The first power that exceeds the product of the critical number and the error is found.
theorem signedSearch_spec (had : 0 < ad) (had' : ad ≤ 2 ^ (w.bits - 1)) (hanc : 2 ≤ anc) (hanc' : anc ≤ 2 ^ (w.bits - 1))
    (hodd : ad = 2 ^ (w.bits - 1) → anc % 2 = 1) {fuel p q1 r1 q2 r2 : ℕ} (hfuel : 2 * w.bits ≤ p + 1 + fuel)
    (hp : w.bits ≤ p + 1) (hlt : 2 ^ p < anc * 2 ^ (w.bits - 1)) (hq1 : q1 = 2 ^ p / anc) (hr1 : r1 = 2 ^ p % anc)
    (hq2 : q2 = 2 ^ p / ad % 2 ^ w.bits) (hr2 : r2 = 2 ^ p % ad) :
    ∃ p', signedSearch w anc ad fuel p q1 r1 q2 r2 = some (p', 2 ^ p' / ad % 2 ^ w.bits) ∧ p < p' ∧ p' < 2 * w.bits ∧
      anc * (ad - 2 ^ p' % ad) < 2 ^ p' ∧ (p' = p + 1 ∨ 2 ^ (p' - 1) ≤ anc * (ad - 2 ^ (p' - 1) % ad)) := by
  have hW := two_pow_eq w
  have hH := half_ge w
  -- no product of two such numbers reaches this power
  have hbig : ∀ p, 2 * w.bits ≤ p + 2 → anc * 2 ^ (w.bits - 1) ≤ 2 ^ p := fun p hp => by
    calc
      anc * 2 ^ (w.bits - 1) ≤ 2 ^ (w.bits - 1) * 2 ^ (w.bits - 1) := Nat.mul_le_mul_right _ hanc'
      _ = 2 ^ (w.bits - 1 + (w.bits - 1)) := (Nat.pow_add ..).symm
      _ ≤ 2 ^ p := Nat.pow_le_pow_right (by omega) (by omega)
  induction fuel generalizing p q1 r1 q2 r2 with
  | zero =>
      have hbound := hbig p (by omega)
      omega
  | succ fuel ih =>
      have hquot : 2 ^ p / anc < 2 ^ (w.bits - 1) := Nat.div_lt_of_lt_mul hlt
      have hlt' : 2 ^ (p + 1) < anc * 2 ^ w.bits := by
        rw [pow_succ, hW, Nat.mul_left_comm, Nat.mul_comm]
        omega
      have hquot' : 2 ^ (p + 1) / anc < 2 ^ w.bits := Nat.div_lt_of_lt_mul hlt'
      have hr2lt := Nat.mod_lt (2 ^ (p + 1)) had
      rw [signedSearch]
      dsimp only
      rw [double_step (p := p) (m := anc) (by omega) (by omega) (by rw [hq1, Nat.mod_eq_of_lt (by omega)]) hr1,
        double_step (p := p) (m := ad) had (by omega) hq2 hr2]
      dsimp only
      rw [subWord_eq hr2lt.le (by omega), Nat.mod_eq_of_lt hquot', if_congr (div_lt_or_eq_iff (by omega) _) rfl rfl]
      split_ifs with hgo
      · have hbelow : 2 ^ (p + 1) < anc * 2 ^ (w.bits - 1) := by
          apply Nat.lt_of_le_of_ne (hgo.trans (Nat.mul_le_mul_left _ (by omega)))
          intro heq
          have hfull : ad = 2 ^ (w.bits - 1) := by
            by_contra hne
            have := Nat.mul_lt_mul_of_pos_left (by omega : ad - 2 ^ (p + 1) % ad < 2 ^ (w.bits - 1)) (by omega : 0 < anc)
            omega
          -- then the critical number is an even power of two
          have hsplit : 2 ^ (p + 1) = 2 ^ (p - (w.bits - 1)) * 2 * 2 ^ (w.bits - 1) := by
            rw [← Nat.pow_succ, ← Nat.pow_add]
            congr 1
            omega
          have heven := Nat.eq_of_mul_eq_mul_right (by omega) (hsplit.symm.trans heq)
          have hone := hodd hfull
          omega
        obtain ⟨p', hsearch, hpp, hp2, hcrit, hprev⟩ := ih (by omega) (by omega) hbelow rfl rfl rfl rfl
        refine ⟨p', hsearch, by omega, hp2, hcrit, .inr ?_⟩
        rcases hprev with rfl | hprev
        · exact hgo
        · exact hprev
      · refine ⟨p + 1, rfl, by omega, ?_, Nat.not_le.1 hgo, .inl rfl⟩
        by_contra hge
        have hbound := hbig p (by omega)
        omega

theorem addWord_self (x : ℕ) : addWord w x x = 2 * x % 2 ^ w.bits := by rw [addWord, Nat.two_mul]

theorem addWord_double (Q : ℕ) : addWord w (Q % 2 ^ w.bits) (Q % 2 ^ w.bits) = 2 * Q % 2 ^ w.bits := by
  rw [addWord, ← Nat.add_mod, Nat.two_mul]

theorem addWord_mod (x y : ℕ) : addWord w (x % 2 ^ w.bits) y = (x + y) % 2 ^ w.bits := Nat.mod_add_mod ..

theorem subWord_mod {x y : ℕ} (hle : y ≤ x) (hx : x - y < 2 ^ w.bits) (hy : y ≤ 2 ^ w.bits) :
    subWord w (x % 2 ^ w.bits) y = x - y := by
  have hsum : x + (2 ^ w.bits - y) = x - y + 2 ^ w.bits := by omega
  rw [subWord, Nat.mod_add_mod, hsum, Nat.add_mod_right, Nat.mod_eq_of_lt hx]

-- One pass doubles a quotient and its remainder; the double of the remainder may leave the word.
theorem quotient_step {m p q r : ℕ} (hm : 0 < m) (hmW : m < 2 ^ w.bits) (hq : q = 2 ^ p / m % 2 ^ w.bits)
    (hr : r = 2 ^ p % m) :
    (if subWord w m r ≤ r then (addWord w (addWord w q q) 1, subWord w (addWord w r r) m) else (addWord w q q, addWord w r r)) =
      (2 ^ (p + 1) / m % 2 ^ w.bits, 2 ^ (p + 1) % m) := by
  have hlt := Nat.mod_lt (2 ^ p) hm
  rw [hr, subWord_eq hlt.le hmW, hq, addWord_double, addWord_mod, pow_succ', addWord_self]
  split_ifs with h
  · obtain ⟨hdiv, hmod⟩ := double_div_mod_of_le (b := 0) hm (by omega) (by omega : m ≤ 2 * (2 ^ p % m) + 0)
    simp only [Nat.add_zero] at hdiv hmod
    rw [subWord_mod (by omega) (by omega) hmW.le, hdiv, hmod]
  · obtain ⟨hdiv, hmod⟩ := double_div_mod_of_lt (b := 0) (by omega : 2 * (2 ^ p % m) + 0 < m)
    simp only [Nat.add_zero] at hdiv hmod
    rw [hdiv, hmod, Nat.mod_eq_of_lt (by omega : 2 * (2 ^ p % m) < 2 ^ w.bits)]

-- The other pair belongs to the number below the power; the flag records that the multiplier has left the word.
theorem multiplier_step {d p q r : ℕ} {carry : Bool} (hd : 0 < d) (hdW : d < 2 ^ w.bits)
    (hq : q = (2 ^ p - 1) / d % 2 ^ w.bits) (hr : r = (2 ^ p - 1) % d)
    (hcarry : carry = decide (2 ^ w.bits ≤ (2 ^ p - 1) / d + 1)) :
    (if subWord w d r ≤ addWord w r 1 then
        (addWord w (addWord w q q) 1, subWord w (addWord w (addWord w r r) 1) d, carry || decide (2 ^ (w.bits - 1) - 1 ≤ q))
      else (addWord w q q, addWord w (addWord w r r) 1, carry || decide (2 ^ (w.bits - 1) ≤ q))) =
      ((2 ^ (p + 1) - 1) / d % 2 ^ w.bits, (2 ^ (p + 1) - 1) % d, decide (2 ^ w.bits ≤ (2 ^ (p + 1) - 1) / d + 1)) := by
  have hW := two_pow_eq w
  have hpos : 0 < 2 ^ p := Nat.pow_pos (by omega)
  have hnext : 2 ^ (p + 1) - 1 = 2 * (2 ^ p - 1) + 1 := by
    rw [pow_succ']
    omega
  have hlt := Nat.mod_lt (2 ^ p - 1) hd
  -- the flag is already up when the quotient does not fit
  have hflag : ∀ b, (2 ^ w.bits ≤ 2 * ((2 ^ p - 1) / d) + b + 1 ↔ 2 ^ (w.bits - 1) ≤ (2 ^ p - 1) / d + b) → b ≤ 1 →
      (carry || decide (2 ^ (w.bits - 1) - b ≤ q)) = decide (2 ^ w.bits ≤ 2 * ((2 ^ p - 1) / d) + b + 1) := by
    intro b hb hb1
    rw [hcarry, ← Bool.decide_or, decide_eq_decide, hb]
    by_cases hfits : (2 ^ p - 1) / d < 2 ^ w.bits
    · rw [hq, Nat.mod_eq_of_lt hfits]
      omega
    · have hge := Nat.not_lt.1 hfits
      exact iff_of_true (.inl (by omega)) (by omega)
  rw [hnext, hr, subWord_eq hlt.le hdW, addWord_eq (by omega : (2 ^ p - 1) % d + 1 < 2 ^ w.bits), addWord_self ((2 ^ p - 1) % d),
    addWord_mod]
  generalize 2 ^ p - 1 = x at *
  split_ifs with h
  · obtain ⟨hdiv, hmod⟩ := double_div_mod_of_le (b := 1) hd (Nat.le_refl 1) (by omega : d ≤ 2 * (x % d) + 1)
    rw [subWord_mod (by omega) (by omega) hdW.le, hdiv, hmod, hflag 1 (by omega) (Nat.le_refl 1), hq, addWord_double, addWord_mod]
  · obtain ⟨hdiv, hmod⟩ := double_div_mod_of_lt (b := 1) (by omega : 2 * (x % d) + 1 < d)
    have hflag0 := hflag 0 (by omega) (by omega)
    simp only [Nat.add_zero, Nat.sub_zero] at hflag0
    rw [Nat.mod_eq_of_lt (by omega : 2 * (x % d) + 1 < 2 ^ w.bits), hdiv, hmod, hflag0, hq, addWord_double]

-- No power of two leaves an error once it is a multiple of the divisor.
theorem error_eq_zero {d p k : ℕ} (hd : 0 < d) (hdvd : d ∣ 2 ^ k) (hk : k ≤ p) : d - 1 - (2 ^ p - 1) % d = 0 := by
  obtain ⟨c, hc⟩ := hdvd.trans (Nat.pow_dvd_pow 2 hk)
  have hpos : 0 < 2 ^ p := Nat.pow_pos (by omega)
  have hc0 : 0 < c := by
    by_contra h
    have : c = 0 := by omega
    rw [this] at hc
    omega
  obtain ⟨c, rfl⟩ : ∃ e, c = e + 1 := ⟨c - 1, by omega⟩
  have hmod : (2 ^ p - 1) % d = d - 1 := by
    have hsum : 2 ^ p - 1 = d - 1 + d * c := by
      rw [hc, Nat.mul_add, Nat.mul_one]
      omega
    rw [hsum, Nat.add_mul_mod_self_left, Nat.mod_eq_of_lt (by omega)]
  omega

theorem unsignedSearch_spec {nc d : ℕ} (hd : 0 < d) (hdW : d < 2 ^ w.bits) (hnc : 2 ^ (w.bits - 1) ≤ nc)
    (hncW : nc < 2 ^ w.bits) (hdvd : nc = 2 ^ (w.bits - 1) → d ∣ 2 ^ (w.bits - 1)) {fuel p q1 r1 q2 r2 : ℕ} {carry : Bool}
    (hfuel : 2 * w.bits ≤ p + fuel) (hp : w.bits ≤ p + 1) (hp2 : p < 2 * w.bits)
    (hfirst : p + 1 = w.bits ∨ 2 ^ (w.bits - 1) < nc) (hq1 : q1 = 2 ^ p / nc % 2 ^ w.bits) (hr1 : r1 = 2 ^ p % nc)
    (hq2 : q2 = (2 ^ p - 1) / d % 2 ^ w.bits) (hr2 : r2 = (2 ^ p - 1) % d)
    (hcarry : carry = decide (2 ^ w.bits ≤ (2 ^ p - 1) / d + 1)) :
    ∃ p', unsignedSearch w nc d fuel p q1 r1 q2 r2 carry =
        some (p', (2 ^ p' - 1) / d % 2 ^ w.bits, decide (2 ^ w.bits ≤ (2 ^ p' - 1) / d + 1)) ∧ p < p' ∧ p' ≤ 2 * w.bits ∧
      (p' < 2 * w.bits → nc * (d - 1 - (2 ^ p' - 1) % d) < 2 ^ p') ∧
      (p' = p + 1 ∨ 2 ^ (p' - 1) ≤ nc * (d - 1 - (2 ^ (p' - 1) - 1) % d)) := by
  have hW := two_pow_eq w
  have hbits := bits_ge w
  induction fuel generalizing p q1 r1 q2 r2 carry with
  | zero => omega
  | succ fuel ih =>
      have hr2lt := Nat.mod_lt (2 ^ (p + 1) - 1) hd
      have hdelta : subWord w (subWord w d 1) ((2 ^ (p + 1) - 1) % d) = d - 1 - (2 ^ (p + 1) - 1) % d := by
        rw [subWord_eq (by omega : 1 ≤ d) hdW, subWord_eq (by omega) (by omega)]
      rw [unsignedSearch]
      dsimp only
      rw [quotient_step (by omega) hncW hq1 hr1, multiplier_step hd hdW hq2 hr2 hcarry]
      dsimp only
      rw [hdelta]
      by_cases hend : p + 1 < 2 * w.bits
      · -- the quotient still fits in the word
        have hfits : 2 ^ (p + 1) / nc < 2 ^ w.bits := by
          apply Nat.div_lt_of_lt_mul
          rcases hfirst with hfirst | hfirst
          · rw [hfirst]
            exact lt_mul_of_one_lt_left (Nat.pow_pos (by omega)) (by have := half_ge w; omega)
          · calc
              2 ^ (p + 1) ≤ 2 ^ (w.bits - 1 + w.bits) := Nat.pow_le_pow_right (by omega) (by omega)
              _ = 2 ^ (w.bits - 1) * 2 ^ w.bits := Nat.pow_add ..
              _ < nc * 2 ^ w.bits := Nat.mul_lt_mul_of_pos_right hfirst (Nat.pow_pos (by omega))
        rw [Nat.mod_eq_of_lt hfits, if_congr (and_congr_right fun _ => div_lt_or_eq_iff (by omega) _) rfl rfl]
        split_ifs with hgo
        · have hlarge : 2 ^ (w.bits - 1) < nc := by
            apply Nat.lt_of_le_of_ne hnc
            intro heq
            have hzero := error_eq_zero (p := p + 1) hd (hdvd heq.symm) (by omega)
            have hpos : 0 < 2 ^ (p + 1) := Nat.pow_pos (by omega)
            rw [hzero, Nat.mul_zero] at hgo
            omega
          obtain ⟨p', hsearch, hpp, hpp2, hcrit, hprev⟩ :=
            ih (by omega) (by omega) hend (.inr hlarge) (Nat.mod_eq_of_lt hfits).symm rfl rfl rfl rfl
          refine ⟨p', hsearch, by omega, hpp2, hcrit, .inr ?_⟩
          rcases hprev with rfl | hprev
          · exact hgo.2
          · exact hprev
        · exact ⟨p + 1, rfl, by omega, by omega, fun _ => Nat.not_le.1 fun hle => hgo ⟨hend, hle⟩, .inl rfl⟩
      · rw [if_neg fun h => hend h.1]
        exact ⟨p + 1, rfl, by omega, by omega, fun h => absurd h hend, .inl rfl⟩

end Searches

section Product

variable {w : Width} {a b : ℤ}

theorem mulHiUInt128_eq {a b : ℕ} (ha : a < 2 ^ 128) (hb : b < 2 ^ 128) : mulHiUInt128 a b = a * b / 2 ^ 128 := by
  have hmask : (2 ^ 128 - 1) >>> 64 = 2 ^ 64 - 1 := by decide
  have hproduct : ∀ {x y : ℕ}, x < 2 ^ 64 → y < 2 ^ 64 → x * y ≤ (2 ^ 64 - 1) * (2 ^ 64 - 1) := fun hx hy =>
    Nat.mul_le_mul (by omega) (by omega)
  have ha1 : a / 2 ^ 64 < 2 ^ 64 := by omega
  have hb1 : b / 2 ^ 64 < 2 ^ 64 := by omega
  have ha2 : a % 2 ^ 64 < 2 ^ 64 := Nat.mod_lt _ (by omega)
  have hb2 : b % 2 ^ 64 < 2 ^ 64 := Nat.mod_lt _ (by omega)
  have h11 := hproduct ha1 hb1
  have h12 := hproduct ha1 hb2
  have h21 := hproduct ha2 hb1
  have h22 := hproduct ha2 hb2
  have hsplit : a * b = a / 2 ^ 64 * (b / 2 ^ 64) * 2 ^ 128 +
      (a / 2 ^ 64 * (b % 2 ^ 64) + a % 2 ^ 64 * (b / 2 ^ 64)) * 2 ^ 64 + a % 2 ^ 64 * (b % 2 ^ 64) := by
    conv_lhs => rw [← Nat.div_add_mod a (2 ^ 64), ← Nat.div_add_mod b (2 ^ 64)]
    ring
  rw [hsplit, mulHiUInt128]
  simp only [hmask, Nat.and_two_pow_sub_one_eq_mod, Nat.shiftRight_eq_div_pow]
  generalize a / 2 ^ 64 * (b / 2 ^ 64) = x at *
  generalize a / 2 ^ 64 * (b % 2 ^ 64) = y at *
  generalize a % 2 ^ 64 * (b / 2 ^ 64) = z at *
  generalize a % 2 ^ 64 * (b % 2 ^ 64) = u at *
  omega

-- An unsigned reading adds a word to a negative number, and so the other factor to the upper half.
theorem mulHiInt128_modEq (x y : ℤ) (α β W : ℤ) (hW : 0 < W) :
    (x + α * W) * (y + β * W) / W - α * y - β * x ≡ x * y / W [ZMOD W] := by
  have hexpand : (x + α * W) * (y + β * W) = x * y + (α * y + β * x + α * β * W) * W := by ring
  rw [hexpand, Int.add_mul_ediv_right _ _ (by omega)]
  apply Int.ModEq.symm
  apply Int.modEq_iff_dvd.2
  exact ⟨α * β, by ring⟩

theorem ediv_modEq {x y W : ℤ} (hW : 0 < W) (h : x ≡ y [ZMOD W * W]) : x / W ≡ y / W [ZMOD W] := by
  obtain ⟨c, hc⟩ := Int.modEq_iff_dvd.1 h
  obtain rfl : y = x + W * c * W := by
    rw [show W * c * W = W * W * c by ring, ← hc]
    ring
  rw [Int.add_mul_ediv_right _ _ (by omega)]
  exact (Int.modEq_iff_dvd.2 ⟨c, by ring⟩)

theorem wrap_unsigned_eq (ha : Holds (signed w) a) : (unsigned w).wrap a = a + (if a < 0 then 1 else 0) * 2 ^ w.bits := by
  have hW := two_pow_bits w
  have hH : (0 : ℤ) < 2 ^ (w.bits - 1) := by positivity
  have hlo : -2 ^ (w.bits - 1) ≤ a := ha.1
  have hhi : a ≤ 2 ^ (w.bits - 1) - 1 := ha.2
  have hwrap : (unsigned w).wrap a = a % 2 ^ w.bits := by
    simp only [IntType.wrap, IntType.typemin, unsigned, Bool.false_eq_true, if_false, Int.sub_zero, Int.add_zero]
  rw [hwrap]
  split_ifs with hneg
  · rw [Int.one_mul, ← Int.add_emod_right, Int.emod_eq_of_lt (by omega) (by omega)]
  · rw [Int.zero_mul, Int.add_zero, Int.emod_eq_of_lt (by omega) (by omega)]

theorem signMask_eq (a b : ℤ) : signMask a b = (if a < 0 then 1 else 0) * b := by
  rw [signMask]
  split_ifs <;> ring

-- The upper half of the product, rounded down.
theorem mulHi_modEq {T : IntType} (ha : Holds T a) (hb : Holds T b) :
    mulHi T a b ≡ a * b / 2 ^ T.width.bits [ZMOD 2 ^ T.width.bits] := by
  rw [mulHi]
  by_cases hwide : T.width = .w128
  · rw [if_pos hwide]
    have hbits : T.width.bits = 128 := by rw [hwide]; rfl
    have hhigh : ∀ x y : ℤ, ((mulHiUInt128 ((unsigned .w128).wrap x).toNat ((unsigned .w128).wrap y).toNat : ℕ) : ℤ) =
        (unsigned .w128).wrap x * (unsigned .w128).wrap y / 2 ^ 128 := by
      intro x y
      have hx := holds_wrap (unsigned .w128) x
      have hy := holds_wrap (unsigned .w128) y
      have hx0 : 0 ≤ (unsigned .w128).wrap x := hx.1
      have hx1 : (unsigned .w128).wrap x ≤ 2 ^ 128 - 1 := hx.2
      have hy0 : 0 ≤ (unsigned .w128).wrap y := hy.1
      have hy1 : (unsigned .w128).wrap y ≤ 2 ^ 128 - 1 := hy.2
      rw [mulHiUInt128_eq (by omega) (by omega)]
      push_cast
      rw [Int.toNat_of_nonneg hx0, Int.toNat_of_nonneg hy0]
    dsimp only
    rw [hhigh, hbits]
    by_cases hsigned : T.signed = true
    · obtain rfl : T = signed .w128 := by
        obtain ⟨s, w⟩ := T
        cases hsigned
        cases hwide
        rfl
      have hmod := mulHiInt128_modEq a b (if a < 0 then 1 else 0) (if b < 0 then 1 else 0) (2 ^ 128) (by positivity)
      rw [if_pos hsigned, wrap_unsigned_eq ha, wrap_unsigned_eq hb, signMask_eq, signMask_eq]
      refine ((wrap_modEq (signed .w128) _).trans ?_).trans hmod
      refine (wrap_modEq (unsigned .w128) _).trans ?_
      refine Int.ModEq.sub ?_ (wrap_modEq (unsigned .w128) _)
      refine (wrap_modEq (unsigned .w128) _).trans ?_
      exact Int.ModEq.sub rfl (wrap_modEq (unsigned .w128) _)
    · obtain rfl : T = unsigned .w128 := by
        obtain ⟨s, w⟩ := T
        cases s
        · cases hwide
          rfl
        · exact absurd rfl hsigned
      rw [if_neg hsigned, wrap_of_holds ha, wrap_of_holds hb]
  · rw [if_neg hwide]
    refine (wrap_modEq T _).trans (ediv_modEq (by positivity) ?_)
    rw [← pow_add, ← Nat.two_mul, ← bits_widen hwide]
    exact (wrap_modEq (toUnsigned (widen T)) _).trans (wrap_modEq (widen T) _)

end Product

end Joolia.MultInverses
