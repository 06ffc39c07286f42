import Joolia.Base.VersionSpec

namespace Joolia.Version

-- Three digits to the base 2^32 as one number.
def weigh (a b c : ℕ) : ℕ := (a * 4294967296 + b) * 4294967296 + c

theorem weigh_le_iff {a b c a' b' c' : ℕ} (hb : b < 4294967296) (hc : c < 4294967296) (hb' : b' < 4294967296)
    (hc' : c' < 4294967296) :
    weigh a b c ≤ weigh a' b' c' ↔ a < a' ∨ (a = a' ∧ (b < b' ∨ (b = b' ∧ c ≤ c'))) := by
  simp only [weigh]
  omega

def VersionNumber.key (v : VersionNumber) : ℕ := weigh v.major.toNat v.minor.toNat v.patch.toNat

-- The first version a lower bound admits, and the last one an upper bound does.
def VersionBound.low (b : VersionBound) : ℕ := weigh b.t0.toNat b.t1.toNat b.t2.toNat

def VersionBound.high (b : VersionBound) : ℕ :=
  weigh (if b.n ≤ 0 then 4294967295 else b.t0.toNat) (if b.n ≤ 1 then 4294967295 else b.t1.toNat)
    (if b.n ≤ 2 then 4294967295 else b.t2.toNat)

theorem toNat_lt_wide (a : UInt32) : a.toNat < 4294967296 := a.toNat_lt

-- A bound is one of four kinds.
theorem VersionBound.kinds (b : VersionBound) :
    (b.n = 0 ∧ b.t0.toNat = 0 ∧ b.t1.toNat = 0 ∧ b.t2.toNat = 0) ∨ (b.n = 1 ∧ b.t1.toNat = 0 ∧ b.t2.toNat = 0) ∨
      (b.n = 2 ∧ b.t2.toNat = 0) ∨ b.n = 3 := by
  have hn := b.n_le
  obtain ⟨h0, h1, h2⟩ := b.zeros
  rcases (by omega : b.n = 0 ∨ b.n = 1 ∨ b.n = 2 ∨ b.n = 3) with h | h | h | h
  · exact .inl ⟨h, by simp [h0 (by omega)], by simp [h1 (by omega)], by simp [h2 (by omega)]⟩
  · exact .inr (.inl ⟨h, by simp [h1 (by omega)], by simp [h2 (by omega)]⟩)
  · exact .inr (.inr (.inl ⟨h, by simp [h2 (by omega)]⟩))
  · exact .inr (.inr (.inr h))

theorem tupleLe_cons (a b : UInt32) (as bs : List UInt32) :
    tupleLe (a :: as) (b :: bs) = true ↔ a.toNat < b.toNat ∨ (a.toNat = b.toNat ∧ tupleLe as bs = true) := by
  simp only [tupleLe, UInt32.lt_iff_toNat_lt]
  split_ifs with h h'
  · simp [h]
  · simp [h]
    omega
  · have heq : a.toNat = b.toNat := by omega
    simp [heq]

theorem tupleLe_nil : tupleLe [] [] = true := rfl

theorem aboveLower_iff (b : VersionBound) (v : VersionNumber) : aboveLower b v = true ↔ b.low ≤ v.key := by
  rw [VersionBound.low, VersionNumber.key, weigh_le_iff (toNat_lt_wide _) (toNat_lt_wide _) (toNat_lt_wide _)
    (toNat_lt_wide _)]
  rcases b.kinds with ⟨hn, z0, z1, z2⟩ | ⟨hn, z1, z2⟩ | ⟨hn, z2⟩ | hn
  · simp [aboveLower, hn]
    omega
  · simp [aboveLower, hn, VersionBound.getindex, UInt32.le_iff_toNat_le]
    omega
  · simp [aboveLower, hn, VersionBound.getindex, tupleLe_cons, tupleLe_nil]
    omega
  · simp [aboveLower, hn, VersionBound.getindex, tupleLe_cons, tupleLe_nil]
    omega

theorem high_digits (b : VersionBound) :
    (if b.n ≤ 1 then 4294967295 else b.t1.toNat) < 4294967296 ∧
      (if b.n ≤ 2 then 4294967295 else b.t2.toNat) < 4294967296 := by
  have h1 := toNat_lt_wide b.t1
  have h2 := toNat_lt_wide b.t2
  constructor <;> split_ifs <;> omega

theorem belowUpper_iff (v : VersionNumber) (b : VersionBound) : belowUpper v b = true ↔ v.key ≤ b.high := by
  have g0 := toNat_lt_wide v.major
  have g1 := toNat_lt_wide v.minor
  have g2 := toNat_lt_wide v.patch
  rw [VersionBound.high, VersionNumber.key, weigh_le_iff (toNat_lt_wide _) (toNat_lt_wide _) (high_digits b).1
    (high_digits b).2]
  rcases b.kinds with ⟨hn, z0, z1, z2⟩ | ⟨hn, z1, z2⟩ | ⟨hn, z2⟩ | hn
  · simp [belowUpper, hn]
    omega
  · simp [belowUpper, hn, VersionBound.getindex, UInt32.le_iff_toNat_le]
    omega
  · simp [belowUpper, hn, VersionBound.getindex, tupleLe_cons, tupleLe_nil]
    omega
  · simp [belowUpper, hn, VersionBound.getindex, tupleLe_cons, tupleLe_nil]
    omega

-- The first `k` components as one number.
def VersionBound.leading (b : VersionBound) : ℕ → ℕ
  | 0 => 0
  | k + 1 => b.leading k * 4294967296 + (b.getindex k).toNat

-- How many versions share their first `k` components.
def tails (k : ℕ) : ℕ := 4294967296 ^ (3 - k)

section Comparisons

variable (a b : VersionBound)

theorem leading_lt_add {i : ℕ} (h : a.leading i < b.leading i) (k : ℕ) : a.leading (i + k) < b.leading (i + k) := by
  induction k with
  | zero => exact h
  | succ k ih =>
      have := toNat_lt_wide (a.getindex (i + k))
      rw [Nat.add_succ, VersionBound.leading, VersionBound.leading]
      omega

-- The comparison loop compares the leading components as numbers.
theorem compareFirst_go (less greater same : Bool) {i : ℕ} (h : a.leading i = b.leading i) (k : ℕ) :
    (a.leading (i + k) < b.leading (i + k) ∧ compareFirst.go a b less greater same i k = less) ∨
      (b.leading (i + k) < a.leading (i + k) ∧ compareFirst.go a b less greater same i k = greater) ∨
      (a.leading (i + k) = b.leading (i + k) ∧ compareFirst.go a b less greater same i k = same) := by
  induction k generalizing i with
  | zero => exact .inr (.inr ⟨h, rfl⟩)
  | succ k ih =>
      have hnext : i + (k + 1) = (i + 1) + k := by omega
      rw [hnext, compareFirst.go]
      split_ifs with hlt hgt
      · rw [UInt32.lt_iff_toNat_lt] at hlt
        refine .inl ⟨leading_lt_add a b ?_ k, rfl⟩
        rw [VersionBound.leading, VersionBound.leading]
        omega
      · rw [UInt32.lt_iff_toNat_lt] at hgt
        refine .inr (.inl ⟨leading_lt_add b a ?_ k, rfl⟩)
        rw [VersionBound.leading, VersionBound.leading]
        omega
      · rw [UInt32.lt_iff_toNat_lt] at hlt hgt
        apply ih
        rw [VersionBound.leading, VersionBound.leading]
        omega

theorem compareFirst_cases (less greater same : Bool) (k : ℕ) :
    (a.leading k < b.leading k ∧ compareFirst a b less greater same k = less) ∨
      (b.leading k < a.leading k ∧ compareFirst a b less greater same k = greater) ∨
      (a.leading k = b.leading k ∧ compareFirst a b less greater same k = same) := by
  have h := compareFirst_go a b less greater same (i := 0) rfl k
  rwa [Nat.zero_add] at h

theorem low_le_iff : a.low ≤ b.low ↔ a.t0.toNat < b.t0.toNat ∨ (a.t0.toNat = b.t0.toNat ∧
    (a.t1.toNat < b.t1.toNat ∨ (a.t1.toNat = b.t1.toNat ∧ a.t2.toNat ≤ b.t2.toNat))) :=
  weigh_le_iff (toNat_lt_wide _) (toNat_lt_wide _) (toNat_lt_wide _) (toNat_lt_wide _)

variable {a b}

-- The first version that agrees with a bound in `k` components, and the last one.
theorem leading_le_low {k : ℕ} (hk : k ≤ b.n) :
    b.leading k * tails k ≤ b.low ∧ b.low < (b.leading k + 1) * tails k := by
  have h0 := toNat_lt_wide b.t0
  have h1 := toNat_lt_wide b.t1
  have h2 := toNat_lt_wide b.t2
  have hn := b.n_le
  rw [VersionBound.low, weigh]
  rcases (by omega : k = 0 ∨ k = 1 ∨ k = 2 ∨ k = 3) with rfl | rfl | rfl | rfl
  all_goals
    simp only [tails, VersionBound.leading, VersionBound.getindex]
    omega

theorem low_eq (b : VersionBound) : b.low = b.leading b.n * tails b.n := by
  rw [VersionBound.low, weigh]
  rcases b.kinds with ⟨hn, z0, z1, z2⟩ | ⟨hn, z1, z2⟩ | ⟨hn, z2⟩ | hn
  all_goals
    simp only [hn, tails, VersionBound.leading, VersionBound.getindex]
    omega

theorem high_eq (b : VersionBound) : b.high + 1 = (b.leading b.n + 1) * tails b.n := by
  rw [VersionBound.high, weigh]
  rcases b.kinds with ⟨hn, -⟩ | ⟨hn, -⟩ | ⟨hn, -⟩ | hn
  · simp [hn, tails, VersionBound.leading]
  · simp [hn, tails, VersionBound.leading, VersionBound.getindex]
    omega
  · simp [hn, tails, VersionBound.leading, VersionBound.getindex]
    omega
  · simp [hn, tails, VersionBound.leading, VersionBound.getindex]

theorem low_le_high (b : VersionBound) : b.low ≤ b.high := by
  have hpos : 0 < tails b.n := Nat.pow_pos (by omega)
  have hhigh := high_eq b
  rw [Nat.succ_mul, ← low_eq b] at hhigh
  omega

theorem leading_le_high {k : ℕ} (hk : k ≤ b.n) :
    b.leading k * tails k ≤ b.high ∧ b.high < (b.leading k + 1) * tails k := by
  refine ⟨Nat.le_trans (leading_le_low hk).1 (low_le_high b), ?_⟩
  have h1 := toNat_lt_wide b.t1
  have h2 := toNat_lt_wide b.t2
  have h0 := toNat_lt_wide b.t0
  have hn := b.n_le
  have hhigh := high_eq b
  rcases (by omega : b.n = 0 ∨ b.n = 1 ∨ b.n = 2 ∨ b.n = 3) with hb | hb | hb | hb <;>
    rcases (by omega : k = 0 ∨ k = 1 ∨ k = 2 ∨ k = 3) with rfl | rfl | rfl | rfl
  all_goals
    simp only [hb, tails, VersionBound.leading, VersionBound.getindex] at hhigh ⊢
    omega

theorem leading_mul_le {k : ℕ} (h : a.leading k < b.leading k) :
    (a.leading k + 1) * tails k ≤ b.leading k * tails k := Nat.mul_le_mul_right _ h

theorem islessLl_iff (a b : VersionBound) : islessLl a b = true ↔ a.low < b.low ∨ (a.low = b.low ∧ a.n < b.n) := by
  have hlowa := leading_le_low (b := a) (Nat.min_le_left a.n b.n)
  have hlowb := leading_le_low (b := b) (Nat.min_le_right a.n b.n)
  rw [islessLl]
  rcases compareFirst_cases a b true false (decide (a.n < b.n)) (min a.n b.n) with ⟨h, hval⟩ | ⟨h, hval⟩ | ⟨h, hval⟩
  · have := leading_mul_le h
    rw [hval]
    exact ⟨fun _ => .inl (by omega), fun _ => rfl⟩
  · have := leading_mul_le h
    rw [hval]
    exact ⟨fun hfalse => absurd hfalse Bool.false_ne_true, fun hlt => by omega⟩
  · rw [hval, decide_eq_true_eq]
    by_cases hn : a.n < b.n
    · have hmin : min a.n b.n = a.n := by omega
      rw [hmin] at h hlowb
      have hlow := low_eq a
      rw [h] at hlow
      omega
    · have hmin : min a.n b.n = b.n := by omega
      rw [hmin] at h hlowa
      have hlow := low_eq b
      rw [← h] at hlow
      omega

theorem islessUu_iff (a b : VersionBound) :
    islessUu a b = true ↔ a.high < b.high ∨ (a.high = b.high ∧ b.n < a.n) := by
  have hhigha := leading_le_high (b := a) (Nat.min_le_left a.n b.n)
  have hhighb := leading_le_high (b := b) (Nat.min_le_right a.n b.n)
  rw [islessUu]
  rcases compareFirst_cases a b true false (decide (b.n < a.n)) (min a.n b.n) with ⟨h, hval⟩ | ⟨h, hval⟩ | ⟨h, hval⟩
  · have := leading_mul_le h
    rw [hval]
    exact ⟨fun _ => .inl (by omega), fun _ => rfl⟩
  · have := leading_mul_le h
    rw [hval]
    exact ⟨fun hfalse => absurd hfalse Bool.false_ne_true, fun hlt => by omega⟩
  · rw [hval, decide_eq_true_eq]
    by_cases hn : b.n < a.n
    · have hmin : min a.n b.n = b.n := by omega
      rw [hmin] at h hhigha
      have hhigh := high_eq b
      rw [← h] at hhigh
      omega
    · have hmin : min a.n b.n = a.n := by omega
      rw [hmin] at h hhighb
      have hhigh := high_eq a
      rw [h] at hhigh
      omega

-- A range is empty when its last version comes before its first one.
theorem isempty_iff (r : VersionRange) : r.isempty = true ↔ r.upper.high < r.lower.low := by
  have hlow := leading_le_low (b := r.lower) (Nat.min_le_left r.lower.n r.upper.n)
  have hhigh := leading_le_high (b := r.upper) (Nat.min_le_right r.lower.n r.upper.n)
  rw [VersionRange.isempty]
  rcases compareFirst_cases r.lower r.upper false true false (min r.lower.n r.upper.n) with
    ⟨h, hval⟩ | ⟨h, hval⟩ | ⟨h, hval⟩
  · have := leading_mul_le h
    rw [hval]
    exact ⟨fun hfalse => absurd hfalse Bool.false_ne_true, fun hlt => by omega⟩
  · have := leading_mul_le h
    rw [hval]
    exact ⟨fun _ => by omega, fun _ => rfl⟩
  · rw [hval]
    refine ⟨fun hfalse => absurd hfalse Bool.false_ne_true, fun hlt => ?_⟩
    by_cases hn : r.lower.n ≤ r.upper.n
    · rw [Nat.min_eq_left hn] at h hhigh
      have := low_eq r.lower
      rw [h] at this
      omega
    · rw [Nat.min_eq_right (by omega)] at h hlow
      have := high_eq r.upper
      rw [← h] at this
      omega

-- Bounds with the same number of components are joined up to the next value of the last one.
theorem isjoinable_same {up lo : VersionBound} {k : ℕ} (hup : up.n = k + 1) (hlo : lo.n = k + 1) :
    (isjoinable up lo = true → lo.low ≤ up.high + 1) ∧ (isjoinable up lo = false → up.high < lo.low) := by
  have hlow := leading_le_low (b := lo) (by omega : k ≤ lo.n)
  have hhigh := leading_le_high (b := up) (by omega : k ≤ up.n)
  rw [isjoinable, if_neg (by omega), if_pos (by omega), hup, Nat.add_sub_cancel]
  generalize hsame : (!decide (((up.getindex k).toNat : ℤ) < (lo.getindex k).toNat - 1)) = same
  rcases compareFirst_cases up lo false true same k with ⟨h, hval⟩ | ⟨h, hval⟩ | ⟨h, hval⟩
  · have := leading_mul_le h
    rw [hval]
    exact ⟨fun hfalse => absurd hfalse Bool.false_ne_true, fun _ => by omega⟩
  · have := leading_mul_le h
    rw [hval]
    exact ⟨fun _ => by omega, fun hfalse => absurd hfalse (by decide)⟩
  · have hpos : 0 < tails (k + 1) := Nat.pow_pos (by omega)
    have hlast := low_eq lo
    have hnext := high_eq up
    rw [hlo, VersionBound.leading, ← h] at hlast
    rw [hup, VersionBound.leading] at hnext
    rw [hval, ← hsame, hlast, hnext]
    constructor
    · intro htrue
      apply Nat.mul_le_mul_right
      simp only [Bool.not_eq_true', decide_eq_false_iff_not] at htrue
      omega
    · intro hfalse
      simp only [Bool.not_eq_false', decide_eq_true_eq] at hfalse
      have hlt : up.leading k * 4294967296 + (up.getindex k).toNat + 1 <
          up.leading k * 4294967296 + (lo.getindex k).toNat := by omega
      have := Nat.mul_lt_mul_of_pos_right hlt hpos
      omega

theorem isjoinable_other {up lo : VersionBound} (hother : up.n ≠ lo.n) :
    (isjoinable up lo = true → lo.low ≤ up.high + 1) ∧ (isjoinable up lo = false → up.high < lo.low) := by
  have hlow := leading_le_low (b := lo) (Nat.min_le_right up.n lo.n)
  have hhigh := leading_le_high (b := up) (Nat.min_le_left up.n lo.n)
  rw [isjoinable, if_neg (by omega), if_neg hother]
  rcases compareFirst_cases up lo false true true (min up.n lo.n) with ⟨h, hval⟩ | ⟨h, hval⟩ | ⟨h, hval⟩
  · have := leading_mul_le h
    rw [hval]
    exact ⟨fun hfalse => absurd hfalse Bool.false_ne_true, fun _ => by omega⟩
  · have := leading_mul_le h
    rw [hval]
    exact ⟨fun _ => by omega, fun hfalse => absurd hfalse (by decide)⟩
  · rw [hval]
    refine ⟨fun _ => ?_, fun hfalse => absurd hfalse (by decide)⟩
    by_cases hn : lo.n ≤ up.n
    · rw [Nat.min_eq_right hn] at h hhigh
      have := low_eq lo
      rw [← h] at this
      omega
    · rw [Nat.min_eq_left (by omega)] at h hlow
      have := high_eq up
      rw [h] at this
      omega

-- Two ranges are joined when no version lies between them.
theorem isjoinable_gap (up lo : VersionBound) :
    (isjoinable up lo = true → lo.low ≤ up.high + 1) ∧ (isjoinable up lo = false → up.high < lo.low) := by
  by_cases hsame : up.n = lo.n
  · cases hn : up.n with
    | zero =>
        have hlow : lo.low = 0 := by rw [low_eq lo, ← hsame, hn, VersionBound.leading, Nat.zero_mul]
        rw [isjoinable, if_pos ⟨hn, by omega⟩, hlow]
        exact ⟨fun _ => Nat.zero_le _, fun hfalse => absurd hfalse (by decide)⟩
    | succ k => exact isjoinable_same hn (by omega)
  · exact isjoinable_other hsame

end Comparisons

end Joolia.Version
