import Joolia.Base.Gcd
import Joolia.Base.Range

namespace Joolia.Range

open Gcd Fallible Iteration

section Model

inductive IntersectError
  | range (e : RangeError)
  | arithmetic (e : ArithmeticError)
deriving DecidableEq, Repr

def StepRange.construct (start step stop : Int64) : Except IntersectError StepRange :=
  (StepRange.new start step stop).mapError .range

def firstStepLastAscending (r : StepRange) : Int64 × Int64 × Int64 :=
  if r.step < 0 then (r.stop, -r.step, r.start) else (r.start, r.step, r.stop)

def fld (x y : Int64) : Int64 := Int64.ofInt (x.toInt.fdiv y.toInt)

def mod (x y : Int64) : Int64 := if y = -1 then 0 else x - fld x y * y

def intersect (r s : StepRange) : Except IntersectError StepRange :=
  if isempty r || isempty s then StepRange.construct r.start r.step (r.start - r.step)
  else do
    let (start1, step1, stop1) := firstStepLastAscending r
    let (start2, step2, stop2) := firstStepLastAscending s
    let a ← (lcm step1 step2).mapError .arithmetic
    let (g, x, _) ← (gcdx step1 step2).mapError .arithmetic
    if (start1 - start2) % g ≠ 0 then
      -- unaligned, no overlap possible
      if r.step < 0 then StepRange.construct stop1 (-a) (stop1 + a)
      else StepRange.construct start1 a (start1 - a)
    else
      let z := (start1 - start2) / g
      let b := start1 - x * z * step1
      let m := max (start1 + mod (b - start1) a) (start2 + mod (b - start2) a)
      let n := min (stop1 - mod (stop1 - b) a) (stop2 - mod (stop2 - b) a)
      if r.step < 0 then StepRange.construct n (-a) m else StepRange.construct m a n

end Model

-- The elements of a nonempty range, in its direction.
def elements (r : StepRange) (count : ℕ) : List ℤ := (List.range (count + 1)).map fun (k : ℕ) => r.start.toInt + k * r.step.toInt

section Elements

-- The numbers `start + k * step` on the way to `stop` are the ones of the same class.
theorem mem_progression {start step stop t : ℤ} (hstep : step ≠ 0) :
    (∃ k : ℕ, Between start step stop (start + k * step) ∧ start + k * step = t) ↔ step ∣ t - start ∧ Between start step stop t := by
  constructor
  · rintro ⟨k, hbetween, rfl⟩
    exact ⟨⟨k, by ring⟩, hbetween⟩
  · rintro ⟨⟨j, hj⟩, hbetween⟩
    have hnonneg : 0 ≤ j := by
      by_contra hneg
      unfold Between at hbetween
      split_ifs at hbetween with hpos
      · have hmul := mul_pos hpos (by omega : 0 < -j)
        rw [mul_neg] at hmul
        omega
      · have hmul := mul_pos (by omega : 0 < -step) (by omega : 0 < -j)
        rw [neg_mul_neg] at hmul
        omega
    have ht : start + (j.toNat : ℤ) * step = t := by
      rw [Int.toNat_of_nonneg hnonneg, Int.mul_comm]
      omega
    exact ⟨j.toNat, by rwa [ht], ht⟩

-- The order of a range with this step
def Before (step x y : ℤ) : Prop := if 0 < step then x < y else y < x

theorem pairwise_progression (start : ℤ) {step : ℤ} (hstep : step ≠ 0) (n : ℕ) :
    ((List.range n).map fun k : ℕ => start + k * step).Pairwise (Before step) := by
  rw [List.pairwise_map]
  refine List.pairwise_lt_range.imp fun {i j} hij => ?_
  have hij' : (i : ℤ) < j := by exact_mod_cast hij
  unfold Before
  split_ifs with hpos
  · have hmul := mul_lt_mul_of_pos_right hij' hpos
    omega
  · have hmul := mul_lt_mul_of_pos_right hij' (by omega : 0 < -step)
    rw [mul_neg, mul_neg] at hmul
    omega

-- Two lists in the same order with the same members are equal.
theorem eq_of_before {step : ℤ} {xs ys : List ℤ} (hxs : xs.Pairwise (Before step)) (hys : ys.Pairwise (Before step))
    (h : ∀ t, t ∈ xs ↔ t ∈ ys) : xs = ys := by
  by_cases hpos : 0 < step
  · have hlt : ∀ {x y : ℤ}, Before step x y → x < y := fun {x y} hb => by rwa [Before, if_pos hpos] at hb
    exact (hxs.imp hlt).eq_of_mem_iff (hys.imp hlt) h
  · have hgt : ∀ {x y : ℤ}, Before step x y → x > y := fun {x y} hb => by rwa [Before, if_neg hpos] at hb
    exact (hxs.imp hgt).eq_of_mem_iff (hys.imp hgt) h

theorem mem_elements {r : StepRange} {count : ℕ} (h : Exact r count) (t : ℤ) :
    t ∈ elements r count ↔ r.step.toInt ∣ t - r.start.toInt ∧ Between r.start.toInt r.step.toInt r.stop.toInt t := by
  rw [← mem_progression h.step_ne_zero, elements, List.mem_map]
  refine exists_congr fun k => and_congr_left fun _ => ?_
  rw [List.mem_range, Nat.lt_succ_iff]
  constructor
  · intro hk
    have hbounds := h.bounds hk
    unfold Between
    split_ifs with hpos
    · exact hbounds.1 hpos
    · exact hbounds.2 (by have := h.step_ne_zero; omega)
  · intro hbetween
    by_contra hk
    have hk' : (count : ℤ) < k := by omega
    have hstop := h.2
    unfold Between at hbetween
    split_ifs at hbetween with hpos
    · have hmul := mul_lt_mul_of_pos_right hk' hpos
      omega
    · have hneg : 0 < -r.step.toInt := by have := h.step_ne_zero; omega
      have hmul := mul_lt_mul_of_pos_right hk' hneg
      rw [mul_neg, mul_neg] at hmul
      omega

theorem pairwise_elements {r : StepRange} {count : ℕ} (h : Exact r count) : (elements r count).Pairwise (Before r.step.toInt) :=
  pairwise_progression _ h.step_ne_zero _

-- The range the constructor makes, as the list of what its iteration yields.
theorem construct_spec (start step stop : Int64) (hstep : step.toInt ≠ 0) :
    ∃ q xs, StepRange.construct start step stop = .ok q ∧ Yields (iterateFrom q) (iterate q) xs ∧
      (∀ t, t ∈ xs.map Int64.toInt ↔ step.toInt ∣ t - start.toInt ∧ Between start.toInt step.toInt stop.toInt t) ∧
      (xs.map Int64.toInt).Pairwise (Before step.toInt) := by
  have hne : step ≠ 0 := by
    rintro rfl
    exact hstep Int64.toInt_zero
  obtain ⟨q, n, xs, hnew, -, -, hn, -, -, hyields, hxs, -⟩ := steprange_exact start step stop hne
  refine ⟨q, xs, by rw [StepRange.construct, hnew]; rfl, hyields, fun t => ?_, ?_⟩
  · rw [← mem_progression hstep, hxs, List.mem_map]
    refine exists_congr fun k => and_congr_left fun _ => ?_
    rw [List.mem_range, hn]
  · rw [hxs]
    exact pairwise_progression _ hstep n

end Elements

section Classes

-- A wrap of `x` changes it by a multiple of `n`.
def Harmless (n x : ℤ) : Prop := n ∣ x.bmod (2 ^ 64) - x
deriving Decidable

def Fits (x : ℤ) : Prop := -2 ^ 63 ≤ x ∧ x < 2 ^ 63
deriving Decidable

-- The first number of the class of `c` that is not below `lo`
def firstFrom (lo c a : ℤ) : ℤ := lo + (c - lo) % a

def lastUpTo (hi c a : ℤ) : ℤ := hi - (hi - c) % a

theorem firstFrom_modEq (lo c a : ℤ) : a ∣ c - firstFrom lo c a := by
  have h : c - firstFrom lo c a = (c - lo) - (c - lo) % a := by rw [firstFrom]; ring
  rw [h]
  exact Int.dvd_self_sub_emod

theorem lastUpTo_modEq (hi c a : ℤ) : a ∣ lastUpTo hi c a - c := by
  have h : lastUpTo hi c a - c = (hi - c) - (hi - c) % a := by rw [lastUpTo]; ring
  rw [h]
  exact Int.dvd_self_sub_emod

theorem max_firstFrom_modEq (lo1 lo2 c a : ℤ) : a ∣ c - max (firstFrom lo1 c a) (firstFrom lo2 c a) := by
  rcases max_choice (firstFrom lo1 c a) (firstFrom lo2 c a) with h | h <;> rw [h] <;> exact firstFrom_modEq _ _ _

theorem min_lastUpTo_modEq (hi1 hi2 c a : ℤ) : a ∣ c - min (lastUpTo hi1 c a) (lastUpTo hi2 c a) := by
  rw [← neg_sub, Int.dvd_neg]
  rcases min_choice (lastUpTo hi1 c a) (lastUpTo hi2 c a) with h | h <;> rw [h] <;> exact lastUpTo_modEq _ _ _

theorem firstFrom_le_iff {l c a t : ℤ} (ha : 0 < a) (ht : a ∣ t - c) : firstFrom l c a ≤ t ↔ l ≤ t := by
  have hmod : (c - l) % a = (t - l) % a := by
    refine (Int.emod_emod_of_dvd _ dvd_rfl).symm.trans ?_
    rw [Int.emod_emod_of_dvd _ dvd_rfl, ← Int.ModEq]
    exact Int.modEq_iff_dvd.2 (by rwa [sub_sub_sub_cancel_right])
  have hnonneg := Int.emod_nonneg (c - l) ha.ne'
  rw [firstFrom]
  constructor
  · omega
  · intro hle
    obtain ⟨k, hk⟩ := Int.eq_ofNat_of_zero_le (by omega : 0 ≤ t - l)
    obtain ⟨j, rfl⟩ := Int.eq_ofNat_of_zero_le ha.le
    have hself := Nat.mod_le k j
    rw [hmod, hk, ← Int.natCast_emod]
    omega

theorem le_lastUpTo_iff {hi c a t : ℤ} (ha : 0 < a) (ht : a ∣ t - c) : t ≤ lastUpTo hi c a ↔ t ≤ hi := by
  have h := firstFrom_le_iff (l := -hi) (c := -c) (t := -t) ha (by rw [neg_sub_neg, ← neg_sub]; exact Int.dvd_neg.2 ht)
  have heq : firstFrom (-hi) (-c) a = -lastUpTo hi c a := by rw [firstFrom, lastUpTo, neg_sub_neg]; ring
  rw [heq] at h
  omega

-- The numbers of two classes with a common one are the class of that one modulo the least common multiple.
theorem common_iff {n m : ℕ} {lo1 lo2 c : ℤ} (h1 : (n : ℤ) ∣ c - lo1) (h2 : (m : ℤ) ∣ c - lo2) (t : ℤ) :
    (n : ℤ) ∣ t - lo1 ∧ (m : ℤ) ∣ t - lo2 ↔ (Nat.lcm n m : ℤ) ∣ t - c := by
  have hshift : ∀ {k lo : ℤ}, k ∣ c - lo → (k ∣ t - lo ↔ k ∣ t - c) := fun {k lo} h => by
    exact Int.dvd_iff_dvd_of_dvd_sub (by rwa [sub_sub_sub_cancel_left])
  rw [hshift h1, hshift h2]
  constructor
  · rintro ⟨hn, hm⟩
    exact_mod_cast Int.coe_lcm_dvd hn hm
  · intro h
    exact ⟨(Int.natCast_dvd_natCast.2 (Nat.dvd_lcm_left n m)).trans h, (Int.natCast_dvd_natCast.2 (Nat.dvd_lcm_right n m)).trans h⟩

end Classes

section Ascending

def lowest (r : StepRange) : ℤ := if r.step < 0 then r.stop.toInt else r.start.toInt

def highest (r : StepRange) : ℤ := if r.step < 0 then r.start.toInt else r.stop.toInt

def stepSize (r : StepRange) : ℕ := r.step.toInt.natAbs

theorem step_neg_iff (r : StepRange) : r.step < 0 ↔ r.step.toInt < 0 := by
  rw [Int64.lt_iff_toInt_lt, Int64.toInt_zero]

theorem toInt_neg_of_lt {x : Int64} (h : x.toInt.natAbs < 2 ^ 63) : (-x).toInt = -x.toInt := by
  rw [Int64.toInt_neg, Int.bmod_eq_of_le (by omega) (by omega)]

-- The smallest step stays negative, which only `lcm` notices.
theorem ascending_spec (r : StepRange) : ∃ start step stop, firstStepLastAscending r = (start, step, stop) ∧
    start.toInt = lowest r ∧ stop.toInt = highest r ∧ step.toInt.natAbs = stepSize r ∧
    (stepSize r < 2 ^ 63 → step.toInt = stepSize r) := by
  unfold firstStepLastAscending lowest highest stepSize
  have hneg := step_neg_iff r
  split_ifs with h
  · rw [hneg] at h
    refine ⟨_, _, _, rfl, rfl, rfl, ?_, fun hlt => ?_⟩
    · by_cases hlt : r.step.toInt.natAbs < 2 ^ 63
      · rw [toInt_neg_of_lt hlt, Int.natAbs_neg]
      · have hmin : r.step = Int64.minValue := by
          by_contra hne
          exact hlt (natAbs_lt_of_ne hne)
        rw [hmin]
        decide
    · rw [toInt_neg_of_lt hlt]
      omega
  · rw [hneg] at h
    exact ⟨_, _, _, rfl, rfl, rfl, rfl, fun _ => by omega⟩

theorem mem_elements_iff {r : StepRange} {count : ℕ} (h : Exact r count) (t : ℤ) :
    t ∈ elements r count ↔ (stepSize r : ℤ) ∣ t - lowest r ∧ lowest r ≤ t ∧ t ≤ highest r := by
  have hne := h.step_ne_zero
  rw [mem_elements h, stepSize, Int.natAbs_dvd]
  unfold Between lowest highest
  by_cases hneg : r.step.toInt < 0
  · have hstep := (step_neg_iff r).2 hneg
    have hdvd : r.step.toInt ∣ (t - r.stop.toInt) - (t - r.start.toInt) := by
      rw [sub_sub_sub_cancel_left, h.2]
      exact ⟨-count, by ring⟩
    rw [if_pos hstep, if_pos hstep, if_neg (by omega), Int.dvd_iff_dvd_of_dvd_sub hdvd]
  · have hstep := mt (step_neg_iff r).1 hneg
    rw [if_neg hstep, if_neg hstep, if_pos (by omega)]

theorem mod_spec (x : Int64) {y : Int64} (hy : 0 < y.toInt) : (mod x y).toInt = x.toInt % y.toInt := by
  have hne : y ≠ -1 := by
    rintro rfl
    exact absurd hy (by decide)
  have hlo := x.le_toInt
  have hhi := x.toInt_lt
  have hylt := y.toInt_lt
  have hnonneg := Int.emod_nonneg x.toInt hy.ne'
  have hlt := Int.emod_lt_of_pos x.toInt hy
  have hsplit := Int.emod_add_mul_ediv x.toInt y.toInt
  have hfld : (fld x y).toInt ≡ x.toInt / y.toInt [ZMOD 2 ^ 64] := by
    rw [fld, Int64.toInt_ofInt, Int.fdiv_eq_ediv_of_nonneg _ hy.le]
    exact Int.bmod_emod
  have hmod : (x - fld x y * y).toInt ≡ x.toInt % y.toInt [ZMOD 2 ^ 64] := by
    refine (toInt_modEq_sub _ _).trans (((Int.ModEq.refl x.toInt).sub ((toInt_modEq_mul _ _).trans (hfld.mul_right _))).trans ?_)
    rw [show x.toInt - x.toInt / y.toInt * y.toInt = x.toInt % y.toInt by rw [Int.mul_comm]; omega]
  have hbounds := (x - fld x y * y).le_toInt
  have hbounds' := (x - fld x y * y).toInt_lt
  rw [mod, if_neg hne]
  rw [Int.ModEq] at hmod
  omega

theorem toInt_eq_bmod {x : Int64} {i : ℤ} (h : x.toInt ≡ i [ZMOD 2 ^ 64]) : x.toInt = i.bmod (2 ^ 64) := by
  have hlo := x.le_toInt
  have hhi := x.toInt_lt
  have hself : x.toInt.bmod (2 ^ 64) = x.toInt := Int.bmod_eq_of_le (by omega) (by omega)
  have hmod : x.toInt % (2 ^ 64 : ℕ) = i % (2 ^ 64 : ℕ) := h
  rw [← hself, ← Int.emod_bmod, hmod, Int.emod_bmod]

theorem bmod_of_fits {x : ℤ} (h : Fits x) : x.bmod (2 ^ 64) = x :=
  Int.bmod_eq_of_le (by have := h.1; omega) (by have := h.2; omega)

end Ascending

section Intersect

-- The number from which the code counts, before any wrap of the product
def commonPoint (r s : StepRange) : ℤ :=
  lowest r - bezout (stepSize r) (stepSize s) *
    ((lowest r - lowest s).bmod (2 ^ 64) / Nat.gcd (stepSize r) (stepSize s)) * stepSize r

-- No wrap on the way to the first and the last common element is seen by the remainders.
def ExactPoints (r s : StepRange) (c : ℤ) (a : ℕ) : Prop :=
  (∀ x ∈ [c - lowest r, c - lowest s, highest r - c, highest s - c], Harmless a x) ∧
  ∀ x ∈ [firstFrom (lowest r) c a, firstFrom (lowest s) c a, lastUpTo (highest r) c a, lastUpTo (highest s) c a], Fits x
deriving Decidable

def Safe (r s : StepRange) : Prop :=
  let a := Nat.lcm (stepSize r) (stepSize s)
  let g := Nat.gcd (stepSize r) (stepSize s)
  a < 2 ^ 63 →
    if (g : ℤ) ∣ (lowest r - lowest s).bmod (2 ^ 64) then
      Harmless (stepSize s) (lowest r - lowest s) ∧ ExactPoints r s (commonPoint r s) a
    else Harmless g (lowest r - lowest s) ∧ Fits (if r.step < 0 then highest r + a else lowest r - a)
deriving Decidable

-- What `intersect` returns is the list of the common elements in the order of `r`.
def Intersects (r s : StepRange) (m n : ℕ) : Prop :=
  ∀ q, intersect r s = .ok q → ∃ xs, Yields (iterateFrom q) (iterate q) xs ∧
    xs.map Int64.toInt = (elements r m).filter (· ∈ elements s n)

theorem firstFrom_spec {start b a : Int64} {c : ℤ} (hb : b.toInt ≡ c [ZMOD 2 ^ 64]) (ha : 0 < a.toInt)
    (hharmless : Harmless a.toInt (c - start.toInt)) (hfits : Fits (firstFrom start.toInt c a.toInt)) :
    (start + mod (b - start) a).toInt = firstFrom start.toInt c a.toInt := by
  have hdiff : (b - start).toInt = (c - start.toInt).bmod (2 ^ 64) :=
    toInt_eq_bmod ((toInt_modEq_sub _ _).trans (hb.sub_right _))
  have hmod : (c - start.toInt).bmod (2 ^ 64) % a.toInt = (c - start.toInt) % a.toInt :=
    (Int.modEq_iff_dvd.2 hharmless).symm
  rw [Int64.toInt_add, mod_spec _ ha, hdiff, hmod]
  exact bmod_of_fits hfits

theorem lastUpTo_spec {stop b a : Int64} {c : ℤ} (hb : b.toInt ≡ c [ZMOD 2 ^ 64]) (ha : 0 < a.toInt)
    (hharmless : Harmless a.toInt (stop.toInt - c)) (hfits : Fits (lastUpTo stop.toInt c a.toInt)) :
    (stop - mod (stop - b) a).toInt = lastUpTo stop.toInt c a.toInt := by
  have hdiff : (stop - b).toInt = (stop.toInt - c).bmod (2 ^ 64) :=
    toInt_eq_bmod ((toInt_modEq_sub _ _).trans (hb.sub_left _))
  have hmod : (stop.toInt - c).bmod (2 ^ 64) % a.toInt = (stop.toInt - c) % a.toInt :=
    (Int.modEq_iff_dvd.2 hharmless).symm
  rw [Int64.toInt_sub, mod_spec _ ha, hdiff, hmod]
  exact bmod_of_fits hfits

theorem toInt_max (x y : Int64) : (max x y).toInt = max x.toInt y.toInt := by
  have hdef : max x y = if x ≤ y then y else x := rfl
  rw [hdef]
  split_ifs with h
  · rw [max_eq_right (Int64.le_iff_toInt_le.1 h)]
  · rw [max_eq_left (by rw [Int64.le_iff_toInt_le] at h; omega)]

theorem toInt_min (x y : Int64) : (min x y).toInt = min x.toInt y.toInt := by
  have hdef : min x y = if x ≤ y then x else y := rfl
  rw [hdef]
  split_ifs with h
  · rw [min_eq_left (Int64.le_iff_toInt_le.1 h)]
  · rw [min_eq_right (by rw [Int64.le_iff_toInt_le] at h; omega)]

-- The counting point is in the class of either range.
theorem commonPoint_modEq {r s : StepRange} (hpos : 0 < stepSize r)
    (hdvd : (Nat.gcd (stepSize r) (stepSize s) : ℤ) ∣ (lowest r - lowest s).bmod (2 ^ 64))
    (hharmless : Harmless (stepSize s) (lowest r - lowest s)) :
    (stepSize r : ℤ) ∣ commonPoint r s - lowest r ∧ (stepSize s : ℤ) ∣ commonPoint r s - lowest s := by
  obtain ⟨z, hz⟩ := hdvd
  have hg : (Nat.gcd (stepSize r) (stepSize s) : ℤ) ≠ 0 := by
    have := Nat.gcd_pos_of_pos_left (stepSize s) hpos
    omega
  rw [commonPoint, hz, Int.mul_ediv_cancel_left z hg]
  refine ⟨?_, ?_⟩
  · rw [sub_sub_cancel_left]
    exact Int.dvd_neg.2 (Int.dvd_mul_left _ _)
  · have hbezout := ((bezout_spec (stepSize r) (stepSize s)).mul_right z).dvd
    rw [Harmless, hz] at hharmless
    have hsplit := Int.dvd_sub hbezout hharmless
    rwa [show ∀ b n g z d2 : ℤ, g * z - b * n * z - (g * z - d2) = d2 - b * z * n from fun b n g z d2 => by ring,
      sub_right_comm] at hsplit

-- Every common element is of the class of the counting point and between the first and the last one.
theorem mem_common_iff {r s : StepRange} {m n : ℕ} (hr : Exact r m) (hs : Exact s n) {c : ℤ} {a : ℕ}
    (ha : a = Nat.lcm (stepSize r) (stepSize s)) (hpos : 0 < a)
    (h1 : (stepSize r : ℤ) ∣ c - lowest r) (h2 : (stepSize s : ℤ) ∣ c - lowest s) (t : ℤ) :
    t ∈ (elements r m).filter (· ∈ elements s n) ↔ (a : ℤ) ∣ t - c ∧
      max (firstFrom (lowest r) c a) (firstFrom (lowest s) c a) ≤ t ∧ t ≤ min (lastUpTo (highest r) c a) (lastUpTo (highest s) c a) := by
  rw [List.mem_filter, decide_eq_true_iff, mem_elements_iff hr, mem_elements_iff hs, max_le_iff, le_min_iff]
  have hcommon := common_iff h1 h2 t
  rw [← ha] at hcommon
  have hpos' : 0 < (a : ℤ) := by exact_mod_cast hpos
  constructor
  · rintro ⟨⟨hdvd1, hlo1, hhi1⟩, hdvd2, hlo2, hhi2⟩
    have hdvd := hcommon.1 ⟨hdvd1, hdvd2⟩
    exact ⟨hdvd, ⟨(firstFrom_le_iff hpos' hdvd).2 hlo1, (firstFrom_le_iff hpos' hdvd).2 hlo2⟩,
      (le_lastUpTo_iff hpos' hdvd).2 hhi1, (le_lastUpTo_iff hpos' hdvd).2 hhi2⟩
  · rintro ⟨hdvd, ⟨hlo1, hlo2⟩, hhi1, hhi2⟩
    rw [firstFrom_le_iff hpos' hdvd] at hlo1 hlo2
    rw [le_lastUpTo_iff hpos' hdvd] at hhi1 hhi2
    obtain ⟨hdvd1, hdvd2⟩ := hcommon.2 hdvd
    exact ⟨⟨hdvd1, hlo1, hhi1⟩, hdvd2, hlo2, hhi2⟩

-- Ranges of classes without a common number
theorem common_eq_nil {r s : StepRange} {m n : ℕ} (hr : Exact r m) (hs : Exact s n)
    (hdvd : ¬(Nat.gcd (stepSize r) (stepSize s) : ℤ) ∣ (lowest r - lowest s).bmod (2 ^ 64))
    (hharmless : Harmless (Nat.gcd (stepSize r) (stepSize s)) (lowest r - lowest s)) :
    (elements r m).filter (· ∈ elements s n) = [] := by
  refine List.filter_eq_nil_iff.2 fun t hr' hs' => hdvd ?_
  rw [decide_eq_true_iff, mem_elements_iff hs] at hs'
  rw [mem_elements_iff hr] at hr'
  rw [Int.dvd_iff_dvd_of_dvd_sub hharmless, ← sub_sub_sub_cancel_left _ _ t]
  exact Int.dvd_sub ((Int.natCast_dvd_natCast.2 (Nat.gcd_dvd_right _ _)).trans hs'.1)
    ((Int.natCast_dvd_natCast.2 (Nat.gcd_dvd_left _ _)).trans hr'.1)

-- A range with this step in the direction of `r` that holds the common elements is the list of them.
theorem construct_common {r s : StepRange} {m n : ℕ} (hr : Exact r m) {start step stop : Int64}
    (hstep : step.toInt ≠ 0) (hsign : 0 < step.toInt ↔ 0 < r.step.toInt)
    (hmem : ∀ t, (step.toInt ∣ t - start.toInt ∧ Between start.toInt step.toInt stop.toInt t) ↔ t ∈ (elements r m).filter (· ∈ elements s n))
    {q : StepRange} (hq : StepRange.construct start step stop = .ok q) :
    ∃ xs, Yields (iterateFrom q) (iterate q) xs ∧ xs.map Int64.toInt = (elements r m).filter (· ∈ elements s n) := by
  obtain ⟨q', xs, hq', hyields, hxs, hpairwise⟩ := construct_spec start step stop hstep
  obtain rfl : q' = q := Except.ok.inj (hq'.symm.trans hq)
  refine ⟨xs, hyields, eq_of_before hpairwise ?_ fun t => (hxs t).trans (hmem t)⟩
  refine ((pairwise_elements hr).filter _).imp fun {x y} hb => ?_
  unfold Before at hb ⊢
  rwa [if_congr hsign rfl rfl]

theorem rem_eq_zero_iff (x g : Int64) : x % g = 0 ↔ g.toInt ∣ x.toInt := by
  rw [← Int64.toInt_inj, Int64.toInt_mod, Int64.toInt_zero]
  exact Int.dvd_iff_tmod_eq_zero.symm

theorem stepSize_pos {r : StepRange} {m : ℕ} (hr : Exact r m) : 0 < stepSize r := Int.natAbs_pos.2 hr.step_ne_zero

theorem ne_zero_of_natAbs {x : Int64} {n : ℕ} (hpos : 0 < n) (h : x.toInt.natAbs = n) : x ≠ 0 := by
  rintro rfl
  rw [← h] at hpos
  exact absurd hpos (by decide)

-- What `intersect` does with ranges that are not empty
theorem intersect_cases {r s : StepRange} {m n : ℕ} (hr : Exact r m) (hs : Exact s n) :
    (2 ^ 63 ≤ Nat.lcm (stepSize r) (stepSize s) ∧ ∃ e, intersect r s = .error e) ∨
    ∃ start1 stop1 start2 stop2 a b : Int64, start1.toInt = lowest r ∧ stop1.toInt = highest r ∧
      start2.toInt = lowest s ∧ stop2.toInt = highest s ∧
      a.toInt = Nat.lcm (stepSize r) (stepSize s) ∧
      ((Nat.gcd (stepSize r) (stepSize s) : ℤ) ∣ (lowest r - lowest s).bmod (2 ^ 64) → b.toInt ≡ commonPoint r s [ZMOD 2 ^ 64]) ∧
      intersect r s = if (Nat.gcd (stepSize r) (stepSize s) : ℤ) ∣ (lowest r - lowest s).bmod (2 ^ 64) then
          let m := max (start1 + mod (b - start1) a) (start2 + mod (b - start2) a)
          let n := min (stop1 - mod (stop1 - b) a) (stop2 - mod (stop2 - b) a)
          if r.step < 0 then StepRange.construct n (-a) m else StepRange.construct m a n
        else if r.step < 0 then StepRange.construct stop1 (-a) (stop1 + a) else StepRange.construct start1 a (start1 - a) := by
  obtain ⟨start1, step1, stop1, hasc1, hlo1, hhi1, habs1, hstep1⟩ := ascending_spec r
  obtain ⟨start2, step2, stop2, hasc2, hlo2, hhi2, habs2, hstep2⟩ := ascending_spec s
  have hpos1 := stepSize_pos hr
  have hpos2 := stepSize_pos hs
  have hgpos := Nat.gcd_pos_of_pos_left (stepSize s) hpos1
  rw [intersect, hr.isempty, hs.isempty, hasc1, hasc2]
  dsimp only
  rcases lcm_spec (ne_zero_of_natAbs hpos1 habs1) (ne_zero_of_natAbs hpos2 habs2) with ⟨hlt, a, hlcm, ha⟩ | ⟨hle, hlcm⟩
  · rw [habs1, habs2] at hlt ha
    have hle1 := Nat.le_of_dvd (Nat.lcm_pos hpos1 hpos2) (Nat.dvd_lcm_left (stepSize r) (stepSize s))
    have hle2 := Nat.le_of_dvd (Nat.lcm_pos hpos1 hpos2) (Nat.dvd_lcm_right (stepSize r) (stepSize s))
    replace hstep1 := hstep1 (by omega)
    replace hstep2 := hstep2 (by omega)
    obtain ⟨g, x, y, hgcdx, hg, hx⟩ := gcdx_spec (a := step1) (b := step2) (by omega) (by omega)
    rw [habs1, habs2] at hg hx
    have hdiff : (start1 - start2).toInt = (lowest r - lowest s).bmod (2 ^ 64) := by
      rw [Int64.toInt_sub, hlo1, hlo2]
    have hsplit := rem_eq_zero_iff (start1 - start2) g
    rw [hdiff, hg] at hsplit
    refine .inr ⟨start1, stop1, start2, stop2, a, start1 - x * ((start1 - start2) / g) * step1, hlo1, hhi1, hlo2, hhi2, ha, ?_, ?_⟩
    · intro haligned
      have hz : ((start1 - start2) / g).toInt = (lowest r - lowest s).bmod (2 ^ 64) / Nat.gcd (stepSize r) (stepSize s) := by
        rw [toInt_div_of_pos _ (by omega), hdiff, hg]
        exact Int.tdiv_eq_ediv_of_dvd haligned
      refine (toInt_modEq_sub _ _).trans ?_
      rw [commonPoint, ← hz, ← hstep1, hlo1]
      exact ((toInt_modEq_mul _ _).trans (((toInt_modEq_mul _ _).trans (hx.mul_right _)).mul_right _)).sub_left _
    · rw [hlcm, hgcdx, if_neg (by decide)]
      change (if (start1 - start2) % g ≠ 0 then _ else _) = _
      by_cases haligned : (Nat.gcd (stepSize r) (stepSize s) : ℤ) ∣ (lowest r - lowest s).bmod (2 ^ 64)
      · rw [if_pos haligned, if_neg (not_not.2 (hsplit.2 haligned))]
      · rw [if_neg haligned, if_pos (mt hsplit.1 haligned)]
  · rw [hlcm]
    rw [habs1, habs2] at hle
    exact .inl ⟨hle, _, rfl⟩

theorem intersect_of_safe {r s : StepRange} {m n : ℕ} (hr : Exact r m) (hs : Exact s n) (hsafe : Safe r s) :
    Intersects r s m n := by
  intro q hq
  rcases intersect_cases hr hs with ⟨-, e, herr⟩ | ⟨start1, stop1, start2, stop2, a, b, hlo1, hhi1, hlo2, hhi2, ha, hb, hok⟩
  · rw [herr] at hq
    cases hq
  · have hpos := Nat.lcm_pos (stepSize_pos hr) (stepSize_pos hs)
    have halt := a.toInt_lt
    have hneg : (-a).toInt = -a.toInt := toInt_neg_of_lt (by omega)
    have hne := hr.step_ne_zero
    replace hsafe := hsafe (by omega)
    rw [hok] at hq
    by_cases haligned : (Nat.gcd (stepSize r) (stepSize s) : ℤ) ∣ (lowest r - lowest s).bmod (2 ^ 64)
    · rw [if_pos haligned] at hsafe hq
      obtain ⟨hharmless, hclasses, hfits⟩ := hsafe
      obtain ⟨h1, h2⟩ := commonPoint_modEq (stepSize_pos hr) haligned hharmless
      simp only [List.forall_mem_cons, ← ha, ← hlo1, ← hlo2, ← hhi1, ← hhi2] at hclasses hfits
      have hm := toInt_max (start1 + mod (b - start1) a) (start2 + mod (b - start2) a)
      have hn := toInt_min (stop1 - mod (stop1 - b) a) (stop2 - mod (stop2 - b) a)
      rw [firstFrom_spec (hb haligned) (by omega) hclasses.1 hfits.1,
        firstFrom_spec (hb haligned) (by omega) hclasses.2.1 hfits.2.1, hlo1, hlo2, ha] at hm
      rw [lastUpTo_spec (hb haligned) (by omega) hclasses.2.2.1 hfits.2.2.1,
        lastUpTo_spec (hb haligned) (by omega) hclasses.2.2.2.1 hfits.2.2.2.1, hhi1, hhi2, ha] at hn
      have hmem := mem_common_iff hr hs rfl hpos h1 h2
      by_cases hdesc : r.step < 0
      · have hdesc' := (step_neg_iff r).1 hdesc
        rw [if_pos hdesc] at hq
        refine construct_common hr (by omega) (by omega) (fun t => ?_) hq
        rw [hmem, hm, hn, hneg, Between, if_neg (by omega), Int.neg_dvd, ha]
        refine and_congr_left fun _ => Int.dvd_iff_dvd_of_dvd_sub ?_
        rw [sub_sub_sub_cancel_left]
        exact min_lastUpTo_modEq _ _ _ _
      · have hdesc' := mt (step_neg_iff r).2 hdesc
        rw [if_neg hdesc] at hq
        refine construct_common hr (by omega) (by omega) (fun t => ?_) hq
        rw [hmem, hm, hn, Between, if_pos (by omega), ha]
        refine and_congr_left fun _ => Int.dvd_iff_dvd_of_dvd_sub ?_
        rw [sub_sub_sub_cancel_left]
        exact max_firstFrom_modEq _ _ _ _
    · rw [if_neg haligned] at hsafe hq
      have hnil := common_eq_nil hr hs haligned hsafe.1
      by_cases hdesc : r.step < 0
      · have hdesc' := (step_neg_iff r).1 hdesc
        rw [if_pos hdesc] at hq hsafe
        refine construct_common hr (by omega) (by omega) (fun t => ?_) hq
        have hstop : (stop1 + a).toInt = highest r + a.toInt := by
          rw [Int64.toInt_add, hhi1, ha]
          exact bmod_of_fits hsafe.2
        rw [hnil, hstop, Between, if_neg (by omega)]
        refine iff_of_false (fun h => ?_) List.not_mem_nil
        omega
      · have hdesc' := mt (step_neg_iff r).2 hdesc
        rw [if_neg hdesc] at hq hsafe
        refine construct_common hr (by omega) (by omega) (fun t => ?_) hq
        have hstop : (start1 - a).toInt = lowest r - a.toInt := by
          rw [Int64.toInt_sub, hlo1, ha]
          exact bmod_of_fits hsafe.2
        rw [hnil, hstop, Between, if_pos (by omega)]
        refine iff_of_false (fun h => ?_) List.not_mem_nil
        omega

-- Evens and odds; the stop of the empty range, a step below the start, wraps.
theorem intersect_wrong : ∃ (r s : StepRange) (m n : ℕ), Exact r m ∧ Exact s n ∧ ¬Intersects r s m n := by
  have hr : Exact ⟨Int64.minValue, 2, 0⟩ (2 ^ 62) := ⟨by decide, by decide⟩
  have hs : Exact ⟨Int64.minValue + 1, 2, 1⟩ (2 ^ 62) := ⟨by decide, by decide⟩
  refine ⟨_, _, _, _, hr, hs, fun h => ?_⟩
  obtain ⟨xs, hyields, hxs⟩ := h ⟨Int64.minValue, 2, Int64.maxValue - 1⟩ (by set_option maxRecDepth 20000 in decide)
  have hfirst : iterate ⟨Int64.minValue, 2, Int64.maxValue - 1⟩ = some (Int64.minValue, Int64.minValue) := by decide
  rw [hfirst] at hyields
  cases hyields with
  | @step _ _ rest _ =>
      have hmem : Int64.minValue.toInt ∈ (Int64.minValue :: rest).map Int64.toInt := List.mem_cons_self
      rw [hxs, List.mem_filter, decide_eq_true_iff, mem_elements hs] at hmem
      exact absurd hmem.2.1 (by decide)

-- The multiples of 6 from 18 down to 0
theorem intersect_of_safe_six : Intersects ⟨20, -2, 0⟩ ⟨-3, 3, 18⟩ 10 7 :=
  intersect_of_safe ⟨by decide, by decide⟩ ⟨by decide, by decide⟩ (by decide +kernel)

end Intersect

end Joolia.Range
