import Joolia.Library.Iteration
import Mathlib.Algebra.Ring.Int.Defs
import Mathlib.Algebra.Ring.Nat
import Mathlib.Data.Int.Basic
import Mathlib.Tactic.Linarith
import Mathlib.Tactic.Ring

namespace Joolia.Range

-- The errors the integer constructor of a `StepRange` can raise.
inductive RangeError
  | ArgumentError (msg : String)
  | InexactError
  deriving DecidableEq, Repr

-- int.jl: `flipsign(x, y)` negates `x` when `y` is negative. Negation wraps, so
-- `abs(typemin(Int64))` is `typemin(Int64)`.
def flipsign (x y : Int64) : Int64 :=
  if y < 0 then -x else x

def abs (x : Int64) : Int64 :=
  flipsign x x

-- int.jl: `rem(x::Unsigned, y::BitSigned)`.
def remUnsigned (x : UInt64) (y : Int64) : UInt64 :=
  x % (abs y).toUInt64

-- int.jl: `div(x::Unsigned, y::BitSigned)`.
def divUnsigned (x : UInt64) (y : Int64) : UInt64 :=
  (flipsign (x / (abs y).toUInt64).toInt64 y).toUInt64

-- `convert(Int64, x::UInt64)` refuses a value past `typemax(Int64)`.
def convertSigned (x : UInt64) : Except RangeError Int64 :=
  if x.toNat < 2 ^ 63 then .ok x.toInt64 else .error .InexactError

structure StepRange where
  start : Int64
  step : Int64
  stop : Int64
  deriving DecidableEq, Repr

-- An empty range is stored with `stop` one unit on the wrong side of `start`.
def steprangeLastEmpty (start step : Int64) : Int64 :=
  if step > 0 then start - 1 else start + 1

-- A negative difference is one that overflowed; its unsigned reading is exact, and
-- the source computes the remainder of that reading in `overflow_case`.
def remainder (absdiff absstep : Int64) : Except RangeError Int64 :=
  if absdiff < 0 then convertSigned (remUnsigned absdiff.toUInt64 absstep)
  else .ok (absdiff % absstep)

-- The checks for floating point and non-integer steps never fire at `Int64`.
-- The operators `-`, `+` and `-%` all wrap at this type.
def steprangeLast (start step stop : Int64) : Except RangeError Int64 :=
  if step = 0 then .error (.ArgumentError "step cannot be zero")
  else if stop = start then .ok stop
  else if decide (step > 0) != decide (stop > start) then .ok (steprangeLastEmpty start step)
  else do
    let absdiff := if stop > start then stop - start else start - stop
    let absstep := if stop > start then step else -step
    let remain ← remainder absdiff absstep
    .ok (if stop > start then stop - remain else stop + remain)

def StepRange.new (start step stop : Int64) : Except RangeError StepRange := do
  let last ← steprangeLast start step stop
  .ok ⟨start, step, last⟩

def isempty (r : StepRange) : Bool :=
  decide (r.start ≠ r.stop) && (decide (r.step > 0) != decide (r.stop > r.start))

-- `length(r::OrdinalRange{T}) where T<:bigints`.
def length (r : StepRange) : Int64 :=
  let diff := r.stop - r.start
  if isempty r then 0
  else
    let a := (divUnsigned (flipsign diff r.step).toUInt64 r.step).toInt64
    flipsign a r.step + 1

-- `iterate(r)`; element and state coincide.
def iterate (r : StepRange) : Option (Int64 × Int64) :=
  if isempty r then none else some (r.start, r.start)

-- `iterate(r, i)`.
def iterateFrom (r : StepRange) (i : Int64) : Option (Int64 × Int64) :=
  if i = r.stop then none else some (i + r.step, i + r.step)

end Joolia.Range

namespace Joolia.Range

open Iteration

-- `x` lies on the way from `start` to the requested `stop`.
def Between (start step stop x : ℤ) : Prop :=
  if 0 < step then start ≤ x ∧ x ≤ stop else stop ≤ x ∧ x ≤ start

instance (start step stop x : ℤ) : Decidable (Between start step stop x) :=
  inferInstanceAs (Decidable (if 0 < step then start ≤ x ∧ x ≤ stop else stop ≤ x ∧ x ≤ start))

-- The number of whole steps from `start` to the requested `stop`.
def stepCount (start step stop : ℤ) : ℕ := (stop - start).natAbs / step.natAbs

-- The number of elements of the range.
def elementCount (start step stop : ℤ) : ℕ :=
  if Between start step stop start then stepCount start step stop + 1 else 0

theorem toInt_eq_of_bounds {x : Int64} {i : ℤ} (h : x.toInt = i.bmod (2 ^ 64))
    (hlo : -2 ^ 63 ≤ i) (hhi : i < 2 ^ 63) : x.toInt = i := by
  rw [h]
  exact Int.bmod_eq_of_le (by omega) (by omega)

theorem bmod_emod_size (i : ℤ) : i.bmod (2 ^ 64) % 2 ^ 64 = i % 2 ^ 64 := by
  rw [Int.bmod_def]
  split <;> omega

theorem toNat_toUInt64 (x : Int64) : (x.toUInt64.toNat : ℤ) = x.toInt % 2 ^ 64 := by
  have h : x.toInt = Int.bmod x.toUInt64.toNat (2 ^ 64) := BitVec.toInt_eq_toNat_bmod x.toBitVec
  have hlt := x.toUInt64.toNat_lt
  rw [h, Int.bmod_def]
  split <;> omega

theorem toInt_toInt64 (x : UInt64) : x.toInt64.toInt = (x.toNat : ℤ).bmod (2 ^ 64) :=
  BitVec.toInt_eq_toNat_bmod x.toBitVec

theorem toInt_flipsign (x y : Int64) :
    (flipsign x y).toInt = if y.toInt < 0 then (-x.toInt).bmod (2 ^ 64) else x.toInt := by
  simp only [flipsign, Int64.lt_iff_toInt_lt, Int64.toInt_zero]
  split
  · exact Int64.toInt_neg x
  · rfl

theorem flipsign_flipsign (x y : Int64) : flipsign (flipsign x y) y = x := by
  unfold flipsign
  split <;> simp

-- A step is divided by through its absolute value, which wraps only at `typemin`.
theorem toNat_abs (step : Int64) : (abs step).toUInt64.toNat = step.toInt.natAbs := by
  have h := toNat_toUInt64 (abs step)
  have hlo := step.le_toInt
  have hhi := step.toInt_lt
  unfold abs at h ⊢
  rw [toInt_flipsign] at h
  split at h
  · rw [bmod_emod_size] at h
    omega
  · omega

theorem toNat_sub_of_le {x y : Int64} (h : y.toInt ≤ x.toInt) :
    ((x - y).toUInt64.toNat : ℤ) = x.toInt - y.toInt := by
  have hx := x.toInt_lt
  have hy := y.le_toInt
  rw [toNat_toUInt64, Int64.toInt_sub, bmod_emod_size]
  omega

-- Both ways of taking the remainder give the remainder of the exact difference.
theorem remainder_spec (diff step : Int64) (d m : ℕ) (hdiff : diff.toUInt64.toNat = d)
    (hstep : step.toUInt64.toNat = m) (hpos : 0 < m) (hm : m ≤ 2 ^ 63) :
    ∃ remain, remainder diff step = .ok remain ∧ remain.toInt = (d % m : ℕ) := by
  have hd := toNat_toUInt64 diff
  have hs := toNat_toUInt64 step
  have hdlo := diff.le_toInt
  have hdhi := diff.toInt_lt
  have hslo := step.le_toInt
  have hshi := step.toInt_lt
  have hmod := Nat.mod_lt d hpos
  simp only [remainder, Int64.lt_iff_toInt_lt, Int64.toInt_zero]
  split
  · have habs : (abs step).toUInt64.toNat = m := by rw [toNat_abs]; omega
    have hrem : (remUnsigned diff.toUInt64 step).toNat = d % m := by
      rw [remUnsigned, UInt64.toNat_mod, hdiff, habs]
    refine ⟨(remUnsigned diff.toUInt64 step).toInt64, ?_, ?_⟩
    · rw [convertSigned, if_pos (by omega)]
    · rw [toInt_toInt64, hrem]
      exact Int.bmod_eq_of_le (by omega) (by omega)
  · refine ⟨diff % step, rfl, ?_⟩
    have hdv : diff.toInt = d := by omega
    rw [Int64.toInt_mod, hdv]
    by_cases hneg : step.toInt < 0
    · -- only `-typemin` wraps, and then the divisor exceeds the dividend
      have hsv : step.toInt = -(2 ^ 63 : ℕ) := by omega
      have hmv : m = 2 ^ 63 := by omega
      rw [hsv, Int.tmod_neg, hmv, Int.ofNat_tmod]
    · have hsv : step.toInt = m := by omega
      rw [hsv, Int.ofNat_tmod]

-- The element reached after `k` whole steps lies between `start` and `stop`
-- exactly when `k` does not exceed the quotient of the absolute values.
theorem lt_elementCount_iff (start step stop : ℤ) (hstep : step ≠ 0) (k : ℕ) :
    k < elementCount start step stop ↔ Between start step stop (start + k * step) := by
  have hpos : 0 < step.natAbs := Int.natAbs_pos.mpr hstep
  have hk : k < stepCount start step stop + 1 ↔ k * step.natAbs ≤ (stop - start).natAbs := by
    rw [Nat.lt_succ_iff, stepCount, Nat.le_div_iff_mul_le hpos]
  have hkm : 0 ≤ (k * step.natAbs : ℤ) := by positivity
  unfold elementCount Between
  by_cases hs : 0 < step
  · have hm : (k : ℤ) * step = k * step.natAbs := by rw [Int.natAbs_of_nonneg hs.le]
    simp only [if_pos hs, hm]
    split
    · rw [hk]; omega
    · omega
  · have hm : (k : ℤ) * step = -(k * step.natAbs) := by
      rw [Int.ofNat_natAbs_of_nonpos (by omega), mul_neg, neg_neg]
    simp only [if_neg hs, hm]
    split
    · rw [hk]; omega
    · omega

theorem steprangeLast_of_elements (start step stop : Int64) (hstep : step ≠ 0)
    (helem : 0 < elementCount start.toInt step.toInt stop.toInt) :
    ∃ last, steprangeLast start step stop = .ok last ∧
      last.toInt = start.toInt + stepCount start.toInt step.toInt stop.toInt * step.toInt := by
  have hsz : step.toInt ≠ 0 := fun h => hstep (Int64.toInt.inj (by simpa using h))
  have hdir : Between start.toInt step.toInt stop.toInt start.toInt := by
    by_contra h
    simp [elementCount, h] at helem
  by_cases heq : stop = start
  · subst heq
    exact ⟨stop, by simp [steprangeLast, hstep], by simp [stepCount]⟩
  have hne : start.toInt ≠ stop.toInt := fun h => heq (Int64.toInt.inj h.symm)
  have hdir : 0 < step.toInt ↔ start.toInt < stop.toInt := by
    unfold Between at hdir
    split at hdir <;> omega
  have hsame : (decide (step > 0) != decide (stop > start)) = false := by
    simp only [gt_iff_lt, Int64.lt_iff_toInt_lt, Int64.toInt_zero, hdir, bne_self_eq_false]
  have hdivmod := congrArg (Nat.cast (R := ℤ))
    (Nat.div_add_mod (stop.toInt - start.toInt).natAbs step.toInt.natAbs)
  have hmod := Nat.mod_lt (stop.toInt - start.toInt).natAbs (Int.natAbs_pos.mpr hsz)
  have hstart := start.le_toInt
  have hstart' := start.toInt_lt
  have hstop := stop.le_toInt
  have hstop' := stop.toInt_lt
  have hlo := step.le_toInt
  have hhi := step.toInt_lt
  by_cases hup : start.toInt < stop.toInt
  · -- ascending: the remainder is taken off `stop`
    have hgt : stop > start := Int64.lt_iff_toInt_lt.mpr hup
    obtain ⟨remain, hremain, hval⟩ := remainder_spec (stop - start) step
      (stop.toInt - start.toInt).natAbs step.toInt.natAbs
      (by have := toNat_sub_of_le (x := stop) (y := start) hup.le; omega)
      (by have := toNat_toUInt64 step; omega) (by omega) (by omega)
    have hsub : (stop - remain).toInt = stop.toInt - remain.toInt :=
      toInt_eq_of_bounds (Int64.toInt_sub _ _) (by omega) (by omega)
    refine ⟨stop - remain, ?_, ?_⟩
    · unfold steprangeLast
      rw [if_neg hstep, if_neg heq, hsame]
      simp only [Bool.false_eq_true, if_false, if_pos hgt]
      rw [hremain]
      rfl
    · have hm : (step.toInt.natAbs : ℤ) = step.toInt := by omega
      have hz : (step.toInt * stepCount start.toInt step.toInt stop.toInt + remain.toInt : ℤ) =
          stop.toInt - start.toInt := by
        rw [Nat.cast_add, Nat.cast_mul, hm] at hdivmod
        rw [hval, stepCount]
        omega
      rw [hsub]
      linarith
  · -- descending: the remainder is added to `stop`
    have hgt : ¬stop > start := fun h => hup (Int64.lt_iff_toInt_lt.mp h)
    obtain ⟨remain, hremain, hval⟩ := remainder_spec (start - stop) (-step)
      (stop.toInt - start.toInt).natAbs step.toInt.natAbs
      (by have := toNat_sub_of_le (x := start) (y := stop) (by omega); omega)
      (by have := toNat_toUInt64 (-step); rw [Int64.toInt_neg, bmod_emod_size] at this; omega)
      (by omega) (by omega)
    have hadd : (stop + remain).toInt = stop.toInt + remain.toInt :=
      toInt_eq_of_bounds (Int64.toInt_add _ _) (by omega) (by omega)
    refine ⟨stop + remain, ?_, ?_⟩
    · unfold steprangeLast
      rw [if_neg hstep, if_neg heq, hsame]
      simp only [Bool.false_eq_true, if_false, if_neg hgt]
      rw [hremain]
      rfl
    · have hm : (step.toInt.natAbs : ℤ) = -step.toInt := by omega
      have hz : (-step.toInt * stepCount start.toInt step.toInt stop.toInt + remain.toInt : ℤ) =
          start.toInt - stop.toInt := by
        rw [Nat.cast_add, Nat.cast_mul, hm] at hdivmod
        rw [hval, stepCount]
        omega
      rw [hadd]
      linarith

theorem steprangeLast_of_no_element (start step stop : Int64) (hstep : step ≠ 0)
    (helem : elementCount start.toInt step.toInt stop.toInt = 0) :
    ∃ last, steprangeLast start step stop = .ok last ∧ isempty ⟨start, step, last⟩ = true := by
  have hnone : ¬Between start.toInt step.toInt stop.toInt start.toInt := by
    intro h
    simp [elementCount, h] at helem
  have hstart := start.le_toInt
  have hstart' := start.toInt_lt
  have hstop := stop.le_toInt
  have hstop' := stop.toInt_lt
  have heq : stop ≠ start := by
    rintro rfl
    exact hnone (by unfold Between; split <;> omega)
  refine ⟨steprangeLastEmpty start step, ?_, ?_⟩
  · have hne : (decide (step > 0) != decide (stop > start)) = true := by
      simp only [gt_iff_lt, Int64.lt_iff_toInt_lt, Int64.toInt_zero, bne_iff_ne, ne_eq,
        decide_eq_decide]
      unfold Between at hnone
      split at hnone <;> omega
    rw [steprangeLast, if_neg hstep, if_neg heq, if_pos hne]
  · unfold Between at hnone
    simp only [isempty, steprangeLastEmpty, gt_iff_lt, Int64.lt_iff_toInt_lt, Int64.toInt_zero,
      ne_eq, ← Int64.toInt_inj, Bool.and_eq_true, decide_eq_true_eq, bne_iff_ne, decide_eq_decide]
    split
    · rename_i hs
      rw [if_pos hs] at hnone
      rw [toInt_eq_of_bounds (Int64.toInt_sub start 1) (by simp; omega) (by simp; omega)]
      simp
      omega
    · rename_i hs
      rw [if_neg hs] at hnone
      rw [toInt_eq_of_bounds (Int64.toInt_add start 1) (by simp; omega) (by simp; omega)]
      simp
      omega

section Elements

variable (r : StepRange) (count : ℕ)

-- The stored `stop` is the last element, `count` whole steps away from `start`.
def Exact : Prop :=
  r.step ≠ 0 ∧ r.stop.toInt = r.start.toInt + count * r.step.toInt

-- The states of the iteration; none of them overflows.
def element (k : ℕ) : Int64 := Int64.ofInt (r.start.toInt + k * r.step.toInt)

variable {r count}

theorem Exact.step_ne_zero (h : Exact r count) : r.step.toInt ≠ 0 :=
  fun hz => h.1 (Int64.toInt.inj (by simpa using hz))

-- Elements up to the stored `stop` stay on the way to it.
theorem Exact.bounds (h : Exact r count) {k : ℕ} (hk : k ≤ count) :
    (0 < r.step.toInt → r.start.toInt ≤ r.start.toInt + k * r.step.toInt ∧
      r.start.toInt + k * r.step.toInt ≤ r.stop.toInt) ∧
    (r.step.toInt < 0 → r.stop.toInt ≤ r.start.toInt + k * r.step.toInt ∧
      r.start.toInt + k * r.step.toInt ≤ r.start.toInt) := by
  have hk : (k : ℤ) ≤ count := by exact_mod_cast hk
  have hk0 : (0 : ℤ) ≤ k := by positivity
  rw [h.2]
  constructor <;> intro hs
  · have h1 := mul_nonneg hk0 hs.le
    have h2 := mul_le_mul_of_nonneg_right hk hs.le
    omega
  · have h1 := mul_nonpos_of_nonneg_of_nonpos hk0 hs.le
    have h2 := mul_le_mul_of_nonpos_right hk hs.le
    omega

theorem Exact.isempty (h : Exact r count) : isempty r = false := by
  have hz := h.step_ne_zero
  have hb := h.bounds (le_refl count)
  rw [← h.2] at hb
  simp only [Range.isempty, gt_iff_lt, Int64.lt_iff_toInt_lt, Int64.toInt_zero, ne_eq,
    ← Int64.toInt_inj, Bool.and_eq_false_iff, decide_eq_false_iff_not, not_not, bne_eq_false_iff_eq,
    decide_eq_decide]
  omega

theorem Exact.toInt_element (h : Exact r count) {k : ℕ} (hk : k ≤ count) :
    (element r k).toInt = r.start.toInt + k * r.step.toInt := by
  have hz := h.step_ne_zero
  have hb := h.bounds hk
  have h1 := r.start.le_toInt
  have h2 := r.start.toInt_lt
  have h3 := r.stop.le_toInt
  have h4 := r.stop.toInt_lt
  exact Int64.toInt_ofInt_of_le (by omega) (by omega)

theorem Exact.element_ne_stop (h : Exact r count) {k : ℕ} (hk : k < count) :
    element r k ≠ r.stop := by
  intro he
  have hv := congrArg Int64.toInt he
  rw [h.toInt_element hk.le, h.2] at hv
  have hk : (k : ℤ) = count := mul_right_cancel₀ h.step_ne_zero (by omega)
  omega

theorem Exact.toInt_element_add_step (h : Exact r count) {k : ℕ} (hk : k < count) :
    (element r k + r.step).toInt = (element r k).toInt + r.step.toInt := by
  have hz := h.step_ne_zero
  have hb := h.bounds (k := k + 1) hk
  have h1 := r.start.le_toInt
  have h2 := r.start.toInt_lt
  have h3 := r.stop.le_toInt
  have h4 := r.stop.toInt_lt
  rw [Nat.cast_add, Nat.cast_one, add_mul, one_mul] at hb
  apply toInt_eq_of_bounds (Int64.toInt_add _ _) <;> rw [h.toInt_element hk.le] <;> omega

theorem Exact.element_succ (h : Exact r count) {k : ℕ} (hk : k < count) :
    element r k + r.step = element r (k + 1) := by
  apply Int64.toInt.inj
  rw [h.toInt_element_add_step hk, h.toInt_element hk.le, h.toInt_element (show k + 1 ≤ count from hk)]
  push_cast
  ring

theorem Exact.yields (h : Exact r count) :
    Yields (iterateFrom r) (iterate r) ((List.range (count + 1)).map (element r)) := by
  have hfirst : element r 0 = r.start := by simp [element]
  have hlast : element r count = r.stop :=
    Int64.toInt.inj (by rw [h.toInt_element le_rfl, h.2])
  have hy : Yields (iterateFrom r) (some (element r 0, element r 0))
      ((List.range (count + 1)).map (element r)) := Yields.of_states (element r) (element r) (count + 1)
    (fun k hk => by
      rw [iterateFrom, if_neg (h.element_ne_stop (by omega)), h.element_succ (by omega)])
    (by rw [Nat.add_sub_cancel, iterateFrom, if_pos hlast]) (by omega)
  rw [iterate, h.isempty, if_neg Bool.false_ne_true]
  rwa [hfirst] at hy

theorem Exact.length (h : Exact r count) : (length r).toUInt64.toNat = (count + 1) % 2 ^ 64 := by
  have hz := h.step_ne_zero
  have hpos : 0 < r.step.toInt.natAbs := Int.natAbs_pos.mpr hz
  have h1 := r.start.le_toInt
  have h2 := r.start.toInt_lt
  have h3 := r.stop.le_toInt
  have h4 := r.stop.toInt_lt
  have hstop := h.2
  -- the unsigned dividend is the exact distance
  have hdiff : (flipsign (r.stop - r.start) r.step).toUInt64.toNat =
      count * r.step.toInt.natAbs := by
    have hc : 0 ≤ (count * |r.step.toInt| : ℤ) := by positivity
    have hu := toNat_toUInt64 (flipsign (r.stop - r.start) r.step)
    zify
    rw [hu, toInt_flipsign, Int64.toInt_sub]
    split
    · rename_i hs
      have hm : (count : ℤ) * r.step.toInt = -(count * |r.step.toInt|) := by
        rw [abs_of_neg hs, mul_neg, neg_neg]
      rw [bmod_emod_size, Int.bmod_def]
      split <;> omega
    · rename_i hs
      have hm : (count : ℤ) * r.step.toInt = count * |r.step.toInt| := by
        rw [abs_of_nonneg (by omega)]
      rw [bmod_emod_size]
      omega
  have hquot : ((flipsign (r.stop - r.start) r.step).toUInt64 / (abs r.step).toUInt64).toNat =
      count := by
    rw [UInt64.toNat_div, hdiff, toNat_abs, Nat.mul_div_cancel _ hpos]
  simp only [Range.length, h.isempty, Bool.false_eq_true, if_false, divUnsigned,
    Int64.toInt64_toUInt64, flipsign_flipsign, Int64.toUInt64_add, UInt64.toUInt64_toInt64,
    UInt64.toNat_add, hquot]
  rfl

end Elements

-- The constructor, the iteration and the length of an `Int64` range in terms of
-- exact integers: `n` counts the `start + k * step` between `start` and `stop`.
theorem steprange_exact (start step stop : Int64) (hstep : step ≠ 0) :
    ∃ (r : StepRange) (n : ℕ) (xs : List Int64),
      StepRange.new start step stop = .ok r ∧ r.start = start ∧ r.step = step ∧
      (∀ k : ℕ, k < n ↔
        Between start.toInt step.toInt stop.toInt (start.toInt + k * step.toInt)) ∧
      (0 < n → isempty r = false ∧ r.stop.toInt = start.toInt + (n - 1 : ℕ) * step.toInt) ∧
      (n = 0 → isempty r = true) ∧
      Yields (iterateFrom r) (iterate r) xs ∧
      xs.map Int64.toInt = (List.range n).map (fun k : ℕ => start.toInt + k * step.toInt) ∧
      (∀ x ∈ xs, x ≠ r.stop → (x + step).toInt = x.toInt + step.toInt) ∧
      (length r).toUInt64.toNat = n % 2 ^ 64 := by
  have hsz : step.toInt ≠ 0 := fun h => hstep (Int64.toInt.inj (by simpa using h))
  by_cases helem : elementCount start.toInt step.toInt stop.toInt = 0
  · obtain ⟨last, hlast, hempty⟩ := steprangeLast_of_no_element start step stop hstep helem
    refine ⟨⟨start, step, last⟩, 0, [], ?_, rfl, rfl, ?_, by simp, fun _ => hempty, ?_, rfl,
      by simp, ?_⟩
    · simp [StepRange.new, hlast, bind, Except.bind]
    · intro k
      rw [← lt_elementCount_iff _ _ _ hsz, helem]
    · rw [iterate, hempty]
      exact .done
    · simp only [length, hempty, if_true]
      rfl
  · obtain ⟨last, hlast, hval⟩ :=
      steprangeLast_of_elements start step stop hstep (Nat.pos_of_ne_zero helem)
    let r : StepRange := ⟨start, step, last⟩
    have hcount : elementCount start.toInt step.toInt stop.toInt =
        stepCount start.toInt step.toInt stop.toInt + 1 := by
      unfold elementCount at helem ⊢
      split at helem <;> simp_all
    have hexact : Exact r (stepCount start.toInt step.toInt stop.toInt) := ⟨hstep, hval⟩
    refine ⟨r, stepCount start.toInt step.toInt stop.toInt + 1, _, ?_, rfl, rfl, ?_,
      fun _ => ⟨hexact.isempty, hval⟩, by simp, hexact.yields, ?_, ?_, hexact.length⟩
    · simp [StepRange.new, hlast, bind, Except.bind, r]
    · intro k
      rw [← lt_elementCount_iff _ _ _ hsz, hcount]
    · rw [List.map_map]
      apply List.map_congr_left
      intro k hk
      exact hexact.toInt_element (Nat.lt_succ_iff.mp (List.mem_range.mp hk))
    · intro x hx hne
      obtain ⟨k, hk, rfl⟩ := List.mem_map.mp hx
      have hk := Nat.lt_succ_iff.mp (List.mem_range.mp hk)
      rcases Nat.lt_or_eq_of_le hk with hk | rfl
      · exact hexact.toInt_element_add_step hk
      · exact absurd (Int64.toInt.inj (by rw [hexact.toInt_element le_rfl, hexact.2])) hne

-- The widest range of all: it has 2^64 elements, so `length` wraps to zero.
theorem steprange_exact_full : (1 : Int64) ≠ 0 ∧ ∃ (r : StepRange) (n : ℕ) (xs : List Int64),
    StepRange.new Int64.minValue 1 Int64.maxValue = .ok r ∧
    Yields (iterateFrom r) (iterate r) xs ∧ (length r).toUInt64.toNat = n % 2 ^ 64 := by
  obtain ⟨r, n, xs, hnew, _, _, _, _, _, hyields, _, _, hlength⟩ :=
    steprange_exact Int64.minValue 1 Int64.maxValue (by decide)
  exact ⟨by decide, r, n, xs, hnew, hyields, hlength⟩

end Joolia.Range
