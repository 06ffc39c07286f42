import Mathlib.Algebra.BigOperators.Group.List.Basic
import Mathlib.Data.List.Basic
import Mathlib.Data.Nat.Digits.Lemmas
import Mathlib.Tactic.LinearCombination
import Mathlib.Tactic.Ring

namespace MixedRadix

-- The digits of a number, the least significant first, where the places have the sizes `ds`.
def digits : List ℕ → ℕ → List ℕ
  | [], _ => []
  | d :: ds, k => k % d :: digits ds (k / d)

def value : List ℕ → List ℕ → ℕ
  | d :: ds, i :: is => i + d * value ds is
  | _, _ => 0

-- One digit for each place, and each below the size of its place.
def Below (is ds : List ℕ) : Prop := List.Forall₂ (· < ·) is ds

section Digits

variable {ds is : List ℕ} {k : ℕ}

@[simp] theorem length_digits (ds : List ℕ) (k : ℕ) : (digits ds k).length = ds.length := by
  induction ds generalizing k with
  | nil => rfl
  | cons d ds ih => simp [digits, ih]

theorem pos_of_lt_prod {d : ℕ} (h : k < (d :: ds).prod) : 0 < d := by
  rcases Nat.eq_zero_or_pos d with rfl | hd
  · simp at h
  · exact hd

theorem div_lt_prod {d : ℕ} (h : k < (d :: ds).prod) : k / d < ds.prod := by
  rw [List.prod_cons] at h
  exact Nat.div_lt_of_lt_mul h

theorem below_digits (h : k < ds.prod) : Below (digits ds k) ds := by
  induction ds generalizing k with
  | nil => exact .nil
  | cons d ds ih => exact .cons (Nat.mod_lt _ (pos_of_lt_prod h)) (ih (div_lt_prod h))

theorem value_digits (h : k < ds.prod) : value ds (digits ds k) = k := by
  induction ds generalizing k with
  | nil => simp at h; simp [value, h]
  | cons d ds ih =>
      rw [digits, value, ih (div_lt_prod h)]
      exact Nat.mod_add_div k d

theorem value_lt (h : Below is ds) : value ds is < ds.prod := by
  induction h with
  | nil => simp [value]
  | @cons i d is ds hid _ ih =>
      rw [value, List.prod_cons]
      calc i + d * value ds is < d + d * value ds is := by omega
        _ = d * (value ds is + 1) := by ring
        _ ≤ d * ds.prod := Nat.mul_le_mul_left d ih

theorem digits_value (h : Below is ds) : digits ds (value ds is) = is := by
  induction h with
  | nil => rfl
  | @cons i d is ds hid _ ih =>
      have hd : 0 < d := by omega
      rw [value, digits, Nat.add_mul_mod_self_left, Nat.mod_eq_of_lt hid, Nat.add_mul_div_left _ _ hd,
        Nat.div_eq_of_lt hid, Nat.zero_add, ih]

-- The digits of the next number: without and with a carry.
theorem digits_succ_of_lt {d : ℕ} (h : k % d + 1 < d) : digits (d :: ds) (k + 1) = (k % d + 1) :: digits ds (k / d) := by
  have hd : 0 < d := by omega
  have hk := Nat.mod_add_div k d
  have hsum : k + 1 = (k % d + 1) + d * (k / d) := by omega
  rw [digits, hsum, Nat.add_mul_mod_self_left, Nat.mod_eq_of_lt h, Nat.add_mul_div_left _ _ hd, Nat.div_eq_of_lt h,
    Nat.zero_add]

theorem digits_succ_of_eq {d : ℕ} (h : k % d + 1 = d) : digits (d :: ds) (k + 1) = 0 :: digits ds (k / d + 1) := by
  have hd : 0 < d := by omega
  have hk := Nat.mod_add_div k d
  have hsum : k + 1 = d * (k / d + 1) := by rw [Nat.mul_add]; omega
  rw [digits, hsum, Nat.mul_mod_right, Nat.mul_div_cancel_left _ hd]

end Digits

section Offsets

variable {R : Type*} [CommRing R] {ds : List ℕ} {ss : List R}

-- The sum of the digits, each times the stride of its place
def offset : List R → List ℕ → R
  | s :: ss, i :: is => i * s + offset ss is
  | _, _ => 0

-- The offset of a position
def offsetAt (ds : List ℕ) (ss : List R) (k : ℕ) : R := offset ss (digits ds k)

theorem offsetAt_cons (d : ℕ) (s : R) (k : ℕ) : offsetAt (d :: ds) (s :: ss) k = (k % d : ℕ) * s + offsetAt ds ss (k / d) := rfl

@[simp] theorem offsetAt_nil (ss : List R) (k : ℕ) : offsetAt [] ss k = 0 := by
  cases ss <;> rfl

@[simp] theorem offsetAt_zero (ds : List ℕ) (ss : List R) : offsetAt ds ss 0 = 0 := by
  induction ds generalizing ss with
  | nil => exact offsetAt_nil ss 0
  | cons d ds ih =>
      cases ss with
      | nil => rfl
      | cons s ss => rw [offsetAt_cons, Nat.zero_mod, Nat.zero_div, ih, Nat.cast_zero, zero_mul, zero_add]

-- A place of size one, and a place that continues the one before it, can be merged.
theorem offsetAt_one (st : R) (k : ℕ) : offsetAt (1 :: ds) (st :: ss) k = offsetAt ds ss k := by
  rw [offsetAt_cons, Nat.mod_one, Nat.div_one, Nat.cast_zero, zero_mul, zero_add]

theorem offsetAt_merge {sz szn : ℕ} {st stn : R} (h : stn = st * sz ∨ szn = 1) (k : ℕ) :
    offsetAt (sz :: szn :: ds) (st :: stn :: ss) k = offsetAt (sz * szn :: ds) (st :: ss) k := by
  rcases h with rfl | rfl
  · rw [offsetAt_cons, offsetAt_cons, offsetAt_cons, Nat.mod_mul, Nat.div_div_eq_div_mul]
    push_cast
    ring
  · rw [offsetAt_cons, offsetAt_one, Nat.mul_one, offsetAt_cons]

-- The strides of places that follow each other without gaps
def packed : R → List ℕ → List R
  | _, [] => []
  | s, d :: ds => s :: packed (s * d) ds

@[simp] theorem length_packed (s : R) (ds : List ℕ) : (packed s ds).length = ds.length := by
  induction ds generalizing s with
  | nil => rfl
  | cons d ds ih => rw [packed, List.length_cons, List.length_cons, ih]

theorem offsetAt_packed (s : R) {k : ℕ} (h : k < ds.prod) : offsetAt ds (packed s ds) k = k * s := by
  induction ds generalizing s k with
  | nil =>
      obtain rfl : k = 0 := by simpa using h
      rw [offsetAt_nil, Nat.cast_zero, zero_mul]
  | cons d ds ih =>
      have hsplit : ((k % d + d * (k / d) : ℕ) : R) = k := congrArg Nat.cast (Nat.mod_add_div k d)
      push_cast at hsplit
      rw [packed, offsetAt_cons, ih _ (div_lt_prod h)]
      linear_combination s * hsplit

end Offsets

section Enumeration

variable {α : Type*}

-- All the tuples with one entry of each list, those with the same later entries next to each other.
def columnMajor : List (List α) → List (List α)
  | [] => [[]]
  | xs :: rest => (columnMajor rest).flatMap fun tail => xs.map (· :: tail)

-- The tuple at position `k`, where the entries of the places are given by functions.
def point : List (ℕ → α) → List ℕ → ℕ → List α
  | f :: fs, d :: ds, k => f (k % d) :: point fs ds (k / d)
  | _, _, _ => []

-- The numbers below a product, block by block.
theorem range_mul (d n : ℕ) : List.range (d * n) = (List.range n).flatMap fun v => (List.range d).map (· + d * v) := by
  induction n with
  | zero => simp
  | succ n ih =>
      rw [Nat.mul_succ, List.range_add, ih, List.range_succ, List.flatMap_append]
      simp [Nat.add_comm]

theorem point_cons {f : ℕ → α} {fs : List (ℕ → α)} {d i : ℕ} {ds : List ℕ} (hi : i < d) (v : ℕ) :
    point (f :: fs) (d :: ds) (i + d * v) = f i :: point fs ds v := by
  rw [point, Nat.add_mul_mod_self_left, Nat.mod_eq_of_lt hi, Nat.add_mul_div_left _ _ (by omega), Nat.div_eq_of_lt hi,
    Nat.zero_add]

-- The positions run through the tuples in this order.
theorem columnMajor_eq (fs : List (ℕ → α)) (ds : List ℕ) (hlen : fs.length = ds.length) :
    columnMajor (List.zipWith (fun f d => (List.range d).map f) fs ds) = (List.range ds.prod).map (point fs ds) := by
  induction fs generalizing ds with
  | nil =>
      obtain rfl : ds = [] := List.length_eq_zero_iff.mp hlen.symm
      rfl
  | cons f fs ih =>
      cases ds with
      | nil => simp at hlen
      | cons d ds =>
          rw [List.zipWith_cons_cons, columnMajor, ih ds (by simpa using hlen), List.prod_cons, range_mul, List.map_flatMap,
            List.flatMap_map]
          refine List.flatMap_congr fun v _ => ?_
          simp only [List.map_map]
          exact List.map_congr_left fun i hi => (point_cons (List.mem_range.mp hi) v).symm

end Enumeration

end MixedRadix

namespace Positional

-- The digit of `x` with the weight `b ^ k`.
def digit (b x k : ℕ) : ℕ := x / b ^ k % b

theorem digit_lt {b : ℕ} (hb : 0 < b) (x k : ℕ) : digit b x k < b := Nat.mod_lt _ hb

theorem digit_div (b x j k : ℕ) : digit b (x / b ^ j) k = digit b x (j + k) := by
  rw [digit, digit, Nat.div_div_eq_div_mul, ← pow_add]

-- A digit to the base `b ^ j` holds `j` digits to the base `b`.
theorem digit_mod {b j k : ℕ} (x : ℕ) (hk : k < j) : digit b (x % b ^ j) k = digit b x k := by
  obtain ⟨i, rfl⟩ : ∃ i, j = k + (i + 1) := ⟨j - k - 1, by omega⟩
  rw [digit, digit, pow_add, Nat.mod_mul_right_div_self, pow_succ', Nat.mod_mul_right_mod]

-- The last `m` digits, the highest one first.
def lastDigits (b x m : ℕ) : List ℕ := (List.range m).map fun j => digit b x (m - 1 - j)

@[simp] theorem length_lastDigits (b x m : ℕ) : (lastDigits b x m).length = m := by simp [lastDigits]

theorem lastDigits_succ (b x m : ℕ) : lastDigits b x (m + 1) = lastDigits b (x / b) m ++ [x % b] := by
  rw [lastDigits, lastDigits, List.range_succ, List.map_append, List.map_singleton]
  congr 1
  · refine List.map_congr_left ?_
    intro j hj
    have hlt := List.mem_range.mp hj
    have hdiv := digit_div b x 1 (m - 1 - j)
    rw [pow_one] at hdiv
    rw [hdiv]
    congr 1
    omega
  · simp [digit]

theorem mem_lastDigits {b x m d : ℕ} (hb : 0 < b) (h : d ∈ lastDigits b x m) : d < b := by
  obtain ⟨j, -, rfl⟩ := List.mem_map.mp h
  exact digit_lt hb _ _

-- Horner's rule reads the digits back.
theorem foldl_lastDigits (b x m : ℕ) : (lastDigits b x m).foldl (fun n d => n * b + d) 0 = x % b ^ m := by
  induction m generalizing x with
  | zero => simp [lastDigits, Nat.mod_one]
  | succ m ih =>
      rw [lastDigits_succ, List.foldl_append, ih, List.foldl_cons, List.foldl_nil, pow_succ', Nat.mod_mul,
        Nat.mul_comm, Nat.add_comm]

-- The digits of a number that fits, with zeros before them.
theorem lastDigits_eq_padded {b : ℕ} (hb : 1 < b) {x m : ℕ} (hx : x < b ^ m) :
    lastDigits b x m = List.replicate (m - (b.digits x).length) 0 ++ (b.digits x).reverse := by
  induction m generalizing x with
  | zero =>
      obtain rfl : x = 0 := by simpa using hx
      simp [lastDigits]
  | succ m ih =>
      have hdiv : x / b < b ^ m := by
        rw [Nat.div_lt_iff_lt_mul (by omega), ← pow_succ]
        exact hx
      rw [lastDigits_succ, ih hdiv]
      by_cases hzero : x = 0
      · subst hzero
        simp [← List.replicate_succ']
      · rw [Nat.digits_def' hb (Nat.pos_of_ne_zero hzero), List.reverse_cons, List.length_cons, List.append_assoc,
          Nat.add_sub_add_right]

-- How many digits a number has.
theorem length_digits_eq {b : ℕ} (hb : 1 < b) {x d : ℕ} (hlo : d ≠ 0 → b ^ (d - 1) ≤ x) (hhi : x < b ^ d) :
    (b.digits x).length = d := by
  have hle := (Nat.digits_length_le_iff hb x).mpr hhi
  by_cases hzero : d = 0
  · omega
  · have hge := (Nat.lt_digits_length_iff hb x).mpr (hlo hzero)
    omega

theorem lt_pow_length_digits {b : ℕ} (hb : 1 < b) (x : ℕ) : x < b ^ (b.digits x).length :=
  Nat.lt_base_pow_length_digits hb

theorem length_digits_div {b : ℕ} (hb : 1 < b) {x : ℕ} (hx : x ≠ 0) :
    (b.digits x).length = (b.digits (x / b)).length + 1 := by
  rw [Nat.digits_def' hb (Nat.pos_of_ne_zero hx), List.length_cons]

end Positional
