import Joolia.Library.Fallible
import Joolia.Library.MixedRadix
import Mathlib.Algebra.BigOperators.Group.List.Lemmas
import Mathlib.Algebra.Order.BigOperators.GroupWithZero.List

namespace Joolia.Reshape

open Fallible MixedRadix

-- The strides are values of `R`: the integers, or machine words, whose arithmetic wraps.
variable {R : Type} [CommRing R]

section Model

inductive StridesError
  | ArgumentError
  | BoundsError
deriving DecidableEq, Repr

def sizeToStrides (s : R) (sz : List ℕ) : List R := packed s sz

-- A strided array; the strides of contiguous memory follow from the size.
structure Strided (R : Type) [CommRing R] where
  size : List ℕ
  strides : List R
  contiguous : Bool
  length_strides : strides.length = size.length
  size_pos : ∀ d ∈ size, 0 < d
  strides_of_contiguous : contiguous = true → strides = packed 1 size

structure ReshapedArray (R : Type) [CommRing R] where
  parent : Strided R
  dims : List ℕ
  prod_dims : dims.prod = parent.size.prod

def getindex {α : Type} (t : List α) (i : ℕ) : Except StridesError α :=
  match t[i]? with
  | none => .error .BoundsError
  | some x => .ok x

variable [DecidableEq R]

-- The loop of `merge_adjacent_dim`; `n` is the number of dimensions taken.
def mergeLoop (apsz : List ℕ) (apst : List R) : ℕ → ℕ → R → ℕ → Except StridesError (ℕ × R × ℕ)
  | 0, sz, st, n => .ok (sz, st, n)
  | left + 1, sz, st, n => do
      let szn ← getindex apsz n
      let stn ← getindex apst n
      if sz = 1 then mergeLoop apsz apst left szn stn (n + 1)
      else if stn = st * sz ∨ szn = 1 then mergeLoop apsz apst left (sz * szn) st (n + 1)
      else .ok (sz, st, n)

-- `merge_adjacent_dim(apsz, apst, n)`
def mergeFrom (apsz : List ℕ) (apst : List R) (n : ℕ) : Except StridesError (ℕ × R × ℕ) := do
  let sz ← getindex apsz (n - 1)
  let st ← getindex apst (n - 1)
  mergeLoop apsz apst (apsz.length - n) sz st n

-- `merge_adjacent_dim(apsz, apst)`
def mergeAdjacentDim (apsz : List ℕ) (apst : List R) : Except StridesError (ℕ × R × ℕ) :=
  match apsz with
  | [] => .ok (1, 1, 0)
  | [sz] => getindex apst 0 >>= fun st => .ok (sz, st, 1)
  | _ => mergeFrom apsz apst 1

-- `_reshaped_strides`
def reshapedStrides (apsz : List ℕ) (apst : List R) : List ℕ → ℕ → ℕ → R → ℕ → Except StridesError (List R)
  | [], reshaped, msz, _, _ => if reshaped = msz then .ok [] else .error .ArgumentError
  | d :: sz, reshaped, msz, mst, n => do
      let st := reshaped * mst
      let reshaped := reshaped * d
      if sz ≠ [] ∧ reshaped = msz ∧ sz.head? ≠ some 1 then
        let (msz, mst, n) ← mergeFrom apsz apst (n + 1)
        let sts ← reshapedStrides apsz apst sz 1 msz mst n
        .ok (st :: sts)
      else
        let sts ← reshapedStrides apsz apst sz reshaped msz mst n
        .ok (st :: sts)

-- `strides(a::ReshapedArray)`
def strides (a : ReshapedArray R) : Except StridesError (List R) :=
  if a.parent.contiguous then .ok (sizeToStrides 1 a.dims)
  else do
    let (msz, mst, n) ← mergeAdjacentDim a.parent.size a.parent.strides
    if n = a.parent.size.length then .ok (sizeToStrides mst a.dims)
    else reshapedStrides a.parent.size a.parent.strides a.dims 1 msz mst n

end Model

section Merging

variable [DecidableEq R] {apsz : List ℕ} {apst : List R}

-- The next dimension does not continue the merged ones.
def Stops (sz : ℕ) (st : R) : List ℕ → List R → Prop
  | [], _ => True
  | szn :: _, stn :: _ => sz ≠ 1 ∧ szn ≠ 1 ∧ stn ≠ st * sz
  | _, [] => False

theorem getindex_eq {α : Type} {t : List α} {i : ℕ} (h : i < t.length) : getindex t i = .ok t[i] := by
  rw [getindex, List.getElem?_eq_getElem h]

theorem mergeLoop_spec (left sz : ℕ) {n : ℕ} (st : R) (hlen : apst.length = apsz.length) (hn : n + left = apsz.length) :
    ∃ sz' st' n', mergeLoop apsz apst left sz st n = .ok (sz', st', n') ∧ n ≤ n' ∧ n' ≤ apsz.length ∧
      (∀ k, offsetAt (sz :: apsz.drop n) (st :: apst.drop n) k = offsetAt (sz' :: apsz.drop n') (st' :: apst.drop n') k) ∧
      sz * (apsz.drop n).prod = sz' * (apsz.drop n').prod ∧ Stops sz' st' (apsz.drop n') (apst.drop n') := by
  induction left generalizing sz st n with
  | zero =>
      refine ⟨sz, st, n, rfl, le_rfl, by omega, fun k => rfl, rfl, ?_⟩
      rw [List.drop_of_length_le (by omega)]
      exact trivial
  | succ left ih =>
      have hlt : n < apsz.length := by omega
      have hlt' : n < apst.length := by omega
      have hdrop := List.drop_eq_getElem_cons hlt
      have hdrop' := List.drop_eq_getElem_cons hlt'
      rw [mergeLoop, getindex_eq hlt, getindex_eq hlt', ok_bind, ok_bind, hdrop, hdrop']
      split_ifs with hone hmerge
      · obtain ⟨sz', st', n', hloop, hle, hle', hoff, hprod, hstops⟩ := ih apsz[n] apst[n] (by omega : n + 1 + left = _)
        refine ⟨sz', st', n', hloop, by omega, hle', fun k => ?_, ?_, hstops⟩
        · rw [hone, offsetAt_one]
          exact hoff k
        · rw [hone, one_mul, List.prod_cons]
          exact hprod
      · obtain ⟨sz', st', n', hloop, hle, hle', hoff, hprod, hstops⟩ := ih (sz * apsz[n]) st (by omega : n + 1 + left = _)
        refine ⟨sz', st', n', hloop, by omega, hle', fun k => ?_, ?_, hstops⟩
        · rw [offsetAt_merge hmerge]
          exact hoff k
        · rw [List.prod_cons, ← mul_assoc]
          exact hprod
      · refine ⟨sz, st, n, rfl, le_rfl, hlt.le, fun k => by rw [hdrop, hdrop'], by rw [hdrop], ?_⟩
        rw [hdrop, hdrop']
        exact ⟨hone, fun h => hmerge (.inr h), fun h => hmerge (.inl h)⟩

-- The dimensions from number `n` on, with the first of them merged
theorem mergeFrom_spec {n : ℕ} (hlen : apst.length = apsz.length) (hn : n < apsz.length) :
    ∃ msz mst n', mergeFrom apsz apst (n + 1) = .ok (msz, mst, n') ∧ n < n' ∧ n' ≤ apsz.length ∧
      (∀ k, offsetAt (apsz.drop n) (apst.drop n) k = offsetAt (msz :: apsz.drop n') (mst :: apst.drop n') k) ∧
      (apsz.drop n).prod = msz * (apsz.drop n').prod ∧ Stops msz mst (apsz.drop n') (apst.drop n') := by
  have hlt' : n < apst.length := by omega
  obtain ⟨msz, mst, n', hloop, hle, hle', hoff, hprod, hstops⟩ := mergeLoop_spec (apsz.length - (n + 1)) apsz[n] apst[n]
    hlen (by omega : n + 1 + _ = _)
  rw [mergeFrom, Nat.add_sub_cancel, getindex_eq hn, getindex_eq hlt', ok_bind, ok_bind, hloop, List.drop_eq_getElem_cons hn,
    List.drop_eq_getElem_cons hlt', List.prod_cons]
  exact ⟨msz, mst, n', rfl, hle, hle', hoff, hprod, hstops⟩

end Merging

section Strides

variable {apsz : List ℕ} {apst : List R}

-- Strides for the dimensions that are left, where the ones before them run through `r` elements of stride `mst`
def Fits (position : ℕ → R) (mst : R) (r : ℕ) (ds : List ℕ) (ts : List R) : Prop :=
  ∀ a < r, ∀ q < ds.prod, a * mst + offsetAt ds ts q = position (a + r * q)

-- One more dimension with the stride that continues the ones before it
theorem fits_cons {position : ℕ → R} {mst : R} {r d : ℕ} {ds : List ℕ} {ts : List R} (hr : 0 < r) (hd : 0 < d) :
    Fits position mst r (d :: ds) (r * mst :: ts) ↔ Fits position mst (r * d) ds ts := by
  have hsplit : ∀ a i j, a + r * i + r * d * j = a + r * (i + d * j) := fun a i j => by ring
  constructor
  · intro h a ha q hq
    have hi : a / r < d := Nat.div_lt_of_lt_mul ha
    have hfit := h (a % r) (Nat.mod_lt _ hr) (a / r + d * q) (by
      rw [List.prod_cons]
      calc
        a / r + d * q < d + d * q := by omega
        _ = d * (q + 1) := by ring
        _ ≤ d * ds.prod := Nat.mul_le_mul_left d hq)
    rw [offsetAt_cons, Nat.add_mul_mod_self_left, Nat.mod_eq_of_lt hi, Nat.add_mul_div_left _ _ hd, Nat.div_eq_of_lt hi, Nat.zero_add,
      ← hsplit, Nat.mod_add_div] at hfit
    have ha' : ((a % r + r * (a / r) : ℕ) : R) = a := congrArg Nat.cast (Nat.mod_add_div a r)
    push_cast at ha'
    rw [← hfit]
    linear_combination -mst * ha'
  · intro h a ha q hq
    have hq' := div_lt_prod hq
    have hi := Nat.mod_lt q hd
    have hfit := h (a + r * (q % d)) (by
      calc
        a + r * (q % d) < r + r * (q % d) := by omega
        _ = r * (q % d + 1) := by ring
        _ ≤ r * d := Nat.mul_le_mul_left r hi) (q / d) hq'
    rw [hsplit, Nat.mod_add_div] at hfit
    rw [offsetAt_cons, ← hfit]
    push_cast
    ring

-- Other strides of a dimension with two elements are ruled out.
theorem Fits.stride {position : ℕ → R} {mst t : R} {r d : ℕ} {ds : List ℕ} {ts : List R} (h : Fits position mst r (d :: ds) (t :: ts))
    (hr : 0 < r) (hd : 1 < d) (hpos : 0 < ds.prod) : t = position r := by
  have hq : 1 < (d :: ds).prod := by
    rw [List.prod_cons]
    calc
      1 < d := hd
      _ ≤ d * ds.prod := Nat.le_mul_of_pos_right d hpos
  have hfit := h 0 hr 1 hq
  rw [offsetAt_cons, Nat.mod_eq_of_lt hd, Nat.div_eq_of_lt hd, offsetAt_zero] at hfit
  simpa using hfit

-- The offset of a position of the merged dimensions and those after them
def position (apsz : List ℕ) (apst : List R) (msz : ℕ) (mst : R) (n : ℕ) : ℕ → R :=
  offsetAt (msz :: apsz.drop n) (mst :: apst.drop n)

theorem position_of_lt {msz n k : ℕ} {mst : R} (h : k < msz) : position apsz apst msz mst n k = k * mst := by
  rw [position, offsetAt_cons, Nat.mod_eq_of_lt h, Nat.div_eq_of_lt h, offsetAt_zero, add_zero]

theorem position_add {msz n a : ℕ} {mst : R} (h : a < msz) (q : ℕ) :
    position apsz apst msz mst n (a + msz * q) = a * mst + offsetAt (apsz.drop n) (apst.drop n) q := by
  rw [position, offsetAt_cons, Nat.add_mul_mod_self_left, Nat.mod_eq_of_lt h, Nat.add_mul_div_left _ _ (by omega), Nat.div_eq_of_lt h,
    Nat.zero_add]

-- When the merged dimensions are used up, the next ones take their place.
theorem fits_next {msz n : ℕ} {mst mst' : R} {next : ℕ → R} {ds : List ℕ} {ts : List R} (hmsz : 0 < msz)
    (hnext : ∀ k, offsetAt (apsz.drop n) (apst.drop n) k = next k) :
    Fits (position apsz apst msz mst n) mst msz ds ts ↔ Fits next mst' 1 ds ts := by
  constructor
  · intro h a ha q hq
    obtain rfl : a = 0 := by omega
    have hfit := h 0 hmsz q hq
    rw [position_add hmsz, hnext, Nat.cast_zero, zero_mul, zero_add, zero_add] at hfit
    rw [Nat.cast_zero, zero_mul, zero_add, Nat.zero_add, Nat.one_mul]
    exact hfit
  · intro h a ha q hq
    have hfit := h 0 Nat.one_pos q hq
    rw [Nat.cast_zero, zero_mul, zero_add, Nat.zero_add, Nat.one_mul] at hfit
    rw [position_add ha, hnext, hfit]

-- What holds before each dimension: the ones before it have not left the merged dimensions.
structure State (apsz : List ℕ) (apst : List R) (ds : List ℕ) (r msz : ℕ) (mst : R) (n : ℕ) : Prop where
  length : apst.length = apsz.length
  r_pos : 0 < r
  below : r < msz ∨ r = msz ∧ (ds = [] ∨ ds.head? = some 1)
  stops : Stops msz mst (apsz.drop n) (apst.drop n)
  prod : r * ds.prod = msz * (apsz.drop n).prod
  sizes : ∀ d ∈ ds, 0 < d

theorem State.le {ds : List ℕ} {r msz n : ℕ} {mst : R} (h : State apsz apst ds r msz mst n) : r ≤ msz := by
  rcases h.below with hlt | ⟨heq, -⟩
  · exact hlt.le
  · exact heq.le

-- The strides of all earlier dimensions are forced.
theorem State.fits_tail {d : ℕ} {ds : List ℕ} {r msz n : ℕ} {mst t : R} {ts : List R} (h : State apsz apst (d :: ds) r msz mst n)
    (hfit : Fits (position apsz apst msz mst n) mst r (d :: ds) (t :: ts)) :
    Fits (position apsz apst msz mst n) mst (r * d) ds ts := by
  have hd : 0 < d := h.sizes d List.mem_cons_self
  apply (fits_cons h.r_pos hd).1
  rcases Nat.lt_or_ge 1 d with hlt | hle
  · have hr : r < msz := by
      rcases h.below with hlt' | ⟨-, hnil | hone⟩
      · exact hlt'
      · cases hnil
      · cases hone
        omega
    rwa [hfit.stride h.r_pos hlt (List.prod_pos fun x hx => h.sizes x (List.mem_cons_of_mem _ hx)), position_of_lt hr] at hfit
  · obtain rfl : d = 1 := by omega
    intro a ha q hq
    have hfit' := hfit a ha q hq
    rwa [offsetAt_one] at hfit' ⊢

-- A dimension across the end of the merged ones would need their stride to continue.
theorem State.not_fits {d : ℕ} {ds : List ℕ} {r msz n : ℕ} {mst : R} (h : State apsz apst (d :: ds) r msz mst n) (hcross : msz < r * d)
    (ts : List R) : ¬Fits (position apsz apst msz mst n) mst (r * d) ds ts := by
  intro hfit
  have hds := List.prod_pos fun x hx => h.sizes x (List.mem_cons_of_mem _ hx)
  have hmsz : 0 < msz := h.r_pos.trans_le h.le
  have hvalue := hfit msz hcross 0 hds
  rw [offsetAt_zero, Nat.mul_zero, add_zero, Nat.add_zero, position, offsetAt_cons, Nat.mod_self, Nat.div_self hmsz, Nat.cast_zero,
    zero_mul, zero_add] at hvalue
  have hprod := h.prod
  have hstops := h.stops
  have hbig : msz * 1 < msz * (apsz.drop n).prod := by
    rw [← hprod, List.prod_cons, ← mul_assoc, mul_one]
    exact hcross.trans_le (Nat.le_mul_of_pos_right _ hds)
  have hrest := Nat.lt_of_mul_lt_mul_left hbig
  generalize apsz.drop n = ps at *
  generalize apst.drop n = ss at *
  cases ps with
  | nil => simp at hrest
  | cons szn ps =>
      cases ss with
      | nil => exact hstops
      | cons stn ss =>
          obtain ⟨-, hszn, hstn⟩ := hstops
          have hpos : szn ≠ 0 := by
            rintro rfl
            simp at hrest
          rw [offsetAt_cons, Nat.mod_eq_of_lt (by omega), Nat.div_eq_of_lt (by omega), offsetAt_zero, Nat.cast_one, one_mul,
            add_zero] at hvalue
          exact hstn (by rw [← hvalue, mul_comm])

-- A result that is right: strides that fit, or an error where none do
def Decides (fits : List R → Prop) (length : ℕ) (result : Except StridesError (List R)) : Prop :=
  (∃ sts, result = .ok sts ∧ sts.length = length ∧ fits sts) ∨ (∃ e, result = .error e) ∧ ∀ ts, ts.length = length → ¬fits ts

omit [CommRing R] in
theorem Decides.congr {fits fits' : List R → Prop} {length : ℕ} {result : Except StridesError (List R)}
    (h : Decides fits length result) (hiff : ∀ ts, fits ts ↔ fits' ts) : Decides fits' length result := by
  have hfits : fits = fits' := funext fun ts => propext (hiff ts)
  rwa [← hfits]

theorem State.decides_cons {d : ℕ} {ds : List ℕ} {r msz n : ℕ} {mst : R} (h : State apsz apst (d :: ds) r msz mst n)
    {result : Except StridesError (List R)} (hresult : Decides (Fits (position apsz apst msz mst n) mst (r * d) ds) ds.length result) :
    Decides (Fits (position apsz apst msz mst n) mst r (d :: ds)) (d :: ds).length (result >>= fun sts => .ok (r * mst :: sts)) := by
  rcases hresult with ⟨sts, rfl, hlen, hfit⟩ | ⟨⟨e, rfl⟩, hnone⟩
  · exact .inl ⟨r * mst :: sts, rfl, congrArg Nat.succ hlen, (fits_cons h.r_pos (h.sizes d List.mem_cons_self)).2 hfit⟩
  · refine .inr ⟨⟨e, rfl⟩, fun ts hlen hfit => ?_⟩
    cases ts with
    | nil => cases hlen
    | cons t ts => exact hnone ts (Nat.succ.inj hlen) (h.fits_tail hfit)

variable [DecidableEq R]

-- A product that has passed the merged size never comes back to it.
theorem reshapedStrides_error {ds : List ℕ} {r msz n : ℕ} {mst : R} (hds : ∀ d ∈ ds, 0 < d) (h : msz < r) :
    ∃ e, reshapedStrides apsz apst ds r msz mst n = .error e := by
  induction ds generalizing r with
  | nil => exact ⟨.ArgumentError, if_neg (by omega)⟩
  | cons d ds ih =>
      have hd : 0 < d := hds d List.mem_cons_self
      have hmul : r ≤ r * d := Nat.le_mul_of_pos_right r hd
      obtain ⟨e, he⟩ := ih (fun x hx => hds x (List.mem_cons_of_mem _ hx)) (by omega : msz < r * d)
      rw [reshapedStrides]
      dsimp only
      rw [if_neg (by omega), he]
      exact ⟨e, rfl⟩

-- After the dimension that completes the merged ones
theorem State.next {d : ℕ} {ds : List ℕ} {r msz n : ℕ} {mst : R} (h : State apsz apst (d :: ds) r msz mst n) (hds : ds ≠ [])
    (heq : r * d = msz) (hhead : ds.head? ≠ some 1) :
    ∃ msz' mst' n', mergeFrom apsz apst (n + 1) = .ok (msz', mst', n') ∧ State apsz apst ds 1 msz' mst' n' ∧
      ∀ k, offsetAt (apsz.drop n) (apst.drop n) k = position apsz apst msz' mst' n' k := by
  have hsizes : ∀ x ∈ ds, 0 < x := fun x hx => h.sizes x (List.mem_cons_of_mem _ hx)
  have hmsz : 0 < msz := h.r_pos.trans_le h.le
  have hprod : ds.prod = (apsz.drop n).prod := by
    apply Nat.eq_of_mul_eq_mul_left hmsz
    rw [← h.prod, List.prod_cons, ← mul_assoc, heq]
  have hmany : 1 < ds.prod := by
    cases ds with
    | nil => exact absurd rfl hds
    | cons d1 ds =>
        have hd1 : 0 < d1 := hsizes d1 List.mem_cons_self
        have hne : d1 ≠ 1 := fun h1 => hhead (congrArg some h1)
        rw [List.prod_cons]
        calc
          1 < d1 := by omega
          _ ≤ d1 * ds.prod := Nat.le_mul_of_pos_right d1 (List.prod_pos fun x hx => hsizes x (List.mem_cons_of_mem _ hx))
  have hn : n < apsz.length := by
    by_contra hge
    rw [List.drop_of_length_le (not_lt.1 hge), List.prod_nil] at hprod
    omega
  obtain ⟨msz', mst', n', hmerge, -, -, hoff, hprod', hstops⟩ := mergeFrom_spec h.length hn
  have hlarge : 1 < msz' := by
    have hpos : 0 < msz' := by
      rcases Nat.eq_zero_or_pos msz' with rfl | hpos
      · rw [zero_mul] at hprod'
        omega
      · exact hpos
    have hne : msz' ≠ 1 := by
      rintro rfl
      have hrest : 1 < (apsz.drop n').prod := by omega
      generalize apsz.drop n' = ps at *
      generalize apst.drop n' = ss at *
      cases ps with
      | nil => simp at hrest
      | cons szn ps =>
          cases ss with
          | nil => exact hstops
          | cons stn ss => exact hstops.1 rfl
    omega
  exact ⟨msz', mst', n', hmerge, ⟨h.length, Nat.one_pos, .inl hlarge, hstops, by rw [one_mul, hprod, hprod'], hsizes⟩, hoff⟩

theorem reshapedStrides_spec {ds : List ℕ} {r msz n : ℕ} {mst : R} (h : State apsz apst ds r msz mst n) :
    Decides (Fits (position apsz apst msz mst n) mst r ds) ds.length (reshapedStrides apsz apst ds r msz mst n) := by
  induction ds generalizing r msz mst n with
  | nil =>
      have hr : r = msz := by
        have hprod := h.prod
        have hle := h.le
        have hpos := h.r_pos
        have hrest : 0 < (apsz.drop n).prod := by
          rcases Nat.eq_zero_or_pos (apsz.drop n).prod with h0 | h0
          · rw [h0, List.prod_nil] at hprod
            omega
          · exact h0
        rw [List.prod_nil, mul_one] at hprod
        have hge := Nat.le_mul_of_pos_right msz hrest
        omega
      refine .inl ⟨[], if_pos hr, rfl, fun a ha q hq => ?_⟩
      obtain rfl : q = 0 := by simpa using hq
      rw [offsetAt_nil, add_zero, Nat.mul_zero, Nat.add_zero, position_of_lt (by omega)]
  | cons d ds ih =>
      have hd : 0 < d := h.sizes d List.mem_cons_self
      have hsizes : ∀ x ∈ ds, 0 < x := fun x hx => h.sizes x (List.mem_cons_of_mem _ hx)
      rw [reshapedStrides]
      dsimp only
      split_ifs with hadvance
      · obtain ⟨hnil, heq, hhead⟩ := hadvance
        obtain ⟨msz', mst', n', hmerge, hstate, hoff⟩ := h.next hnil heq hhead
        have hmsz : 0 < r * d := Nat.mul_pos h.r_pos hd
        rw [hmerge, ok_bind]
        apply h.decides_cons
        refine (ih hstate).congr fun ts => ?_
        rw [← heq]
        exact (fits_next hmsz hoff).symm
      · apply h.decides_cons
        rcases Nat.lt_or_ge msz (r * d) with hcross | hle
        · exact .inr ⟨reshapedStrides_error hsizes hcross, fun ts _ => h.not_fits hcross ts⟩
        · refine ih ⟨h.length, Nat.mul_pos h.r_pos hd, ?_, h.stops, ?_, hsizes⟩
          · rcases hle.lt_or_eq with hlt | heq
            · exact .inl hlt
            · refine .inr ⟨heq, ?_⟩
              by_contra hnot
              obtain ⟨hnil, hhead⟩ := not_or.1 hnot
              exact hadvance ⟨hnil, heq, hhead⟩
          · rw [mul_assoc, ← List.prod_cons]
            exact h.prod

end Strides

section Exact

variable [DecidableEq R]

theorem mergeAdjacentDim_spec {apsz : List ℕ} {apst : List R} (hlen : apst.length = apsz.length) :
    ∃ msz mst n, mergeAdjacentDim apsz apst = .ok (msz, mst, n) ∧ n ≤ apsz.length ∧
      (∀ k, offsetAt apsz apst k = position apsz apst msz mst n k) ∧ apsz.prod = msz * (apsz.drop n).prod ∧
      Stops msz mst (apsz.drop n) (apst.drop n) := by
  match apsz, apst, hlen with
  | [], [], _ => exact ⟨1, 1, 0, rfl, le_rfl, fun k => (offsetAt_one 1 k).symm, rfl, trivial⟩
  | [sz], [st], _ => exact ⟨sz, st, 1, rfl, le_rfl, fun k => rfl, rfl, trivial⟩
  | sz :: sz' :: rest, apst, hlen =>
      obtain ⟨msz, mst, n, hmerge, -, hle, hoff, hprod, hstops⟩ :=
        mergeFrom_spec (n := 0) hlen (by rw [List.length_cons]; omega)
      exact ⟨msz, mst, n, hmerge, hle, hoff, hprod, hstops⟩

-- The strides send every index to the offset of the element at its position.
def Addresses (a : ReshapedArray R) (st : List R) : Prop :=
  ∀ I, Below I a.dims → offset st I = offset a.parent.strides (digits a.parent.size (value a.dims I))

omit [DecidableEq R] in
theorem addresses_iff (a : ReshapedArray R) (st : List R) :
    Addresses a st ↔ ∀ k < a.dims.prod, offsetAt a.dims st k = offsetAt a.parent.size a.parent.strides k := by
  constructor
  · intro h k hk
    have haddress := h _ (below_digits hk)
    rwa [value_digits hk] at haddress
  · intro h I hI
    have haddress := h _ (value_lt hI)
    rwa [offsetAt, digits_value hI] at haddress

theorem strides_decides (a : ReshapedArray R) : Decides (Addresses a) a.dims.length (strides a) := by
  have hdims : ∀ d ∈ a.dims, 0 < d := fun d hd => by
    have hprod : 0 < a.dims.prod := by
      rw [a.prod_dims]
      exact List.prod_pos a.parent.size_pos
    exact Nat.pos_of_dvd_of_pos (List.dvd_prod hd) hprod
  -- packed strides are right when the parent is one row of elements
  have hpacked : ∀ mst, (∀ k < a.dims.prod, offsetAt a.parent.size a.parent.strides k = k * mst) →
      Decides (Addresses a) a.dims.length (.ok (sizeToStrides mst a.dims)) := fun mst hrow =>
    .inl ⟨_, rfl, length_packed .., (addresses_iff a _).2 fun k hk => (offsetAt_packed mst hk).trans (hrow k hk).symm⟩
  rw [strides]
  split_ifs with hcontiguous
  · apply hpacked
    intro k hk
    rw [a.parent.strides_of_contiguous hcontiguous]
    exact offsetAt_packed 1 (a.prod_dims ▸ hk)
  · obtain ⟨msz, mst, n, hmerge, hle, hoff, hprod, hstops⟩ := mergeAdjacentDim_spec a.parent.length_strides
    rw [hmerge, ok_bind]
    dsimp only
    split_ifs with hall
    · apply hpacked
      intro k hk
      rw [a.prod_dims, hprod, hall, List.drop_length, List.prod_nil, mul_one] at hk
      rw [hoff, position_of_lt hk]
    · have hmsz : 1 < msz := by
        have hpos : 0 < msz := by
          rcases Nat.eq_zero_or_pos msz with rfl | hpos
          · have := List.prod_pos a.parent.size_pos
            omega
          · exact hpos
        have hne : msz ≠ 1 := by
          have hdrop := List.drop_eq_getElem_cons (by omega : n < a.parent.size.length)
          have hlen := a.parent.length_strides
          have hdrop' := List.drop_eq_getElem_cons (by omega : n < a.parent.strides.length)
          rw [hdrop, hdrop'] at hstops
          exact hstops.1
        omega
      have hstate : State a.parent.size a.parent.strides a.dims 1 msz mst n :=
        ⟨a.parent.length_strides, Nat.one_pos, .inl hmsz, hstops, by rw [one_mul, a.prod_dims, hprod], hdims⟩
      refine (reshapedStrides_spec hstate).congr fun ts => ?_
      rw [addresses_iff]
      constructor
      · intro h k hk
        have hfit := h 0 Nat.one_pos k hk
        rwa [Nat.cast_zero, zero_mul, zero_add, Nat.zero_add, Nat.one_mul, ← hoff] at hfit
      · intro h a' ha q hq
        obtain rfl : a' = 0 := by omega
        rw [Nat.cast_zero, zero_mul, zero_add, Nat.zero_add, Nat.one_mul, ← hoff]
        exact h q hq

theorem strides_exact (a : ReshapedArray R) :
    match strides a with
    | .ok st => st.length = a.dims.length ∧ Addresses a st
    | .error _ => ∀ st, st.length = a.dims.length → ¬Addresses a st := by
  rcases strides_decides a with ⟨st, hst, hlen, haddresses⟩ | ⟨⟨e, he⟩, hnone⟩
  · rw [hst]
    exact ⟨hlen, haddresses⟩
  · rw [he]
    exact hnone

-- Two of three rows have no strides as a vector.
theorem strides_exact_rows : ∀ st : List ℤ, st.length = 1 →
    ¬Addresses (R := ℤ) ⟨⟨[2, 4], [1, 3], false, rfl, by decide, by decide⟩, [8], rfl⟩ st :=
  strides_exact (R := ℤ) ⟨⟨[2, 4], [1, 3], false, rfl, by decide, by decide⟩, [8], rfl⟩

-- With rows and columns split they have some.
example : strides (R := ℤ) ⟨⟨[2, 4], [1, 3], false, rfl, by decide, by decide⟩, [2, 1, 2, 2], rfl⟩ = .ok [1, 2, 3, 6] := by decide

end Exact

end Joolia.Reshape
