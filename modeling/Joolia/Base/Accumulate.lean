import Joolia.Library.Fallible
import Mathlib.Algebra.Ring.Int.Defs
import Mathlib.Algebra.Ring.Nat
import Mathlib.Data.List.Forall2
import Mathlib.Data.Nat.Notation
import Mathlib.Logic.Function.Basic
import Mathlib.Tactic.Common

namespace Joolia.Accumulate

-- `undefined` is an access outside the axes under `@inbounds`.
inductive Error
  | argumentError (msg : String)
  | dimensionMismatch (msg : String)
  | boundsError
  | undefined
deriving DecidableEq, Repr

-- An array with zero-based axes: the lengths of the axes, and the entries.
-- Only the entries at positions inside the axes are part of the array.
structure NDArray (α : Type) where
  shape : List ℕ
  get : List ℕ → α

variable {α : Type}

def NDArray.ndims (A : NDArray α) : ℕ := A.shape.length

-- checkbounds_indices: axes that get no index have length one, indices that get no axis are 0.
def checkboundsIndices : List ℕ → List ℕ → Bool
  | inds, [] => inds.all (· == 1)
  | [], i :: I => decide (i < 1) && checkboundsIndices [] I
  | n :: inds, i :: I => decide (i < n) && checkboundsIndices inds I

-- The position that an index list names.
def NDArray.position (A : NDArray α) (I : List ℕ) : List ℕ :=
  (I ++ List.replicate A.ndims 0).take A.ndims

def NDArray.store (B : NDArray α) (p : List ℕ) (x : α) : NDArray α :=
  ⟨B.shape, Function.update B.get p x⟩

-- `@inbounds A[I...]` and `@inbounds B[I...] = x`.
def NDArray.inboundsGetindex (A : NDArray α) (I : List ℕ) : Except Error α :=
  if checkboundsIndices A.shape I then pure (A.get (A.position I)) else throw .undefined

def NDArray.inboundsSetindex (B : NDArray α) (I : List ℕ) (x : α) : Except Error (NDArray α) :=
  if checkboundsIndices B.shape I then pure (B.store (B.position I) x) else throw .undefined

-- `B[i] = x`
def NDArray.setindex (B : NDArray α) (I : List ℕ) (x : α) : Except Error (NDArray α) :=
  if checkboundsIndices B.shape I then pure (B.store (B.position I) x) else throw .boundsError

-- The new array holds whatever is in its memory.
def similar (A : NDArray α) (undef : List ℕ → α) : NDArray α := ⟨A.shape, undef⟩

-- Called on arrays of the same shape.
def copyto (B A : NDArray α) : NDArray α := ⟨B.shape, A.get⟩

-- CartesianIndices, the first index running fastest.
def cartesianIndices : List ℕ → List (List ℕ)
  | [] => [[]]
  | n :: inds => (cartesianIndices inds).flatMap fun I => (List.range n).map (· :: I)

-- Small integers are widened; the value stays.
def reduceFirst (x : α) : α := x

-- _accumulate_pairwise!, which returns the sum over its segment beside the output
def accumulatePairwiseSegment (op : α → α → α) (c v : NDArray α) (s : α) (i1 n : ℕ) :
    Except Error (α × NDArray α) :=
  if n < 128 then do
    let s_ ← v.inboundsGetindex [i1]
    let c ← c.inboundsSetindex [i1] (op s s_)
    (List.range' (i1 + 1) (n - 1)).foldlM
      (fun state i => do
        let s_ := op state.1 (← v.inboundsGetindex [i])
        let c ← state.2.inboundsSetindex [i] (op s s_)
        pure (s_, c))
      (s_, c)
  else do
    let n2 := n >>> 1
    let (s_, c) ← accumulatePairwiseSegment op c v s i1 n2
    let (t, c) ← accumulatePairwiseSegment op c v (op s s_) (i1 + n2) (n - n2)
    pure (op s_ t, c)
termination_by n
decreasing_by
  all_goals
    rw [Nat.shiftRight_eq_div_pow]
    omega

def accumulatePairwise (op : α → α → α) (result v : NDArray α) : Except Error (NDArray α) := do
  if v.shape ≠ result.shape then
    throw (.dimensionMismatch "input and output array sizes and indices must match")
  let n := v.shape.prod
  if n = 0 then return result
  let v1 := reduceFirst (← v.inboundsGetindex [0])
  let result ← result.inboundsSetindex [0] v1
  if n = 1 then return result
  let (_, result) ← accumulatePairwiseSegment op result v v1 1 (n - 1)
  return result

-- The first value along a line, `init` being `nothing` or `Some`.
def firstValue (op : α → α → α) (init : Option α) (x : α) : α :=
  match init with
  | none => reduceFirst x
  | some z => op z x

-- _accumulate1!
def accumulate1 (op : α → α → α) (B : NDArray α) (v1 : α) (A : NDArray α) (dim : ℕ) :
    Except Error (NDArray α) := do
  if dim = 0 then throw (.argumentError "dim must be a positive integer")
  if A.shape ≠ B.shape then throw (.dimensionMismatch "LinearIndices of A and B don't match")
  if 1 < dim then return copyto B A
  let B ← B.setindex [0] v1
  let state ← (List.range' 1 (A.shape.prod - 1)).foldlM
    (fun state i => do
      let cur_val := op state.1 (← A.inboundsGetindex [i])
      let B ← state.2.inboundsSetindex [i] cur_val
      pure (cur_val, B))
    (v1, B)
  return state.2

-- The body of the loop over `CartesianIndices(tail(inds_t))` for `dims == 1`.
def accumulateLine (op : α → α → α) (A : NDArray α) (ind1 : ℕ) (init : Option α) (B : NDArray α)
    (I : List ℕ) : Except Error (NDArray α) := do
  let tmp := firstValue op init (← A.inboundsGetindex (0 :: I))
  let B ← B.inboundsSetindex (0 :: I) tmp
  let state ← (List.range' 1 (ind1 - 1)).foldlM
    (fun state i_1 => do
      let tmp := op state.1 (← A.inboundsGetindex (i_1 :: I))
      let B ← state.2.inboundsSetindex (i_1 :: I) tmp
      pure (tmp, B))
    (tmp, B)
  return state.2

-- _accumulaten!
def accumulaten (op : α → α → α) (B A : NDArray α) (R1 : List (List ℕ)) (ind : ℕ)
    (R2 : List (List ℕ)) (init : Option α) : Except Error (NDArray α) := do
  let B ← (R2.flatMap fun J => R1.map fun I => I ++ 0 :: J).foldlM
    (fun B K => do
      let tmp := firstValue op init (← A.inboundsGetindex K)
      B.inboundsSetindex K tmp)
    B
  (R2.flatMap fun J => (List.range' 1 (ind - 1)).flatMap fun i => R1.map fun I => (I, i, J)).foldlM
    (fun B (I, i, J) => do
      let Bv ← B.inboundsGetindex (I ++ (i - 1) :: J)
      let Av ← A.inboundsGetindex (I ++ i :: J)
      B.inboundsSetindex (I ++ i :: J) (op Bv Av))
    B

-- The method of _accumulate! for an integer `dims`.
def accumulateDims (op : α → α → α) (B A : NDArray α) (dims : ℕ) (init : Option α) :
    Except Error (NDArray α) := do
  if dims = 0 then throw (.argumentError "dims must be a positive integer")
  if B.shape ≠ A.shape then throw (.dimensionMismatch "shape of B must match A")
  if A.ndims < dims then return copyto B A
  match A.shape[dims]? with
  | none => throw .boundsError
  | some ind =>
      if ind = 0 then return B
      if dims = 1 then
        (cartesianIndices A.shape.tail).foldlM (accumulateLine op A ind init) B
      else
        let R1 := cartesianIndices ((A.shape.take dims).drop 1)
        let R2 := cartesianIndices (A.shape.drop (dims + 1))
        accumulaten op B A R1 ind R2 init

-- The methods of _accumulate! for a vector without `dims`.
def accumulateVector (op : α → α → α) (B A : NDArray α) (init : Option α) :
    Except Error (NDArray α) := do
  if A.shape.prod = 0 then return B
  let v1 := firstValue op init (← A.inboundsGetindex [0])
  accumulate1 op B v1 A 1

-- accumulate!
def accumulateInto (op : α → α → α) (B A : NDArray α) (dims : Option ℕ) (init : Option α) :
    Except Error (NDArray α) :=
  match dims with
  | some dims => accumulateDims op B A dims init
  | none =>
      if A.ndims = 1 then accumulateVector op B A init
      else throw (.argumentError "Keyword argument dims must be provided for multidimensional arrays")

-- accumulate with `dims`, or of a vector; without `dims` other collections go through
-- `Iterators.accumulate`.
def accumulate (op : α → α → α) (A : NDArray α) (dims : Option ℕ) (init : Option α)
    (undef : List ℕ → α) : Except Error (NDArray α) :=
  accumulateInto op (similar A undef) A dims init

inductive ArithmeticStyle
  | rounds
  | wraps
  | unknown
deriving DecidableEq, Repr

-- cumsum!(out, v::AbstractVector; dims) and _cumsum!
def cumsumVector (add : α → α → α) (out v : NDArray α) (dim : ℕ) (style : ArithmeticStyle) :
    Except Error (NDArray α) :=
  match style with
  | .rounds | .unknown => if dim = 1 then accumulatePairwise add out v else pure (copyto out v)
  | .wraps => if dim = 1 then accumulateInto add out v none none else pure (copyto out v)

-- cumsum(A; dims)
def cumsumDims (add : α → α → α) (A : NDArray α) (dims : ℕ) (style : ArithmeticStyle)
    (undef : List ℕ → α) : Except Error (NDArray α) :=
  let out := similar A undef
  if A.ndims = 1 then cumsumVector add out A dims style else accumulateInto add out A (some dims) none

-- cumsum(x::AbstractVector)
def cumsum (add : α → α → α) (x : NDArray α) (style : ArithmeticStyle) (undef : List ℕ → α) :
    Except Error (NDArray α) :=
  cumsumDims add x 1 style undef

-- cumprod(A; dims)
def cumprodDims (mul : α → α → α) (A : NDArray α) (dims : ℕ) (undef : List ℕ → α) :
    Except Error (NDArray α) :=
  accumulate mul A (some dims) none undef

-- cumprod(x::AbstractVector)
def cumprod (mul : α → α → α) (x : NDArray α) (undef : List ℕ → α) : Except Error (NDArray α) :=
  cumprodDims mul x 1 undef

end Joolia.Accumulate

namespace Joolia.Accumulate

open Fallible

variable {α : Type} {A B B' : NDArray α} {op : α → α → α} {init : Option α}

-- A position inside the axes `shape`.
def Inside (shape I : List ℕ) : Prop := List.Forall₂ (· < ·) I shape

theorem checkboundsIndices_of_inside {shape I : List ℕ} (h : Inside shape I) :
    checkboundsIndices shape I = true := by
  induction h with
  | nil => simp [checkboundsIndices]
  | cons hlt _ ih => simp [checkboundsIndices, hlt, ih]

theorem position_of_length {I : List ℕ} (h : I.length = A.shape.length) : A.position I = I := by
  simp [NDArray.position, NDArray.ndims, ← h]

@[simp] theorem store_shape (p : List ℕ) (x : α) : (B.store p x).shape = B.shape := rfl

@[simp] theorem get_store_self (p : List ℕ) (x : α) : (B.store p x).get p = x := by
  simp [NDArray.store]

theorem get_store_of_ne {p q : List ℕ} {x : α} (h : q ≠ p) : (B.store p x).get q = B.get q := by
  simp [NDArray.store, h]

-- What reads and writes inside the axes do.
theorem inboundsGetindex_of_inside {I : List ℕ} (h : Inside A.shape I) :
    A.inboundsGetindex I = .ok (A.get I) := by
  simp [NDArray.inboundsGetindex, checkboundsIndices_of_inside h, position_of_length h.length_eq]

theorem inboundsSetindex_of_inside {I : List ℕ} {x : α} (h : Inside B.shape I) :
    B.inboundsSetindex I x = .ok (B.store I x) := by
  simp [NDArray.inboundsSetindex, checkboundsIndices_of_inside h, position_of_length h.length_eq]

theorem setindex_of_inside {I : List ℕ} {x : α} (h : Inside B.shape I) :
    B.setindex I x = .ok (B.store I x) := by
  simp [NDArray.setindex, checkboundsIndices_of_inside h, position_of_length h.length_eq]

-- What a read or a write that went through says of its indices.
theorem of_inboundsGetindex {I : List ℕ} {x : α} (h : A.inboundsGetindex I = .ok x) :
    checkboundsIndices A.shape I = true ∧ x = A.get (A.position I) := by
  by_cases hI : checkboundsIndices A.shape I = true
  · simp [NDArray.inboundsGetindex, hI] at h
    exact ⟨hI, h.symm⟩
  · simp [NDArray.inboundsGetindex, hI] at h

theorem of_inboundsSetindex {I : List ℕ} {x : α} (h : B.inboundsSetindex I x = .ok B') :
    checkboundsIndices B.shape I = true ∧ B' = B.store (B.position I) x := by
  by_cases hI : checkboundsIndices B.shape I = true
  · simp [NDArray.inboundsSetindex, hI] at h
    exact ⟨hI, h.symm⟩
  · simp [NDArray.inboundsSetindex, hI] at h

theorem mem_cartesianIndices {shape I : List ℕ} : I ∈ cartesianIndices shape ↔ Inside shape I := by
  induction shape generalizing I with
  | nil => simp [cartesianIndices, Inside]
  | cons n shape ih =>
      cases I with
      | nil => simp [cartesianIndices, Inside]
      | cons i I =>
          simp [cartesianIndices, Inside, List.forall₂_cons] at ih ⊢
          rw [← ih]
          tauto

theorem cartesianIndices_of_zero {shape : List ℕ} (h : 0 ∈ shape) : cartesianIndices shape = [] := by
  induction shape with
  | nil => simp at h
  | cons n shape ih =>
      rcases List.mem_cons.mp h with hn | hn
      · simp [cartesianIndices, ← hn]
      · simp [cartesianIndices, ih hn]

theorem not_inside_of_zero {shape I : List ℕ} (h : 0 ∈ shape) : ¬ Inside shape I := by
  intro hI
  have hmem := mem_cartesianIndices.mpr hI
  simp [cartesianIndices_of_zero h] at hmem

-- The last position of an array without empty axes.
theorem inside_last {shape : List ℕ} (h : 0 ∉ shape) : Inside shape (shape.map (· - 1)) := by
  induction shape with
  | nil => exact .nil
  | cons n shape ih =>
      simp only [List.mem_cons, not_or] at h
      exact .cons (by dsimp only; omega) (ih h.2)

theorem inside_zeros {shape : List ℕ} (h : 0 ∉ shape) : Inside shape (shape.map fun _ => 0) := by
  induction shape with
  | nil => exact .nil
  | cons n shape ih =>
      simp only [List.mem_cons, not_or] at h
      exact .cons (by dsimp only; omega) (ih h.2)

theorem inside_append {s₁ s₂ I J : List ℕ} (hI : Inside s₁ I) (hJ : Inside s₂ J) :
    Inside (s₁ ++ s₂) (I ++ J) :=
  List.rel_append hI hJ

-- A loop that sets each of its positions to the first value of its line.
theorem foldlM_firstValue (op : α → α → α) (init : Option α) {l : List (List ℕ)} (hl : ∀ K ∈ l, Inside A.shape K) (hB : B.shape = A.shape) :
    ∃ B', l.foldlM (fun B K => do
        let tmp := firstValue op init (← A.inboundsGetindex K)
        B.inboundsSetindex K tmp) B = .ok B' ∧
      B'.shape = A.shape ∧ ∀ K ∈ l, B'.get K = firstValue op init (A.get K) := by
  refine foldlM_spec (fun done (B : NDArray α) => B.shape = A.shape ∧ ∀ K ∈ done, B.get K = firstValue op init (A.get K))
    l ⟨hB, by simp⟩ ?_
  rintro done K state hK ⟨hshape, hdone⟩
  have hin : Inside state.shape K := hshape ▸ hl K hK
  refine ⟨state.store K (firstValue op init (A.get K)),
    by simp [inboundsGetindex_of_inside (hl K hK), inboundsSetindex_of_inside hin], hshape, ?_⟩
  intro K' hK'
  by_cases heq : K' = K
  · simp [heq]
  · rw [get_store_of_ne heq]
    exact hdone K' (by simpa [heq] using hK')

-- A line of length one only gets its first value.
theorem accumulateLine_one {I : List ℕ} :
    accumulateLine op A 1 init B I = (do
      let tmp := firstValue op init (← A.inboundsGetindex (0 :: I))
      B.inboundsSetindex (0 :: I) tmp) := by
  simp [accumulateLine]

-- The value after the entries at `0, ..., k`.
def prefixFold (op : α → α → α) (init : Option α) (x : ℕ → α) : ℕ → α
  | 0 => firstValue op init (x 0)
  | k + 1 => op (prefixFold op init x k) (x (k + 1))

-- Accumulating a vector leaves the values of the running fold.
theorem accumulateVector_spec (op : α → α → α) (init : Option α) {n : ℕ} (hA : A.shape = [n]) (hB : B.shape = [n]) :
    ∃ B', accumulateVector op B A init = .ok B' ∧ B'.shape = [n] ∧
      ∀ i, i < n → B'.get [i] = prefixFold op init (fun k => A.get [k]) i := by
  by_cases hn : n = 0
  · refine ⟨B, by simp [accumulateVector, hA, hn], hB, fun i hi => by omega⟩
  have hinside : ∀ {C : NDArray α} {i : ℕ}, C.shape = [n] → i < n → Inside C.shape [i] := by
    intro C i hC hi
    rw [hC]
    exact .cons hi .nil
  have hfirst := setindex_of_inside (x := prefixFold op init (fun k => A.get [k]) 0)
    (hinside hB (by omega : 0 < n))
  obtain ⟨last, hloop, hlast⟩ := foldlM_up
    (fun k (state : α × NDArray α) => state.1 = prefixFold op init (fun k => A.get [k]) (k - 1) ∧
      state.2.shape = [n] ∧ ∀ i, i < k → state.2.get [i] = prefixFold op init (fun k => A.get [k]) i)
    (f := fun state i => do
      let cur_val := op state.1 (← A.inboundsGetindex [i])
      let B ← state.2.inboundsSetindex [i] cur_val
      pure (cur_val, B))
    (s := (prefixFold op init (fun k => A.get [k]) 0,
      B.store [0] (prefixFold op init (fun k => A.get [k]) 0)))
    (by omega : 1 ≤ n) ⟨rfl, hB, by
      intro i hi
      have hi : i = 0 := by omega
      simp [hi]⟩ (by
      rintro i ⟨cur, C⟩ hlo hhi ⟨hcur, hC, hvals⟩
      obtain ⟨k, rfl⟩ : ∃ k, i = k + 1 := ⟨i - 1, by omega⟩
      simp only [Nat.add_sub_cancel] at hcur
      refine ⟨(op cur (A.get [k + 1]), C.store [k + 1] (op cur (A.get [k + 1]))), by
        simp [inboundsGetindex_of_inside (hinside hA hhi), inboundsSetindex_of_inside (hinside hC hhi)], ?_, hC, ?_⟩
      · simp [hcur, prefixFold]
      · intro j hj
        by_cases heq : j = k + 1
        · simp [heq, hcur, prefixFold]
        · rw [get_store_of_ne (by simpa using heq)]
          exact hvals j (by omega))
  · refine ⟨last.2, ?_, hlast.2.1, hlast.2.2⟩
    have hget := inboundsGetindex_of_inside (hinside hA (by omega : 0 < n))
    simp only [prefixFold, pure_eq_ok] at hfirst hloop
    simp [accumulateVector, accumulate1, hA, hB, hn, hget, hfirst, hloop]

-- What a pass of the loop for `dims == 1` needs and leaves.
theorem of_accumulateLine {ind1 : ℕ} {I : List ℕ}
    (h : accumulateLine op A ind1 init B I = .ok B') :
    ∃ x C state, A.inboundsGetindex (0 :: I) = .ok x ∧
      B.inboundsSetindex (0 :: I) (firstValue op init x) = .ok C ∧
      (List.range' 1 (ind1 - 1)).foldlM
        (fun state i_1 => do
          let tmp := op state.1 (← A.inboundsGetindex (i_1 :: I))
          let B ← state.2.inboundsSetindex (i_1 :: I) tmp
          pure (tmp, B))
        (firstValue op init x, C) = .ok state ∧ B' = state.2 := by
  simp only [accumulateLine, bind_eq_ok] at h
  obtain ⟨x, hx, C, hC, state, hloop, hB'⟩ := h
  exact ⟨x, C, state, hx, hC, hloop, by simpa using hB'.symm⟩

-- It reaches the last index of the second axis on the first.
theorem accumulateLine_reads {ind1 : ℕ} {I : List ℕ} (hind : 0 < ind1)
    (h : accumulateLine op A ind1 init B I = .ok B') :
    checkboundsIndices A.shape ((ind1 - 1) :: I) = true := by
  obtain ⟨x, C, state, hx, -, hloop, -⟩ := of_accumulateLine h
  by_cases hone : ind1 = 1
  · simpa [hone] using (of_inboundsGetindex hx).1
  · have hmem : ind1 - 1 ∈ List.range' 1 (ind1 - 1) := by
      rw [List.mem_range'_1]
      omega
    obtain ⟨s, next, -, hpass⟩ := exists_pass (fun _ => True) trivial (fun _ _ _ _ _ _ => trivial) hloop hmem
    simp only [bind_eq_ok] at hpass
    obtain ⟨y, hy, -⟩ := hpass
    exact (of_inboundsGetindex hy).1

-- What holds of every value that `op` returns and of the memory stays true off the first index.
theorem accumulateLine_off_first {ind1 : ℕ} {I : List ℕ} {P : α → Prop}
    (hop : ∀ a b, P (op a b)) (hshape : 0 < B.ndims) (hB : ∀ i J, P (B.get ((i + 1) :: J)))
    (h : accumulateLine op A ind1 init B I = .ok B') :
    0 < B'.ndims ∧ ∀ i J, P (B'.get ((i + 1) :: J)) := by
  obtain ⟨x, C, state, -, hC, hloop, rfl⟩ := of_accumulateLine h
  have hposition : ∀ {D : NDArray α} {i : ℕ}, 0 < D.ndims → ∃ J, D.position (i :: I) = i :: J := by
    intro D i hD
    obtain ⟨m, hm⟩ := Nat.exists_eq_succ_of_ne_zero (by omega : D.ndims ≠ 0)
    exact ⟨_, by rw [NDArray.position, hm, List.cons_append, List.take_succ_cons]⟩
  refine foldlM_invariant (fun state => 0 < state.2.ndims ∧ ∀ i J, P (state.2.get ((i + 1) :: J))) ?_ ?_ hloop
  · obtain ⟨-, rfl⟩ := of_inboundsSetindex hC
    refine ⟨hshape, ?_⟩
    intro i J
    obtain ⟨K, hK⟩ := hposition (i := 0) hshape
    rw [hK, get_store_of_ne (by simp)]
    exact hB i J
  · rintro i_1 hi ⟨tmp, D⟩ next ⟨hD, hvals⟩ hpass
    simp only [bind_eq_ok] at hpass
    obtain ⟨y, -, E, hE, hnext⟩ := hpass
    obtain ⟨-, rfl⟩ := of_inboundsSetindex hE
    cases hnext
    refine ⟨hD, ?_⟩
    intro i J
    obtain ⟨K, hK⟩ := hposition (i := i_1) hD
    by_cases heq : (i + 1) :: J = i_1 :: K
    · rw [hK, heq, get_store_self]
      exact hop _ _
    · rw [hK, get_store_of_ne heq]
      exact hvals i J

section General

variable {R1 R2 : List (List ℕ)} {ind : ℕ}

-- Every index list that the loops of _accumulaten! form is used.
theorem accumulaten_reads (h : accumulaten op B A R1 ind R2 init = .ok B') {I J : List ℕ} {i : ℕ}
    (hI : I ∈ R1) (hi : i < ind) (hJ : J ∈ R2) : checkboundsIndices A.shape (I ++ i :: J) = true := by
  simp only [accumulaten, bind_eq_ok] at h
  obtain ⟨C, hfirst, hrest⟩ := h
  by_cases h0 : i = 0
  · subst h0
    obtain ⟨s, next, -, hpass⟩ := exists_pass (fun _ => True) trivial (fun _ _ _ _ _ _ => trivial) hfirst
      (List.mem_flatMap.mpr ⟨J, hJ, List.mem_map.mpr ⟨I, hI, rfl⟩⟩)
    simp only [bind_eq_ok] at hpass
    obtain ⟨y, hy, -⟩ := hpass
    exact (of_inboundsGetindex hy).1
  · have hmem : i ∈ List.range' 1 (ind - 1) := by
      rw [List.mem_range'_1]
      omega
    obtain ⟨s, next, -, hpass⟩ := exists_pass (fun _ => True) trivial (fun _ _ _ _ _ _ => trivial) hrest
      (List.mem_flatMap.mpr ⟨J, hJ, List.mem_flatMap.mpr ⟨i, hmem, List.mem_map.mpr ⟨I, hI, rfl⟩⟩⟩)
    simp only [bind_eq_ok] at hpass
    obtain ⟨Bv, -, Av, hAv, -⟩ := hpass
    exact (of_inboundsGetindex hAv).1

-- The other positions keep what they had.
theorem accumulaten_frame (h : accumulaten op B A R1 ind R2 init = .ok B') {p : List ℕ} (hind : 0 < ind)
    (hp : ∀ I ∈ R1, ∀ i, i < ind → ∀ J ∈ R2, B.position (I ++ i :: J) ≠ p) : B'.get p = B.get p := by
  simp only [accumulaten, bind_eq_ok] at h
  obtain ⟨C, hfirst, hrest⟩ := h
  have hstore : ∀ {D E : NDArray α} {K : List ℕ} {x : α}, D.shape = B.shape ∧ D.get p = B.get p →
      B.position K ≠ p → D.inboundsSetindex K x = .ok E → E.shape = B.shape ∧ E.get p = B.get p := by
    rintro D E K x ⟨hshape, hget⟩ hK hset
    obtain ⟨-, rfl⟩ := of_inboundsSetindex hset
    have hpos : D.position K = B.position K := by simp [NDArray.position, NDArray.ndims, hshape]
    refine ⟨hshape, ?_⟩
    rw [hpos, get_store_of_ne (Ne.symm hK), hget]
  have hC := foldlM_invariant (fun D => D.shape = B.shape ∧ D.get p = B.get p) ⟨rfl, rfl⟩ ?_ hfirst
  · refine (foldlM_invariant (fun D => D.shape = B.shape ∧ D.get p = B.get p) hC ?_ hrest).2
    rintro ⟨I, i, J⟩ hmem D E hD hpass
    simp only [List.mem_flatMap, List.mem_map, List.mem_range'_1, Prod.mk.injEq] at hmem
    obtain ⟨J', hJ, i', hi, I', hI, rfl, rfl, rfl⟩ := hmem
    simp only [bind_eq_ok] at hpass
    obtain ⟨Bv, -, Av, -, hset⟩ := hpass
    exact hstore hD (hp _ hI _ (by omega) _ hJ) hset
  · rintro K hmem D E hD hpass
    simp only [List.mem_flatMap, List.mem_map] at hmem
    obtain ⟨J, hJ, I, hI, rfl⟩ := hmem
    simp only [bind_eq_ok] at hpass
    obtain ⟨y, -, hset⟩ := hpass
    exact hstore hD (hp I hI 0 hind J hJ) hset

end General

end Joolia.Accumulate
