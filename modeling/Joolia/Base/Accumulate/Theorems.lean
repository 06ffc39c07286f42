import Joolia.Base.Accumulate.Pairwise

namespace Joolia.Accumulate

open Fallible

variable {α : Type} {A B B' : NDArray α} {op : α → α → α} {init : Option α}

-- The left fold of `op`; without `init` it starts from the first entry.
def leftFold (op : α → α → α) (init : Option α) (xs : List α) : Option α :=
  match init, xs with
  | some z, xs => some (xs.foldl op z)
  | none, [] => none
  | none, x :: xs => some (xs.foldl op x)

-- The entries at the positions `0, ..., I[d]` along dimension `d`.
def NDArray.along (A : NDArray α) (d : ℕ) (I : List ℕ) : List α :=
  (List.range (I.getD d 0 + 1)).map fun k => A.get (I.set d k)

-- What the documentation promises of the calls.
inductive Call
  | accumulateDims (first : ℕ) (rest : List ℕ) (d : ℕ)
  | accumulate (n : ℕ)
  | cumsum (n : ℕ) (style : ArithmeticStyle)
  | cumsumDimsZero (n : ℕ) (style : ArithmeticStyle)
  | cumprod (n : ℕ)
deriving DecidableEq, Repr

-- `B` holds the folds along `d`, and a copy when the array has no dimension `d`.
def FoldsAlong (op : α → α → α) (init : Option α) (A : NDArray α) (d : ℕ) (B : NDArray α) : Prop :=
  B.shape = A.shape ∧ ∀ I, Inside A.shape I →
    if d < A.ndims then leftFold op init (A.along d I) = some (B.get I) else B.get I = A.get I

-- `B` holds the sums of the prefixes of a vector.
def PrefixSums (add : α → α → α) (A B : NDArray α) : Prop :=
  B.shape = A.shape ∧ ∀ i, Inside A.shape [i] →
    IsSum add (A.along 0 [i]) (B.get [i]) ∧
      ((∀ a b c, add (add a b) c = add a (add b c)) → leftFold add none (A.along 0 [i]) = some (B.get [i]))

-- For every array of the shape, every function and whatever the new memory holds.
def Call.Meets : Call → Prop
  | .accumulateDims first rest d =>
      ∀ (α : Type) (op : α → α → α) (init : Option α) (A : NDArray α) (undef : List ℕ → α),
        A.shape = first :: rest →
          ∃ B, Accumulate.accumulate op A (some d) init undef = .ok B ∧ FoldsAlong op init A d B
  | .accumulate n =>
      ∀ (α : Type) (op : α → α → α) (init : Option α) (A : NDArray α) (undef : List ℕ → α),
        A.shape = [n] → ∃ B, Accumulate.accumulate op A none init undef = .ok B ∧ FoldsAlong op init A 0 B
  | .cumsum n style =>
      ∀ (α : Type) (add : α → α → α) (A : NDArray α) (undef : List ℕ → α),
        A.shape = [n] → ∃ B, Accumulate.cumsum add A style undef = .ok B ∧ PrefixSums add A B
  | .cumsumDimsZero n style =>
      ∀ (α : Type) (add : α → α → α) (A : NDArray α) (undef : List ℕ → α),
        A.shape = [n] → ∃ B, cumsumDims add A 0 style undef = .ok B ∧ PrefixSums add A B
  | .cumprod n =>
      ∀ (α : Type) (mul : α → α → α) (A : NDArray α) (undef : List ℕ → α),
        A.shape = [n] → ∃ B, Accumulate.cumprod mul A undef = .ok B ∧ FoldsAlong mul none A 0 B

-- The calls that come out right. With `dims` these are the dimensions beyond the last one, arrays
-- that are empty in a dimension other than the first, and those whose lines have one entry on
-- every axis the loops confuse.
def Call.Condition : Call → Prop
  | .accumulateDims first rest d =>
      rest.length + 1 < d ∨ (0 < d ∧ d < rest.length + 1 ∧
        (0 ∈ rest ∨ (d = 1 ∧ first = 1 ∧ rest.head? = some 1) ∨ (2 ≤ d ∧ first = 1 ∧ ∀ a ∈ rest, a = 1)))
  | .accumulate _ => True
  | .cumsum _ _ => True
  | .cumsumDimsZero n _ => n ≤ 1
  | .cumprod _ => False

theorem leftFold_single (x : α) : leftFold op init [x] = some (firstValue op init x) := by
  cases init <;> rfl

theorem leftFold_concat {xs : List α} {y : α} (x : α) (h : leftFold op init xs = some y) :
    leftFold op init (xs ++ [x]) = some (op y x) := by
  cases init with
  | some z => simp_all [leftFold]
  | none =>
      cases xs with
      | nil => simp [leftFold] at h
      | cons a as => simp_all [leftFold]

theorem leftFold_range (x : ℕ → α) (k : ℕ) :
    leftFold op init ((List.range (k + 1)).map x) = some (prefixFold op init x k) := by
  induction k with
  | zero => exact leftFold_single (x 0)
  | succ k ih =>
      rw [List.range_succ, List.map_append]
      exact leftFold_concat (x (k + 1)) ih

theorem along_of_zero {d : ℕ} {I : List ℕ} (h : I[d]? = some 0) : A.along d I = [A.get I] := by
  obtain ⟨hlt, hget⟩ := List.getElem?_eq_some_iff.mp h
  have hset : I.set d 0 = I := by
    rw [← hget]
    exact List.set_getElem_self hlt
  simp [NDArray.along, hget, hlt, hset]

theorem along_vector (i : ℕ) : A.along 0 [i] = segment A 0 (i + 1) := by
  simp [NDArray.along, segment, List.range_eq_range']

theorem forall_inside_vector {n : ℕ} (hA : A.shape = [n]) {P : List ℕ → Prop} :
    (∀ I, Inside A.shape I → P I) ↔ ∀ i, i < n → P [i] := by
  rw [hA]
  constructor
  · intro h i hi
    exact h [i] (.cons hi .nil)
  · intro h I hI
    cases hI with
    | cons hlt hrest =>
        cases hrest
        exact h _ hlt

-- A vector is folded from its first entry on.
theorem accumulate_meets (n : ℕ) : (Call.accumulate n).Meets := by
  intro α op init A undef hA
  obtain ⟨B, hrun, hshape, hvals⟩ := accumulateVector_spec (B := similar A undef) op init hA hA
  refine ⟨B, ?_, by rw [hshape, hA], ?_⟩
  · simpa [accumulate, accumulateInto, NDArray.ndims, hA] using hrun
  · rw [forall_inside_vector hA]
    intro i hi
    rw [if_pos (by simp [NDArray.ndims, hA]), hvals i hi]
    exact leftFold_range (fun k => A.get [k]) i

theorem PrefixSums.of_isSum {n : ℕ} (hA : A.shape = [n]) (hB : B.shape = [n]) {add : α → α → α}
    (h : ∀ i, i < n → IsSum add (segment A 0 (i + 1)) (B.get [i])) : PrefixSums add A B := by
  refine ⟨by rw [hA, hB], ?_⟩
  intro i hi
  have hi : i < n := by
    rw [hA] at hi
    cases hi with
    | cons hlt _ => exact hlt
  rw [along_vector]
  refine ⟨h i hi, ?_⟩
  intro hassoc
  obtain ⟨x, rest, hxs, hval⟩ := (h i hi).eq_foldl hassoc
  rw [hxs, hval]
  rfl

theorem isSum_prefixFold (add : α → α → α) (A : NDArray α) (k : ℕ) :
    IsSum add (segment A 0 (k + 1)) (prefixFold add none (fun i => A.get [i]) k) := by
  induction k with
  | zero => exact isSum_single A 0
  | succ k ih => exact ih.append (by simpa using isSum_single A (k + 1))

-- Sums of a vector, pairwise or from the first entry on.
theorem cumsum_meets (n : ℕ) (style : ArithmeticStyle) : (Call.cumsum n style).Meets := by
  intro α add A undef hA
  have hpairwise := accumulatePairwise_spec (c := similar A undef) add hA hA
  cases style with
  | rounds =>
      obtain ⟨B, hrun, hshape, hsums⟩ := hpairwise
      refine ⟨B, ?_, .of_isSum hA hshape hsums⟩
      simpa [cumsum, cumsumDims, cumsumVector, NDArray.ndims, hA] using hrun
  | unknown =>
      obtain ⟨B, hrun, hshape, hsums⟩ := hpairwise
      refine ⟨B, ?_, .of_isSum hA hshape hsums⟩
      simpa [cumsum, cumsumDims, cumsumVector, NDArray.ndims, hA] using hrun
  | wraps =>
      obtain ⟨B, hrun, hshape, hvals⟩ := accumulateVector_spec (B := similar A undef) add none hA hA
      refine ⟨B, ?_, .of_isSum hA hshape fun i hi => ?_⟩
      · simpa [cumsum, cumsumDims, cumsumVector, accumulateInto, NDArray.ndims, hA] using hrun
      · rw [hvals i hi]
        exact isSum_prefixFold add A i

theorem cumsumDims_zero (add : α → α → α) (style : ArithmeticStyle) (undef : List ℕ → α) {n : ℕ}
    (hA : A.shape = [n]) : cumsumDims add A 0 style undef = .ok ⟨A.shape, A.get⟩ := by
  cases style <;> simp [cumsumDims, cumsumVector, NDArray.ndims, hA, copyto, similar]

-- `dims = 0` only copies.
theorem cumsumDimsZero_meets_iff (n : ℕ) (style : ArithmeticStyle) :
    (Call.cumsumDimsZero n style).Meets ↔ n ≤ 1 := by
  constructor
  · intro h
    by_contra hn
    obtain ⟨B, hrun, -, hsums⟩ := h ℕ (· + ·) ⟨[n], fun _ => 1⟩ (fun _ => 0) rfl
    rw [cumsumDims_zero _ _ _ rfl, Except.ok.injEq] at hrun
    obtain ⟨-, hsum⟩ := hsums 1 (.cons (by omega) .nil)
    have hval := hsum Nat.add_assoc
    simp [← hrun, along_vector, segment, List.range', leftFold] at hval
  · intro hn α add A undef hA
    refine ⟨⟨A.shape, A.get⟩, cumsumDims_zero add style undef hA, .of_isSum hA hA ?_⟩
    intro i hi
    obtain rfl : i = 0 := by omega
    exact isSum_single A 0

-- Dimension 1 of a vector does not exist, and is not recognised as such.
theorem not_cumprod_meets (n : ℕ) : ¬ (Call.cumprod n).Meets := by
  intro h
  obtain ⟨B, hrun, -⟩ := h ℕ (· * ·) ⟨[n], fun _ => 1⟩ (fun _ => 0) rfl
  simp [cumprod, cumprodDims, accumulate, accumulateInto, accumulateDims, similar, NDArray.ndims] at hrun

section Dims

variable {first d : ℕ} {rest : List ℕ} {undef : List ℕ → α}

-- The call inside the array's dimensions, once the axis `d` is looked up.
theorem accumulate_dims_eq (hA : A.shape = first :: rest) {ind : ℕ} (hind : rest[d]? = some ind) :
    accumulate op A (some (d + 1)) init undef =
      if ind = 0 then .ok (similar A undef)
      else if d = 0 then (cartesianIndices rest).foldlM (accumulateLine op A ind init) (similar A undef)
      else accumulaten op (similar A undef) A (cartesianIndices (rest.take d)) ind
        (cartesianIndices (rest.drop (d + 1))) init := by
  obtain ⟨hlt, -⟩ := List.getElem?_eq_some_iff.mp hind
  have hnot : ¬ A.ndims < d + 1 := by
    simp only [NDArray.ndims, hA, List.length_cons]
    omega
  simp [accumulate, accumulateInto, accumulateDims, similar, hA, hind, hnot]

theorem exists_axis (hd : d < rest.length) : ∃ ind, rest[d]? = some ind ∧ rest = rest.take d ++ ind :: rest.drop (d + 1) := by
  refine ⟨rest[d], List.getElem?_eq_getElem hd, ?_⟩
  rw [← List.drop_eq_getElem_cons hd, List.take_append_drop]

theorem foldsAlong_of_zero (hA : A.shape = first :: rest) (h0 : 0 ∈ rest) (hB : B.shape = A.shape) :
    FoldsAlong op init A d B := by
  refine ⟨hB, ?_⟩
  intro I hI
  rw [hA] at hI
  exact absurd hI (not_inside_of_zero (List.mem_cons_of_mem _ h0))

-- An array without entries is left alone.
theorem accumulateDims_of_zero (hA : A.shape = first :: rest) (h0 : 0 ∈ rest) (hd : d < rest.length) :
    ∃ B, accumulate op A (some (d + 1)) init undef = .ok B ∧ FoldsAlong op init A (d + 1) B := by
  obtain ⟨ind, hind, hsplit⟩ := exists_axis hd
  refine ⟨similar A undef, ?_, foldsAlong_of_zero hA h0 rfl⟩
  rw [accumulate_dims_eq hA hind]
  by_cases hzero : ind = 0
  · rw [if_pos hzero]
  rw [if_neg hzero]
  by_cases hd0 : d = 0
  · simp [hd0, cartesianIndices_of_zero h0]
  · rw [hsplit] at h0
    rcases List.mem_append.mp h0 with h0 | h0
    · have hnil : ∀ {β γ : Type} (l : List β), l.flatMap (fun _ => ([] : List γ)) = [] := by
        intro β γ l
        rw [List.flatMap_eq_nil_iff]
        exact fun _ _ => rfl
      simp [hd0, accumulaten, cartesianIndices_of_zero h0, hnil]
    · have h0 : 0 ∈ rest.drop (d + 1) := by
        rcases List.mem_cons.mp h0 with h0 | h0
        · exact absurd h0.symm hzero
        · exact h0
      simp [hd0, accumulaten, cartesianIndices_of_zero h0]

-- Where the line along `d` has one entry, the first value is the fold.
theorem foldsAlong_of_firstValue (hB : B.shape = A.shape) (hd : A.shape[d]? = some 1)
    (h : ∀ I, Inside A.shape I → B.get I = firstValue op init (A.get I)) : FoldsAlong op init A d B := by
  refine ⟨hB, ?_⟩
  intro I hI
  obtain ⟨hlt, hget⟩ := List.getElem?_eq_some_iff.mp hd
  have hId : I[d]? = some 0 := by
    have hlen : d < I.length := by
      rw [hI.length_eq]
      exact hlt
    have hlt := List.Forall₂.get hI hlen hlt
    rw [List.getElem?_eq_some_iff]
    refine ⟨hlen, ?_⟩
    simp only [List.get_eq_getElem, hget] at hlt
    omega
  rw [if_pos (show d < A.ndims by exact hlt), along_of_zero hId, leftFold_single, h I hI]

theorem accumulateDims_one (hA : A.shape = 1 :: rest) (hrest : rest[0]? = some 1) :
    ∃ B, accumulate op A (some 1) init undef = .ok B ∧ FoldsAlong op init A 1 B := by
  have hinside : ∀ K ∈ (cartesianIndices rest).map (0 :: ·), Inside A.shape K := by
    intro K hK
    obtain ⟨I, hI, rfl⟩ := List.mem_map.mp hK
    rw [hA]
    exact .cons (by omega) (mem_cartesianIndices.mp hI)
  obtain ⟨B, hrun, hshape, hvals⟩ := foldlM_firstValue (B := similar A undef) op init hinside rfl
  refine ⟨B, ?_, foldsAlong_of_firstValue hshape (by simpa [hA] using hrest) ?_⟩
  · rw [List.foldlM_map] at hrun
    rw [accumulate_dims_eq hA hrest, if_neg (by omega), if_pos rfl, ← hrun]
    congr 1
    funext C I
    exact accumulateLine_one
  · intro I hI
    refine hvals I ?_
    rw [hA] at hI
    cases hI with
    | @cons i _ I' _ hi hI' =>
        obtain rfl : i = 0 := by omega
        exact List.mem_map.mpr ⟨I', mem_cartesianIndices.mpr hI', rfl⟩

theorem cartesianIndices_of_ones {s : List ℕ} (h : ∀ a ∈ s, a = 1) :
    cartesianIndices s = [List.replicate s.length 0] := by
  induction s with
  | nil => rfl
  | cons a s ih =>
      obtain rfl := h a (by simp)
      simp [cartesianIndices, ih fun b hb => h b (by simp [hb]), List.replicate_succ]

theorem eq_zeros_of_inside {s I : List ℕ} (h : ∀ a ∈ s, a = 1) (hI : Inside s I) :
    I = List.replicate s.length 0 := by
  have hmem := mem_cartesianIndices.mpr hI
  simpa [cartesianIndices_of_ones h] using hmem

theorem checkboundsIndices_of_ones {s : List ℕ} (h : ∀ a ∈ s, a = 1) (k : ℕ) :
    checkboundsIndices s (List.replicate k 0) = true := by
  induction k generalizing s with
  | zero => simpa [checkboundsIndices] using h
  | succ k ih =>
      cases s with
      | nil => simpa [checkboundsIndices, List.replicate_succ] using @ih [] (by simp)
      | cons a s =>
          obtain rfl := h a (by simp)
          simpa [checkboundsIndices, List.replicate_succ] using @ih s fun b hb => h b (by simp [hb])

theorem position_zeros (A : NDArray α) (k : ℕ) :
    A.position (List.replicate k 0) = List.replicate A.ndims 0 := by
  simp [NDArray.position, List.take_replicate]

-- An array of one entry.
theorem accumulateDims_ones (hA : A.shape = 1 :: rest) (hones : ∀ a ∈ rest, a = 1) (h0 : d ≠ 0)
    (hd : d < rest.length) :
    ∃ B, accumulate op A (some (d + 1)) init undef = .ok B ∧ FoldsAlong op init A (d + 1) B := by
  obtain ⟨ind, hind, hsplit⟩ := exists_axis hd
  obtain rfl : ind = 1 := hones ind (List.mem_of_getElem? hind)
  have hones' : ∀ a ∈ A.shape, a = 1 := by
    rw [hA]
    intro a ha
    rcases List.mem_cons.mp ha with rfl | ha
    · rfl
    · exact hones a ha
  have htake := cartesianIndices_of_ones fun a ha => hones a (List.mem_of_mem_take (i := d) ha)
  have hdrop := cartesianIndices_of_ones fun a ha => hones a (List.mem_of_mem_drop (i := d + 1) ha)
  refine ⟨(similar A undef).store (List.replicate A.ndims 0) (firstValue op init (A.get (List.replicate A.ndims 0))),
    ?_, foldsAlong_of_firstValue rfl (by simpa [hA] using hind) ?_⟩
  · have hK : List.replicate (rest.take d).length 0 ++ 0 :: List.replicate (rest.drop (d + 1)).length 0 =
        List.replicate rest.length 0 := by
      rw [← List.replicate_succ, List.replicate_append_replicate]
      congr 1
      simp only [List.length_take, List.length_drop]
      omega
    have hget : A.inboundsGetindex (List.replicate rest.length 0) = .ok (A.get (List.replicate A.ndims 0)) := by
      simp [NDArray.inboundsGetindex, checkboundsIndices_of_ones hones', position_zeros]
    have hset : ∀ x, (similar A undef).inboundsSetindex (List.replicate rest.length 0) x =
        .ok ((similar A undef).store (List.replicate A.ndims 0) x) := by
      intro x
      have hbounds : checkboundsIndices (similar A undef).shape (List.replicate rest.length 0) = true :=
        checkboundsIndices_of_ones hones' rest.length
      have hndims : (similar A undef).ndims = A.ndims := rfl
      simp [NDArray.inboundsSetindex, hbounds, position_zeros, hndims]
    rw [accumulate_dims_eq hA hind, if_neg (by omega), if_neg h0, htake, hdrop]
    simp only [List.length_take, List.length_drop] at hK
    simp [accumulaten, hK, hget, hset]
  · intro I hI
    obtain rfl := eq_zeros_of_inside hones' hI
    exact get_store_self _ _

-- Along dimension 1 the loop takes the length of that axis for the first one, so it reads outside
-- the first axis or leaves part of it.
theorem first_axis_of_meets (h : (Call.accumulateDims first rest 1).Meets) (h0 : 0 ∉ rest)
    (hlen : 0 < rest.length) : first = 1 ∧ rest.head? = some 1 := by
  obtain ⟨ind, hind, -⟩ := exists_axis hlen
  have hpos : ind ≠ 0 := fun hz => h0 (hz ▸ List.mem_of_getElem? hind)
  obtain ⟨B, hrun, -, hvals⟩ := h ℕ (fun _ _ => 7) none ⟨first :: rest, fun _ => 0⟩ (fun _ => 7) rfl
  rw [accumulate_dims_eq rfl hind, if_neg hpos, if_pos rfl] at hrun
  have hlast := mem_cartesianIndices.mpr (inside_last h0)
  obtain ⟨s, next, -, hpass⟩ := exists_pass (fun _ => True) trivial (fun _ _ _ _ _ _ => trivial) hrun hlast
  have hread := accumulateLine_reads (by omega) hpass
  simp only [checkboundsIndices, Bool.and_eq_true, decide_eq_true_eq] at hread
  have hoff := foldlM_invariant (fun B : NDArray ℕ => 0 < B.ndims ∧ ∀ i J, B.get ((i + 1) :: J) = 7)
    ⟨by simp [similar, NDArray.ndims], fun _ _ => rfl⟩
    (fun I _ C D hC hline => accumulateLine_off_first (P := (· = 7)) (fun _ _ => rfl) hC.1 hC.2 hline) hrun
  have hfirst : first < 2 := by
    by_contra hge
    have hval := hvals (1 :: rest.map fun _ => 0) (.cons (by omega) (inside_zeros h0))
    obtain ⟨a, as, rfl⟩ := List.exists_cons_of_length_pos hlen
    rw [if_pos (by simp [NDArray.ndims]), along_of_zero (by simp), leftFold_single, hoff.2 0] at hval
    simp [firstValue, reduceFirst] at hval
  refine ⟨by omega, ?_⟩
  rw [List.head?_eq_getElem?, hind, Option.some.injEq]
  omega

-- The last position can only be written when no axis is longer than the next one.
theorem le_of_position {shape K : List ℕ} {last : ℕ} (hK : Inside (shape.tail) K)
    (hpos : K ++ [last] = shape.map (· - 1)) (h0 : 0 ∉ shape) : List.IsChain (· ≤ ·) shape := by
  induction shape generalizing K with
  | nil => exact .nil
  | cons a shape ih =>
      cases shape with
      | nil => exact .singleton a
      | cons b shape =>
          cases hK with
          | @cons k _ K' _ hk hK' =>
              simp only [List.map_cons, List.cons_append, List.cons.injEq] at hpos
              simp only [List.mem_cons, not_or] at h0
              have hle : a ≤ b := by omega
              refine .cons_cons hle (ih hK' (by simpa using hpos.2) ?_)
              simpa [List.mem_cons, not_or] using h0.2

-- The last position can only be read when no axis is shorter than the next one, and the last
-- axis has one entry.
theorem ge_of_checkbounds {a : ℕ} {rest : List ℕ} (h0 : 0 ∉ rest)
    (h : checkboundsIndices (a :: rest) (rest.map (· - 1)) = true) :
    List.IsChain (· ≥ ·) (a :: rest) ∧ (a :: rest).getLast? = some 1 := by
  induction rest generalizing a with
  | nil => simpa [checkboundsIndices] using h
  | cons b rest ih =>
      simp only [List.map_cons, checkboundsIndices, Bool.and_eq_true, decide_eq_true_eq] at h
      simp only [List.mem_cons, not_or] at h0
      obtain ⟨hchain, hlast⟩ := ih h0.2 h.2
      exact ⟨.cons_cons (by omega) hchain, by simpa using hlast⟩

theorem ones_of_chains {shape : List ℕ} (hle : List.IsChain (· ≤ ·) shape) (hge : List.IsChain (· ≥ ·) shape)
    (hlast : shape.getLast? = some 1) : ∀ a ∈ shape, a = 1 := by
  induction shape with
  | nil => simp
  | cons a shape ih =>
      cases shape with
      | nil => simpa using hlast
      | cons b shape =>
          rw [List.isChain_cons_cons] at hle hge
          have hrest := ih hle.2 hge.2 (by simpa using hlast)
          have hb := hrest b (by simp)
          intro c hc
          rcases List.mem_cons.mp hc with rfl | hc
          · omega
          · exact hrest c hc

theorem prefixFold_ne_eight (k : ℕ) : prefixFold (fun _ _ => 7) none (fun _ => 0) k ≠ 8 := by
  cases k <;> simp [prefixFold, firstValue, reduceFirst]

-- Along a later dimension the loops drop the first axis and index with one index too few.
theorem ones_of_meets (h : (Call.accumulateDims first rest (d + 1)).Meets) (h0 : 0 ∉ rest) (hd0 : d ≠ 0)
    (hd : d < rest.length) : first = 1 ∧ ∀ a ∈ rest, a = 1 := by
  obtain ⟨ind, hind, hsplit⟩ := exists_axis hd
  have hpos : ind ≠ 0 := fun hz => h0 (hz ▸ List.mem_of_getElem? hind)
  obtain ⟨B, hrun, -, hvals⟩ := h ℕ (fun _ _ => 7) none ⟨first :: rest, fun _ => 0⟩ (fun _ => 8) rfl
  rw [accumulate_dims_eq rfl hind, if_neg hpos, if_neg hd0] at hrun
  have hread : checkboundsIndices (first :: rest) (rest.map (· - 1)) = true := by
    have htake : 0 ∉ rest.take d := fun hz => h0 (List.mem_of_mem_take hz)
    have hdrop : 0 ∉ rest.drop (d + 1) := fun hz => h0 (List.mem_of_mem_drop hz)
    have hreads := accumulaten_reads hrun (mem_cartesianIndices.mpr (inside_last htake))
      (by omega : ind - 1 < ind) (mem_cartesianIndices.mpr (inside_last hdrop))
    have hmap : rest.map (· - 1) =
        (rest.take d).map (· - 1) ++ (ind - 1) :: (rest.drop (d + 1)).map (· - 1) := by
      conv_lhs => rw [hsplit]
      simp
    rw [hmap]
    exact hreads
  obtain ⟨hge, hlast⟩ := ge_of_checkbounds h0 hread
  have hshape : 0 ∉ first :: rest := by
    obtain ⟨a, as, rfl⟩ := List.exists_cons_of_length_pos (by omega : 0 < rest.length)
    simp only [List.mem_cons, not_or, List.isChain_cons_cons] at h0 hge ⊢
    exact ⟨by omega, h0⟩
  obtain ⟨K, hK, hpos⟩ : ∃ K, Inside rest K ∧ K ++ [0] = (first :: rest).map (· - 1) := by
    by_contra hnone
    have hkept := accumulaten_frame hrun (p := (first :: rest).map (· - 1)) (by omega) ?_
    · have hval := hvals _ (inside_last hshape)
      rw [if_pos (by simp [NDArray.ndims]; omega), hkept, NDArray.along, leftFold_range] at hval
      exact prefixFold_ne_eight _ (Option.some.inj hval)
    · intro I hI i hi J hJ heq
      have hin : Inside rest (I ++ i :: J) := by
        rw [hsplit]
        exact inside_append (mem_cartesianIndices.mp hI) (.cons hi (mem_cartesianIndices.mp hJ))
      refine hnone ⟨I ++ i :: J, hin, ?_⟩
      rw [← heq, NDArray.position]
      simp only [similar, NDArray.ndims, List.length_cons, ← hin.length_eq]
      rw [List.take_append]
      simp [List.take_of_length_le]
  have hones := ones_of_chains (le_of_position (show Inside (first :: rest).tail K from hK) hpos hshape) hge hlast
  exact ⟨hones first (by simp), fun a ha => hones a (by simp [ha])⟩

theorem accumulateDims_meets_iff :
    (Call.accumulateDims first rest d).Meets ↔ (Call.accumulateDims first rest d).Condition := by
  constructor
  · intro h
    by_cases hbeyond : rest.length + 1 < d
    · exact .inl hbeyond
    obtain ⟨B, hrun, -⟩ := h ℕ (· + ·) none ⟨first :: rest, fun _ => 0⟩ (fun _ => 0) rfl
    cases d with
    | zero => simp [accumulate, accumulateInto, accumulateDims] at hrun
    | succ d =>
        have hd : d < rest.length := by
          by_contra hge
          have hnone : rest[d]? = none := List.getElem?_eq_none (by omega)
          simp [accumulate, accumulateInto, accumulateDims, similar, NDArray.ndims, hnone, hbeyond] at hrun
        refine .inr ⟨by omega, by omega, ?_⟩
        by_cases h0 : 0 ∈ rest
        · exact .inl h0
        by_cases hd0 : d = 0
        · subst hd0
          obtain ⟨hfirst, hhead⟩ := first_axis_of_meets h h0 hd
          exact .inr (.inl ⟨rfl, hfirst, hhead⟩)
        · obtain ⟨hfirst, hones⟩ := ones_of_meets h h0 hd0 hd
          exact .inr (.inr ⟨by omega, hfirst, hones⟩)
  · rintro (hbeyond | ⟨hpos, hd, hcases⟩) α op init A undef hA
    · refine ⟨copyto (similar A undef) A, ?_, rfl, ?_⟩
      · have hlt : A.ndims < d := by simpa [NDArray.ndims, hA] using hbeyond
        simp [accumulate, accumulateInto, accumulateDims, similar, hlt, show d ≠ 0 by omega]
      · intro I hI
        rw [if_neg (by simp [NDArray.ndims, hA]; omega)]
        rfl
    · obtain ⟨e, rfl⟩ := Nat.exists_eq_succ_of_ne_zero (by omega : d ≠ 0)
      rcases hcases with h0 | ⟨hone, rfl, hhead⟩ | ⟨htwo, rfl, hones⟩
      · exact accumulateDims_of_zero hA h0 (by omega)
      · obtain rfl : e = 0 := by omega
        exact accumulateDims_one hA (by rw [← List.head?_eq_getElem?, hhead])
      · exact accumulateDims_ones hA hones (by omega) (by omega)

end Dims

-- Which calls do what is promised of them.
theorem call_meets_iff_condition (c : Call) : c.Meets ↔ c.Condition := by
  cases c with
  | accumulateDims first rest d => exact accumulateDims_meets_iff
  | accumulate n => simpa [Call.Condition] using accumulate_meets n
  | cumsum n style => simpa [Call.Condition] using cumsum_meets n style
  | cumsumDimsZero n style => exact cumsumDimsZero_meets_iff n style
  | cumprod n => simpa [Call.Condition] using not_cumprod_meets n

-- The columns of [1 2; 3 4] cannot be summed: dimension 0 is refused.
theorem accumulate_refuses_dims_zero :
    accumulate (· + ·) ⟨[2, 2], fun I => 2 * I.getD 0 0 + I.getD 1 0 + 1⟩ (some 0) none (fun _ => 0) =
        .error (.argumentError "dims must be a positive integer") ∧
      ¬ (Call.accumulateDims 2 [2] 0).Meets := by
  refine ⟨rfl, ?_⟩
  intro h
  obtain ⟨B, hrun, -⟩ := h ℕ (· + ·) none ⟨[2, 2], fun _ => 0⟩ (fun _ => 0) rfl
  simp [accumulate, accumulateInto, accumulateDims] at hrun

end Joolia.Accumulate
