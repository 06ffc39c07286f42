import Joolia.Base.Accumulate

namespace Joolia.Accumulate

open Fallible

variable {α : Type} {add : α → α → α}

-- `x` is a sum of the entries in their order, with the parentheses in some place:
-- addition that rounds need not be associative.
inductive IsSum (add : α → α → α) : List α → α → Prop
  | entry (x : α) : IsSum add [x] x
  | add {xs ys : List α} {x y : α} : IsSum add xs x → IsSum add ys y → IsSum add (xs ++ ys) (add x y)

theorem foldl_add (hassoc : ∀ a b c, add (add a b) c = add a (add b c)) (x y : α) (ys : List α) :
    ys.foldl add (add x y) = add x (ys.foldl add y) := by
  induction ys generalizing y with
  | nil => rfl
  | cons z ys ih =>
      rw [List.foldl_cons, List.foldl_cons, hassoc]
      exact ih (add y z)

-- For an associative addition there is one sum.
theorem IsSum.eq_foldl (hassoc : ∀ a b c, add (add a b) c = add a (add b c)) {xs : List α} {s : α}
    (h : IsSum add xs s) : ∃ x rest, xs = x :: rest ∧ s = rest.foldl add x := by
  induction h with
  | entry x => exact ⟨x, [], rfl, rfl⟩
  | add _ _ ihx ihy =>
      obtain ⟨a, as, rfl, rfl⟩ := ihx
      obtain ⟨b, bs, rfl, rfl⟩ := ihy
      refine ⟨a, as ++ b :: bs, rfl, ?_⟩
      rw [List.foldl_append, List.foldl_cons, foldl_add hassoc]

-- The entries of a vector at `lo, ..., lo + n - 1`.
def segment (v : NDArray α) (lo n : ℕ) : List α := (List.range' lo n).map fun k => v.get [k]

theorem segment_append (v : NDArray α) (lo m n : ℕ) :
    segment v lo m ++ segment v (lo + m) n = segment v lo (m + n) := by
  rw [segment, segment, ← List.map_append, List.range'_append_1, segment]

theorem IsSum.append {v : NDArray α} {lo m n : ℕ} {x y : α} (hx : IsSum add (segment v lo m) x)
    (hy : IsSum add (segment v (lo + m) n) y) : IsSum add (segment v lo (m + n)) (add x y) :=
  segment_append v lo m n ▸ hx.add hy

theorem isSum_single (v : NDArray α) (i : ℕ) : IsSum add (segment v i 1) (v.get [i]) := .entry _

-- What a pass over the entries from `i1` on leaves, `s` being a sum of those before.
structure Segment (add : α → α → α) (v c : NDArray α) (N i1 n : ℕ) (result : α × NDArray α) : Prop where
  total : IsSum add (segment v i1 n) result.1
  shape : result.2.shape = [N]
  sums : ∀ i, i1 ≤ i → i < i1 + n → IsSum add (segment v 0 (i + 1)) (result.2.get [i])
  keeps : ∀ i, i < i1 → result.2.get [i] = c.get [i]

variable {v c : NDArray α} {N : ℕ}

theorem inside_vector (hv : v.shape = [N]) {i : ℕ} (hi : i < N) : Inside v.shape [i] := by
  rw [hv]
  exact .cons hi .nil

-- One more entry.
theorem Segment.snoc {i1 n : ℕ} {s : α} {result : α × NDArray α} (h : Segment add v c N i1 n result)
    (hs : IsSum add (segment v 0 i1) s) :
    Segment add v c N i1 (n + 1)
      (add result.1 (v.get [i1 + n]),
        result.2.store [i1 + n] (add s (add result.1 (v.get [i1 + n])))) := by
  have htotal := h.total.append (isSum_single v (i1 + n))
  refine ⟨htotal, h.shape, ?_, ?_⟩
  · intro i hlo hhi
    by_cases heq : i = i1 + n
    · subst heq
      have hsum := hs.append (n := n + 1) (by simpa using htotal)
      simpa [Nat.add_assoc] using hsum
    · rw [get_store_of_ne (by simpa using heq)]
      exact h.sums i hlo (by omega)
  · intro i hi
    rw [get_store_of_ne (by simp; omega)]
    exact h.keeps i hi

-- The first entry.
theorem Segment.first {i1 : ℕ} {s : α} (hc : c.shape = [N]) (hs : IsSum add (segment v 0 i1) s) :
    Segment add v c N i1 1 (v.get [i1], c.store [i1] (add s (v.get [i1]))) := by
  refine ⟨isSum_single v i1, hc, ?_, ?_⟩
  · intro i hlo hhi
    obtain rfl : i = i1 := by omega
    have hsum := hs.append (n := 1) (by simpa using isSum_single v i)
    simpa using hsum
  · intro i hi
    rw [get_store_of_ne (by simp; omega)]

theorem segment_loop {i1 n : ℕ} {s : α} (hv : v.shape = [N]) (hc : c.shape = [N]) (hn : 0 < n)
    (hN : i1 + n ≤ N) (hs : IsSum add (segment v 0 i1) s) :
    ∃ result, (List.range' (i1 + 1) (n - 1)).foldlM
        (fun state i => do
          let s_ := add state.1 (← v.inboundsGetindex [i])
          let c ← state.2.inboundsSetindex [i] (add s s_)
          pure (s_, c))
        (v.get [i1], c.store [i1] (add s (v.get [i1]))) = .ok result ∧
      Segment add v c N i1 n result := by
  have hloop := foldlM_up (fun i result => Segment add v c N i1 (i - i1) result)
    (f := fun state i => do
      let s_ := add state.1 (← v.inboundsGetindex [i])
      let c ← state.2.inboundsSetindex [i] (add s s_)
      pure (s_, c))
    (by omega : i1 + 1 ≤ i1 + n) (by simpa using Segment.first hc hs) ?_
  · simpa [show i1 + n - (i1 + 1) = n - 1 by omega] using hloop
  · intro i state hlo hhi hstate
    obtain ⟨k, rfl⟩ : ∃ k, i = i1 + k := ⟨i - i1, by omega⟩
    have hnext := hstate.snoc hs
    simp only [Nat.add_sub_cancel_left] at hnext
    refine ⟨_, ?_, by simpa [show i1 + k + 1 - i1 = k + 1 by omega] using hnext⟩
    simp [inboundsGetindex_of_inside (inside_vector hv (by omega : i1 + k < N)),
      inboundsSetindex_of_inside (inside_vector hstate.shape (by omega : i1 + k < N))]

-- The halves are summed one after the other.
theorem Segment.halves {i1 m n : ℕ} {first second : α × NDArray α} (h₁ : Segment add v c N i1 m first)
    (h₂ : Segment add v first.2 N (i1 + m) n second) :
    Segment add v c N i1 (m + n) (add first.1 second.1, second.2) := by
  refine ⟨h₁.total.append h₂.total, h₂.shape, ?_, ?_⟩
  · intro i hlo hhi
    by_cases hi : i < i1 + m
    · rw [h₂.keeps i hi]
      exact h₁.sums i hlo hi
    · exact h₂.sums i (by omega) (by omega)
  · intro i hi
    rw [h₂.keeps i (by omega), h₁.keeps i hi]

theorem accumulatePairwiseSegment_spec {i1 n : ℕ} {s : α} (hv : v.shape = [N]) (hc : c.shape = [N])
    (hn : 0 < n) (hN : i1 + n ≤ N) (hs : IsSum add (segment v 0 i1) s) :
    ∃ result, accumulatePairwiseSegment add c v s i1 n = .ok result ∧ Segment add v c N i1 n result := by
  induction n using Nat.strong_induction_on generalizing c i1 s with
  | _ n ih =>
      rw [accumulatePairwiseSegment]
      by_cases hsmall : n < 128
      · obtain ⟨result, hloop, hresult⟩ := segment_loop hv hc hn hN hs
        refine ⟨result, ?_, hresult⟩
        simp only [pure_eq_ok] at hloop
        simp [hsmall, inboundsGetindex_of_inside (inside_vector hv (by omega : i1 < N)),
          inboundsSetindex_of_inside (inside_vector hc (by omega : i1 < N)), hloop]
      · have hhalf : n >>> 1 = n / 2 := by simp [Nat.shiftRight_eq_div_pow]
        obtain ⟨first, hfirst, h₁⟩ := ih (n >>> 1) (by omega) hc (by omega) (by omega) hs
        have hmid : IsSum add (segment v 0 (i1 + n >>> 1)) (add s first.1) :=
          hs.append (by simpa using h₁.total)
        obtain ⟨second, hsecond, h₂⟩ := ih (n - n >>> 1) (by omega) h₁.shape (by omega) (by omega) hmid
        refine ⟨(add first.1 second.1, second.2), ?_, ?_⟩
        · simp [hsmall, hfirst, hsecond]
        · simpa [show n >>> 1 + (n - n >>> 1) = n by omega] using h₁.halves h₂

-- The pairwise method leaves the sums of the prefixes.
theorem accumulatePairwise_spec (add : α → α → α) (hv : v.shape = [N]) (hc : c.shape = [N]) :
    ∃ result, accumulatePairwise add c v = .ok result ∧ result.shape = [N] ∧
      ∀ i, i < N → IsSum add (segment v 0 (i + 1)) (result.get [i]) := by
  by_cases h0 : N = 0
  · exact ⟨c, by simp [accumulatePairwise, hv, hc, h0], hc, fun i hi => by omega⟩
  have hfirst : IsSum add (segment v 0 1) (v.get [0]) := isSum_single v 0
  have hget := inboundsGetindex_of_inside (inside_vector hv (by omega : 0 < N))
  have hset := inboundsSetindex_of_inside (x := v.get [0]) (inside_vector hc (by omega : 0 < N))
  by_cases h1 : N = 1
  · refine ⟨c.store [0] (v.get [0]), ?_, hc, ?_⟩
    · simp [accumulatePairwise, hv, hc, h1, hget, hset, reduceFirst]
    · intro i hi
      obtain rfl : i = 0 := by omega
      simpa using hfirst
  · obtain ⟨result, hrun, hresult⟩ := accumulatePairwiseSegment_spec (c := c.store [0] (v.get [0])) hv hc
      (by omega : 0 < N - 1) (by omega) hfirst
    refine ⟨result.2, ?_, hresult.shape, ?_⟩
    · simp [accumulatePairwise, hv, hc, h0, h1, hget, hset, reduceFirst, hrun]
    · intro i hi
      by_cases hi0 : i = 0
      · subst hi0
        rw [hresult.keeps 0 (by omega)]
        simpa using hfirst
      · exact hresult.sums i (by omega) (by omega)

end Joolia.Accumulate
