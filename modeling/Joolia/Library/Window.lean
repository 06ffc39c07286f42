import Joolia.Library.Words
import Mathlib.Data.Int.Init
import Mathlib.Data.List.Basic
import Mathlib.Logic.Function.Basic

namespace Words

-- A word vector placed at the integer position `off`, and zero everywhere else.
def window (a : List Word) (off k : ℤ) : Word := if off ≤ k then word a (k - off).toNat else 0

theorem window_of_lt {a : List Word} {off k : ℤ} (h : k < off) : window a off k = 0 :=
  if_neg (by omega)

theorem window_of_ge {a : List Word} {off k : ℤ} (h : off + a.length ≤ k) : window a off k = 0 := by
  unfold window
  split
  · exact word_of_length_le (by omega)
  · rfl

@[simp] theorem window_nil (off k : ℤ) : window [] off k = 0 := by
  by_cases h : off ≤ k
  · exact window_of_ge (by simpa using h)
  · exact window_of_lt (by omega)

theorem window_set (a : List Word) {i : ℕ} (hi : i < a.length) (w : Word) (off k : ℤ) :
    window (a.set i w) off k = if k = off + i then w else window a off k := by
  unfold window
  by_cases hk : off ≤ k
  · rw [if_pos hk, if_pos hk, word_set]
    by_cases h : k = off + i
    · rw [if_pos h, if_pos (by omega)]
    · rw [if_neg h, if_neg (by omega)]
  · rw [if_neg hk, if_neg hk, if_neg (by omega)]

theorem window_append (a b : List Word) (off k : ℤ) :
    window (a ++ b) off k = if k < off + a.length then window a off k
      else window b (off + a.length) k := by
  unfold window
  by_cases hk : off ≤ k
  · rw [if_pos hk, if_pos hk, word_append]
    by_cases h : k < off + a.length
    · rw [if_pos h, if_pos (by omega)]
    · rw [if_neg h, if_neg (by omega), if_pos (by omega)]
      congr 1
      omega
  · rw [if_neg hk, if_neg hk, if_pos (by omega)]

theorem window_take (a : List Word) (n : ℕ) (off k : ℤ) :
    window (a.take n) off k = if k < off + n then window a off k else 0 := by
  unfold window
  by_cases hk : off ≤ k
  · rw [if_pos hk, if_pos hk, word_take]
    by_cases h : k < off + n
    · rw [if_pos h, if_pos (by omega)]
    · rw [if_neg h, if_neg (by omega)]
  · rw [if_neg hk, if_neg hk, ite_self]

theorem window_drop (a : List Word) (n : ℕ) (off k : ℤ) :
    window (a.drop n) (off + n) k = if off + n ≤ k then window a off k else 0 := by
  unfold window
  split
  · rw [word_drop, if_pos (by omega)]
    congr 1
    omega
  · rfl

theorem word_eq_window (a : List Word) (off : ℤ) (i : ℕ) : word a i = window a off (off + i) := by
  rw [window, if_pos (by omega)]
  congr 1
  omega

-- Bit `n` of the placed vector.
def bit (a : List Word) (off n : ℤ) : Bool := (window a off (n / 64)).getLsbD (n % 64).toNat

theorem bit_of_lt {a : List Word} {off n : ℤ} (h : n < 64 * off) : bit a off n = false := by
  rw [bit, window_of_lt (by omega)]
  simp

theorem bit_of_ge {a : List Word} {off n : ℤ} (h : 64 * (off + a.length) ≤ n) :
    bit a off n = false := by
  rw [bit, window_of_ge (by omega)]
  simp

theorem bit_eq_bitAt (a : List Word) (off : ℤ) (i : ℕ) : bit a off (64 * off + i) = bitAt a i := by
  have hdiv : (64 * off + i) / 64 = off + (i / 64 : ℕ) := by omega
  have hmod : ((64 * off + i) % 64).toNat = i % 64 := by omega
  rw [bit, hdiv, hmod, ← word_eq_window, bitAt]

theorem bit_congr {a b : List Word} {off off' : ℤ} (h : ∀ k, window a off k = window b off' k) (n : ℤ) :
    bit a off n = bit b off' n := by
  rw [bit, bit, h]

end Words

namespace Sparse

variable {α : Type*}

-- The occupied slots of an array of `n` slots, in order.
def sparse (n : ℕ) (g : ℕ → Option α) : List α := (List.range n).filterMap g

-- How many slots before `b` are occupied.
def rank (g : ℕ → Option α) (b : ℕ) : ℕ := ((List.range b).filterMap g).length

-- The occupied slots after `b`.
def after (n : ℕ) (g : ℕ → Option α) (b : ℕ) : List α := (List.range' (b + 1) (n - (b + 1))).filterMap g

theorem range_split {n b : ℕ} (hb : b < n) :
    List.range n = List.range b ++ b :: List.range' (b + 1) (n - (b + 1)) := by
  rw [← List.range'_succ, List.range_eq_range', List.range_eq_range']
  have happ : List.range' 0 b ++ List.range' b (n - (b + 1) + 1) = List.range' 0 (b + (n - (b + 1) + 1)) := by
    simpa using @List.range'_append 0 b (n - (b + 1) + 1) 1
  rw [happ, show b + (n - (b + 1) + 1) = n by omega]

theorem sparse_split {n b : ℕ} (hb : b < n) (g : ℕ → Option α) :
    sparse n g = (List.range b).filterMap g ++ ((g b).toList ++ after n g b) := by
  rw [sparse, range_split hb, List.filterMap_append, List.filterMap_cons, after]
  cases g b <;> rfl

-- Changing one slot leaves what stands before and after it.
theorem sparse_update {n b : ℕ} (hb : b < n) (g : ℕ → Option α) (x : Option α) :
    sparse n (Function.update g b x) = (List.range b).filterMap g ++ (x.toList ++ after n g b) := by
  rw [sparse_split hb, Function.update_self]
  have hbefore : (List.range b).filterMap (Function.update g b x) = (List.range b).filterMap g := by
    refine List.filterMap_congr fun k hk => ?_
    rw [Function.update_of_ne (Nat.ne_of_lt (List.mem_range.1 hk))]
  have hafter : after n (Function.update g b x) b = after n g b := by
    refine List.filterMap_congr fun k hk => ?_
    have := (List.mem_range'_1.1 hk).1
    rw [Function.update_of_ne (by omega)]
  rw [hbefore, hafter]

theorem insertIdx_append_length (l r : List α) (x : α) : (l ++ r).insertIdx l.length x = l ++ x :: r := by
  induction l with
  | nil => rfl
  | cons y l ih => rw [List.cons_append, List.length_cons, List.insertIdx_succ_cons, ih, List.cons_append]

section Slot

variable {n b : ℕ} (hb : b < n) {g : ℕ → Option α}
include hb

theorem getElem?_rank {x : α} (hx : g b = some x) : (sparse n g)[rank g b]? = some x := by
  rw [sparse_split hb, hx, rank, List.getElem?_append_right (Nat.le_refl _), Nat.sub_self]
  rfl

theorem set_rank {x : α} (hx : g b = some x) (y : α) :
    (sparse n g).set (rank g b) y = sparse n (Function.update g b (some y)) := by
  rw [sparse_update hb, sparse_split hb, hx, rank, List.set_append_right _ _ (Nat.le_refl _), Nat.sub_self]
  rfl

theorem insertIdx_rank (hx : g b = none) (y : α) :
    (sparse n g).insertIdx (rank g b) y = sparse n (Function.update g b (some y)) := by
  rw [sparse_update hb, sparse_split hb, hx, rank]
  exact insertIdx_append_length _ _ y

theorem eraseIdx_rank {x : α} (hx : g b = some x) :
    (sparse n g).eraseIdx (rank g b) = sparse n (Function.update g b none) := by
  rw [sparse_update hb, sparse_split hb, hx, rank, List.eraseIdx_append_of_length_le (Nat.le_refl _),
    Nat.sub_self]
  rfl

end Slot

end Sparse
