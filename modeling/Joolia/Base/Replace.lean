import Joolia.Base.BitSet.Theorems
import Joolia.Base.Set
import Joolia.Library.Fallible
import Mathlib.Data.List.Flatten
import Mathlib.Data.List.Nodup

namespace Joolia.Replace

open Hashtable Probing Bitset Words

section Model

variable {α : Type} [DecidableEq α]

-- `o_n` in `old_new`, with `isequal` of the elements
def lookup (isequal : α → α → Bool) (old_new : List (α × α)) (x : α) : α :=
  match old_new.find? fun o_n => isequal o_n.1 x with
  | some o_n => o_n.2
  | none => x

end Model

section Bits

variable (mem : ℕ → Word) (new : ℤ → ℤ) (count : ℕ)

-- The elements and images that the first loop of the generic method collects
def collect : List ℤ → ℕ → List (ℤ × ℤ)
  | [], _ => []
  | x :: rest, c =>
      let y := new x
      if x ≠ y then (x, y) :: if c + 1 = count then [] else collect rest (c + 1) else collect rest c

end Bits

section Table

variable {K V : Type} [Key K] [DecidableEq K] [DecidableEq V] (new : K × V → K × V) (count : ℕ)

end Table

section Sequences

variable {α : Type} [DecidableEq α]

-- The first `count` elements that `new` changes
def changed (new : α → α) (count : ℕ) (l : List α) : List α := (l.filter fun x => decide (new x ≠ x)).take count

variable {new : α → α}

section Tuples

variable {f : α → α}

end Tuples

section Arrays

variable {aliased : Bool}

end Arrays

end Sequences

section Swaps

variable {α : Type} [DecidableEq α] {new : α → α}

theorem changed_cons (n : ℕ) (x : α) (l : List α) :
    changed new (n + 1) (x :: l) = if x ≠ new x then x :: changed new n l else changed new (n + 1) l := by
  rw [changed, List.filter_cons]
  by_cases hx : new x = x
  · rw [if_neg (by simpa using hx), if_neg (not_not.mpr hx.symm)]
    rfl
  · rw [if_pos (by simpa using hx), if_pos (Ne.symm hx), List.take_succ_cons]
    rfl

-- The elements are removed together, and then the images are inserted.
def exchange (new : α → α) (A : Finset α) (xs : List α) : Finset α := (A \ xs.toFinset) ∪ (xs.map new).toFinset

-- Every image is inserted before the next element is removed.
def swap (new : α → α) (A : Finset α) (xs : List α) : Finset α := xs.foldl (fun A x => insert (new x) (A.erase x)) A

-- An image that is itself to be removed is inserted again later.
def Safe (new : α → α) : List α → Prop
  | [] => True
  | x :: xs => (new x ∈ xs → new x ∈ xs.map new) ∧ Safe new xs

end Swaps

section Bits

variable {mem : ℕ → Word} {new : ℤ → ℤ}

theorem collect_eq {count c : ℕ} (hc : c < count) (l : List ℤ) :
    collect new count l c = (changed new (count - c) l).map fun x => (x, new x) := by
  induction l generalizing c with
  | nil => simp [collect, changed]
  | cons x l ih =>
      obtain ⟨n, hn⟩ := Nat.exists_eq_succ_of_ne_zero (Nat.sub_ne_zero_of_lt hc)
      rw [collect, hn, changed_cons]
      by_cases hx : x ≠ new x
      · rw [if_pos hx, if_pos hx, List.map_cons]
        congr 1
        by_cases hlast : c + 1 = count
        · have hzero : n = 0 := by omega
          rw [if_pos hlast, hzero]
          rfl
        · rw [if_neg hlast, ih (by omega), show count - (c + 1) = n by omega]
      · rw [if_neg hx, if_neg hx, ih hc, hn]

variable (mem)

section Whole

variable {A : BitSet} (h : Bitset.Inv A) (count : ℕ) (hnew : ∀ x ∈ members A, isConvertibleInt (new x))

include h hnew

end Whole

end Bits

end Joolia.Replace
