import Joolia.Base.Vector
import Mathlib.Tactic.Common

namespace Joolia.Vectors

open Fallible

variable {α : Type} {rt : Runtime α} {a a' : Vec α}

-- The window lies inside the memory.
def Vec.Valid (a : Vec α) : Prop := a.offset + a.size ≤ a.mem.length

def Vec.cell (a : Vec α) (k : ℕ) : Cell α := a.mem.cells (a.offset + k)

-- The visible elements.
def Vec.toList (a : Vec α) : List (Cell α) := (List.range a.size).map a.cell

@[simp] theorem length_toList : a.toList.length = a.size := by simp [Vec.toList]

theorem getElem?_toList (k : ℕ) : a.toList[k]? = if k < a.size then some (a.cell k) else none := by
  by_cases hk : k < a.size
  · simp [Vec.toList, hk]
  · simp [Vec.toList, hk]

-- A vector is known by its cells.
theorem toList_eq {xs : List (Cell α)} (hlen : a.size = xs.length)
    (h : ∀ k, k < a.size → xs[k]? = some (a.cell k)) : a.toList = xs := by
  refine List.ext_getElem? fun k => ?_
  rw [getElem?_toList]
  by_cases hk : k < a.size
  · rw [if_pos hk, h k hk]
  · rw [if_neg hk, List.getElem?_eq_none (by omega)]

-- The errors of a vector of `n` elements that cannot have the memory it needs to grow. At the
-- largest length _growat! takes the end for a position outside.
def Error.Resource (n : ℕ) (e : Error) : Prop :=
  e = .overflowError ∨ e = .memoryError ∨ (typemaxInt ≤ n ∧ e = .boundsError n)

-- The computation returns a value with `P`, or is refused for lack of memory.
def Serves {β : Type} (n : ℕ) (x : Except Error β) (P : β → Prop) : Prop :=
  (∃ b, x = .ok b ∧ P b) ∨ ∃ e, x = .error e ∧ e.Resource n

section Serves

variable {β γ : Type} {n : ℕ} {x : Except Error β}

theorem Serves.ok {b : β} {P : β → Prop} (h : P b) : Serves n (.ok b) P := .inl ⟨b, rfl, h⟩

theorem Serves.bind {f : β → Except Error γ} {P : β → Prop} {Q : γ → Prop}
    (h : Serves n x P) (hf : ∀ b, P b → Serves n (f b) Q) : Serves n (x >>= f) Q := by
  rcases h with ⟨b, rfl, hP⟩ | ⟨e, rfl, he⟩
  · exact hf b hP
  · exact .inr ⟨e, rfl, he⟩

theorem checkedAdd_serves (y z : ℕ) : Serves n (checkedAdd y z) (· = y + z) := by
  by_cases h : y + z ≤ typemaxInt
  · exact .inl ⟨y + z, by simp [checkedAdd, h], rfl⟩
  · exact .inr ⟨.overflowError, by simp [checkedAdd, h], .inl rfl⟩

theorem checkedMul_serves (y z : ℕ) : Serves n (checkedMul y z) (· = y * z) := by
  by_cases h : y * z ≤ typemaxInt
  · exact .inl ⟨y * z, by simp [checkedMul, h], rfl⟩
  · exact .inr ⟨.overflowError, by simp [checkedMul, h], .inl rfl⟩

theorem arrayNewMemory_serves (rt : Runtime α) (m : ℕ) :
    Serves n (arrayNewMemory rt m) (· = ⟨m, rt.undef⟩) := by
  by_cases h : rt.grants m = true
  · exact .inl ⟨⟨m, rt.undef⟩, by simp [arrayNewMemory, h], rfl⟩
  · exact .inr ⟨.memoryError, by simp [arrayNewMemory, h], .inr (.inl rfl)⟩

end Serves

@[simp] theorem memmove_length (dest : Memory α) (doffs : ℕ) (src : Memory α) (soffs n : ℕ) :
    (memmove dest doffs src soffs n).length = dest.length := rfl

theorem memmove_inside {dest src : Memory α} {doffs soffs n k : ℕ} (hk : k < n) :
    (memmove dest doffs src soffs n).cells (doffs + k) = src.cells (soffs + k) := by
  simp [memmove, hk]

theorem memmove_outside {dest src : Memory α} {doffs soffs n j : ℕ} (hj : j < doffs ∨ doffs + n ≤ j) :
    (memmove dest doffs src soffs n).cells j = dest.cells j := by
  have hnot : ¬ (doffs ≤ j ∧ j < doffs + n) := by omega
  simp [memmove, hnot]

@[simp] theorem unsetRange_length (rt : Runtime α) (mem : Memory α) (lo hi : ℕ) :
    (unsetRange rt mem lo hi).length = mem.length := rfl

theorem unsetRange_outside {mem : Memory α} {lo hi j : ℕ} (hj : j < lo ∨ hi ≤ j) :
    (unsetRange rt mem lo hi).cells j = mem.cells j := by
  have hnot : ¬ (lo ≤ j ∧ j < hi) := by omega
  simp [unsetRange, hnot]

-- A copy inside both memories goes through.
theorem unsafeCopyto_eq {dest src : Memory α} {doffs soffs n : ℕ} (hdest : doffs + n ≤ dest.length)
    (hsrc : soffs + n ≤ src.length) :
    unsafeCopyto dest doffs src soffs n = .ok (memmove dest doffs src soffs n) := by
  by_cases hn : n = 0
  · have hsame : memmove dest doffs src soffs 0 = dest := by
      have hcells : ∀ j, (memmove dest doffs src soffs 0).cells j = dest.cells j := fun j =>
        memmove_outside (by omega)
      exact congrArg (Memory.mk dest.length) (funext hcells)
    simp [unsafeCopyto, hn, hsame]
  · simp [unsafeCopyto, memoryref, hn, show doffs < dest.length by omega, show soffs < src.length by omega,
      show doffs + (n - 1) < dest.length by omega, show soffs + (n - 1) < src.length by omega]

-- `a'` is `a` with `delta` new cells before position `i`.
structure Grown (a a' : Vec α) (i delta : ℕ) : Prop where
  valid : a'.Valid
  size : a'.size = a.size + delta
  before : ∀ k, k < i → a'.cell k = a.cell k
  behind : ∀ k, i ≤ k → k < a.size → a'.cell (k + delta) = a.cell k

-- `a'` is `a` without the `delta` cells from position `i` on.
structure Shrunk (a a' : Vec α) (i delta : ℕ) : Prop where
  valid : a'.Valid
  size : a'.size + delta = a.size
  before : ∀ k, k < i → a'.cell k = a.cell k
  behind : ∀ k, i + delta ≤ k → k < a.size → a'.cell (k - delta) = a.cell k

theorem Grown.toList {i delta : ℕ} (h : Grown a a' i delta) (hi : i ≤ a.size) :
    ∃ new, new.length = delta ∧ a'.toList = a.toList.take i ++ new ++ a.toList.drop i := by
  refine ⟨(List.range delta).map fun k => a'.cell (i + k), by simp, toList_eq ?_ ?_⟩
  · simp [h.size, Nat.min_eq_left hi]
    omega
  · intro k hk
    have hsize := h.size
    by_cases hbefore : k < i
    · rw [List.append_assoc, List.getElem?_append_left (by simp; omega), List.getElem?_take_of_lt hbefore,
        getElem?_toList, if_pos (by omega), h.before k hbefore]
    · rw [List.append_assoc, List.getElem?_append_right (by simp; omega)]
      by_cases hnew : k < i + delta
      · rw [List.getElem?_append_left (by simp; omega)]
        simp [Nat.min_eq_left hi, show k - i < delta by omega, show i + (k - i) = k by omega]
      · rw [List.getElem?_append_right (by simp; omega), List.getElem?_drop, getElem?_toList]
        simp only [List.length_take, length_toList, List.length_map, List.length_range, Nat.min_eq_left hi]
        have hcell := h.behind (k - delta) (by omega) (by omega)
        rw [show k - delta + delta = k by omega] at hcell
        rw [show i + (k - i - delta) = k - delta by omega, if_pos (by omega), hcell]

theorem Grown.toList_end {delta : ℕ} (h : Grown a a' a.size delta) :
    ∃ new, new.length = delta ∧ a'.toList = a.toList ++ new := by
  obtain ⟨new, hlen, hlist⟩ := h.toList (Nat.le_refl _)
  exact ⟨new, hlen, by simpa [List.take_of_length_le, List.drop_eq_nil_of_le] using hlist⟩

theorem Grown.toList_beg {delta : ℕ} (h : Grown a a' 0 delta) :
    ∃ new, new.length = delta ∧ a'.toList = new ++ a.toList := by
  obtain ⟨new, hlen, hlist⟩ := h.toList (Nat.zero_le _)
  exact ⟨new, hlen, by simpa using hlist⟩

theorem Shrunk.toList {i delta : ℕ} (h : Shrunk a a' i delta) (hi : i + delta ≤ a.size) :
    a'.toList = a.toList.take i ++ a.toList.drop (i + delta) := by
  have hsize := h.size
  refine toList_eq ?_ ?_
  · simp
    omega
  · intro k hk
    by_cases hbefore : k < i
    · rw [List.getElem?_append_left (by simp; omega), List.getElem?_take_of_lt hbefore, getElem?_toList,
        if_pos (by omega), h.before k hbefore]
    · have hcell := h.behind (k + delta) (by omega) (by omega)
      rw [Nat.add_sub_cancel] at hcell
      rw [List.getElem?_append_right (by simp; omega), List.getElem?_drop, getElem?_toList]
      simp only [List.length_take, length_toList, Nat.min_eq_left (show i ≤ a.size by omega)]
      rw [show i + delta + (k - i) = k + delta by omega, if_pos (by omega), hcell]

end Joolia.Vectors
