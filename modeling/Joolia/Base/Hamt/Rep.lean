import Joolia.Base.Hamt
import Joolia.Library.Words
import Joolia.Library.Window
import Joolia.Library.Trie

namespace Joolia.HashArrayMappedTries

open Sparse

variable {K V : Type}

-- The digit of a key that selects the child at a depth.
def digit [Identity K] (depth : ℕ) (key : K) : ℕ := bitmapIndex (HashState.atDepth depth key)

theorem digit_lt [Identity K] (depth : ℕ) (key : K) : digit depth key < 32 := by
  have hle : ∀ x : UInt64, (x &&& LEVEL_MASK).toNat ≤ 31 := by
    intro x
    rw [UInt64.toNat_and]
    exact Nat.and_le_right
  exact Nat.lt_succ_of_le (hle _)

theorem depth_atDepth [Identity K] (depth : ℕ) (key : K) : (HashState.atDepth depth key).depth = depth := by
  induction depth with
  | zero => rfl
  | succ depth ih =>
      rw [HashState.atDepth, next]
      split <;> exact congrArg (· + 1) ih

theorem key_atDepth [Identity K] (depth : ℕ) (key : K) : (HashState.atDepth depth key).key = key := by
  induction depth with
  | zero => rfl
  | succ depth ih =>
      rw [HashState.atDepth, next]
      split <;> exact ih

-- The bitmap and the data of a node are those of the array `g` of 32 slots.
structure Compressed (trie : HAMT K V) (g : ℕ → Option (Entry K V)) : Prop where
  data : trie.data = sparse 32 g
  bitmap : ∀ b, b < 32 → trie.bitmap.getLsbD b = (g b).isSome

theorem getLsbD_bit {bi b : ℕ} (hbi : bi < 32) : (1#32 <<< bi).getLsbD b = decide (b = bi) := by
  rw [BitVec.getLsbD_shiftLeft, BitVec.getLsbD_one]
  by_cases h : b = bi
  · simp [h, hbi]
  · simp only [h, decide_false, Bool.and_eq_false_iff, decide_eq_false_iff_not, Bool.not_eq_false']
    by_cases hlt : b < bi
    · simp [hlt]
    · exact .inr (by simp; omega)

theorem getLsbD_mask {bi b : ℕ} (hbi : bi < 32) :
    ((1#32 <<< bi) - 1#32).getLsbD b = decide (b < bi) := by
  have hpow : 2 ^ bi < 2 ^ 32 := Nat.pow_lt_pow_right (by omega) hbi
  have hpos : 0 < 2 ^ bi := Nat.two_pow_pos bi
  have hshift : (1#32 <<< bi).toNat = 2 ^ bi := by
    rw [BitVec.toNat_shiftLeft, BitVec.toNat_ofNat, Nat.shiftLeft_eq]
    rw [Nat.mod_eq_of_lt (by decide : 1 < 2 ^ 32), Nat.one_mul, Nat.mod_eq_of_lt hpow]
  have hsub : ((1#32 <<< bi) - 1#32).toNat = 2 ^ bi - 1 := by
    rw [BitVec.toNat_sub, hshift, BitVec.toNat_ofNat]
    omega
  rw [BitVec.getLsbD, hsub, Nat.testBit_two_pow_sub_one]

section Compressed

variable {trie : HAMT K V} {g : ℕ → Option (Entry K V)} (hc : Compressed trie g) {bi : ℕ} (hbi : bi < 32)
include hc

theorem Compressed.isset_eq (hbi : bi < 32) : isset trie bi = (g bi).isSome := by
  rw [isset, BitVec.getLsbD_ushiftRight, Nat.add_zero, hc.bitmap bi hbi]

include hbi

-- `entry_index` counts the occupied slots before `bi`.
theorem Compressed.entryIndex_eq : entryIndex trie bi = rank g bi := by
  have hbits : ∀ b, (trie.bitmap &&& ((1#32 <<< bi) - 1#32)).getLsbD b =
      (trie.bitmap.getLsbD b && decide (b < bi)) := by
    intro b
    rw [BitVec.getLsbD_and, getLsbD_mask hbi]
  have hsome : ∀ l : List ℕ, (l.filterMap g).length = (l.filter fun b => (g b).isSome).length := by
    intro l
    rw [List.length_filterMap_eq_countP, List.countP_eq_length_filter]
  rw [entryIndex, ← Words.length_filter_getLsbD, range_split hbi, List.filter_append, rank, hsome,
    List.length_append]
  have hbefore : (List.range bi).filter (trie.bitmap &&& ((1#32 <<< bi) - 1#32)).getLsbD =
      (List.range bi).filter fun b => (g b).isSome := by
    refine List.filter_congr fun b hb => ?_
    have hlt := List.mem_range.1 hb
    rw [hbits, hc.bitmap b (by omega), decide_eq_true hlt, Bool.and_true]
  have hafter : (bi :: List.range' (bi + 1) (32 - (bi + 1))).filter
      (trie.bitmap &&& ((1#32 <<< bi) - 1#32)).getLsbD = [] := by
    rw [List.filter_eq_nil_iff]
    intro b hb
    have hge : bi ≤ b := by
      rcases List.mem_cons.1 hb with rfl | hmem
      · exact Nat.le_refl b
      · have := (List.mem_range'_1.1 hmem).1
        omega
    rw [hbits, decide_eq_false (by omega), Bool.and_false]
    exact Bool.false_ne_true
  rw [hbefore, hafter]
  rfl

theorem Compressed.getElem? {x : Entry K V} (hx : g bi = some x) :
    trie.data[entryIndex trie bi]? = some x := by
  rw [hc.entryIndex_eq hbi, hc.data, getElem?_rank hbi hx]

theorem Compressed.replace {x : Entry K V} (hx : g bi = some x) (y : Entry K V) :
    Compressed { trie with data := trie.data.set (entryIndex trie bi) y } (Function.update g bi (some y)) := by
  refine ⟨?_, fun b hb => ?_⟩
  · rw [hc.entryIndex_eq hbi, hc.data, set_rank hbi hx]
  · rw [hc.bitmap b hb]
    by_cases h : b = bi
    · rw [h, Function.update_self, hx]
      rfl
    · rw [Function.update_of_ne h]

-- `set!` at an occupied slot changes nothing.
theorem Compressed.set_of_some {x : Entry K V} (hx : g bi = some x) : Compressed (set trie bi) g := by
  refine ⟨hc.data, fun b hb => ?_⟩
  rw [set, BitVec.getLsbD_or, getLsbD_bit hbi, hc.bitmap b hb]
  by_cases h : b = bi
  · rw [h, hx]
    rfl
  · rw [decide_eq_false h, Bool.or_false]

theorem Compressed.insert (hx : g bi = none) (y : Entry K V) :
    Compressed (set { trie with data := trie.data.insertIdx (entryIndex trie bi) y } bi)
      (Function.update g bi (some y)) := by
  refine ⟨?_, fun b hb => ?_⟩
  · rw [set, hc.entryIndex_eq hbi, hc.data, insertIdx_rank hbi hx]
  · rw [set, BitVec.getLsbD_or, getLsbD_bit hbi, hc.bitmap b hb]
    by_cases h : b = bi
    · rw [h, Function.update_self]
      simp
    · rw [Function.update_of_ne h, decide_eq_false h, Bool.or_false]

theorem Compressed.erase {x : Entry K V} (hx : g bi = some x) :
    Compressed (unset { trie with data := trie.data.eraseIdx (entryIndex trie bi) } bi)
      (Function.update g bi none) := by
  refine ⟨?_, fun b hb => ?_⟩
  · rw [unset, hc.entryIndex_eq hbi, hc.data, eraseIdx_rank hbi hx]
  · rw [unset, BitVec.getLsbD_and, BitVec.getLsbD_not, getLsbD_bit hbi, hc.bitmap b hb]
    by_cases h : b = bi
    · rw [h, Function.update_self]
      simp
    · rw [Function.update_of_ne h]
      simp [h, hb]

end Compressed

theorem compressed_empty : Compressed (HAMT.empty : HAMT K V) fun _ => none := by
  refine ⟨?_, fun b _ => ?_⟩
  · rw [sparse, List.filterMap_none]
    rfl
  · simp [HAMT.empty]

theorem compressed_single {b : ℕ} (hb : b < 32) (e : Entry K V) :
    Compressed (set ⟨[e], 0⟩ b) (Function.update (fun _ => none) b (some e)) := by
  have hins := compressed_empty.insert hb rfl e
  rw [compressed_empty.entryIndex_eq hb, rank, List.filterMap_none] at hins
  exact hins

theorem Compressed.eq_none_of_islevelEmpty {trie : HAMT K V} {g : ℕ → Option (Entry K V)}
    (hc : Compressed trie g) (he : islevelEmpty trie = true) {b : ℕ} (hb : b < 32) : g b = none := by
  have hbit := hc.bitmap b hb
  rw [islevelEmpty, beq_iff_eq] at he
  rw [he] at hbit
  cases hg : g b with
  | none => rfl
  | some x =>
      rw [hg] at hbit
      simp at hbit

-- An entry of the heap stands for a trie.
def Rep (heap : Heap K V) (t : Trie K V) (e : Option (Entry K V)) : Prop :=
  match t with
  | .none => e = none
  | .leaf key val => e = some (.leaf key val)
  | .node f => ∃ ref trie g, e = some (.trie ref) ∧ heap[ref]? = some trie ∧ Compressed trie g ∧
      ∀ b, b < 32 → Rep heap (f b) (g b)

-- Every object of the heap is still there, unchanged.
def Extends (heap heap' : Heap K V) : Prop := ∀ (ref : ℕ) (trie : HAMT K V), heap[ref]? = some trie → heap'[ref]? = some trie

theorem Rep.extends {heap heap' : Heap K V} (hext : Extends heap heap') {t : Trie K V} {e : Option (Entry K V)}
    (h : Rep heap t e) : Rep heap' t e := by
  induction t generalizing e with
  | none => exact h
  | leaf key val => exact h
  | node f ih =>
      obtain ⟨ref, trie, g, he, href, hc, hchild⟩ := h
      exact ⟨ref, trie, g, he, hext ref trie href, hc, fun b hb => ih b (hchild b hb)⟩

end Joolia.HashArrayMappedTries
