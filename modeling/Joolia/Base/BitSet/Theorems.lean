import Joolia.Base.BitSet.Members
import Joolia.Base.BitSet.MatchedMap
import Joolia.Base.BitSet.Chunks
import Joolia.Library.Fallible
import Mathlib.Data.Finset.Max
import Mathlib.Data.Finset.Sort
import Mathlib.Data.Int.ConditionallyCompleteOrder
import Mathlib.Data.Int.Interval
import Mathlib.Order.ConditionallyCompleteLattice.Basic
import Mathlib.Logic.Function.Basic

namespace Joolia.Bitset

open Words BitArray Iteration Refine

-- The calls on one set.
inductive Op
  | push (n : ℤ)
  | delete (n : ℤ)
  | pop
  | popfirst
  | popAt (n : ℤ)
  | popDefault (n default : ℤ)
  | empty
  | unionRange (a b : ℤ)

def exec (mem : ℕ → Word) (op : Op) (s : BitSet) : Except BitSetError (BitSet × Option ℤ) :=
  match op with
  | .push n => (push mem s n).map (·, none)
  | .delete n => .ok (delete mem s n, none)
  | .pop => (pop mem s).map fun (s, n) => (s, some n)
  | .popfirst => (popfirst mem s).map fun (s, n) => (s, some n)
  | .popAt n => (popAt mem s n).map fun (s, n) => (s, some n)
  | .popDefault n default => .ok ((popDefault mem s n default).1, some (popDefault mem s n default).2)
  | .empty => .ok (empty s, none)
  | .unionRange a b => (unionRange mem s a b).map (·, none)

-- The abstract behaviour on a finite set of integers.
noncomputable def finsetOp (op : Op) (A : Finset ℤ) : Except BitSetError (Finset ℤ × Option ℤ) :=
  match op with
  | .push n => if isConvertibleInt n then .ok (insert n A, none) else .error (.InexactError n)
  | .delete n => .ok (A.erase n, none)
  | .pop =>
      if h : A.Nonempty then .ok (A.erase (A.max' h), some (A.max' h))
      else .error (.ArgumentError "collection must be non-empty")
  | .popfirst =>
      if h : A.Nonempty then .ok (A.erase (A.min' h), some (A.min' h))
      else .error (.ArgumentError "collection must be non-empty")
  | .popAt n => if n ∈ A then .ok (A.erase n, some n) else .error (.KeyError n)
  | .popDefault n default =>
      if n ∈ A then .ok (A.erase n, some n) else .ok (A, some default)
  | .empty => .ok (∅, none)
  | .unionRange a b =>
      if b < a then .ok (A, none)
      else if ¬isConvertibleInt a then .error (.InexactError a)
      else if ¬isConvertibleInt b then .error (.InexactError b)
      else .ok (A ∪ Finset.Icc a b, none)

-- The sets of a program; `i` names the set object.
abbrev Store := ℕ → BitSet

-- `union!(s, t)`, `intersect!(s, t)`, `setdiff!(s, t)` and `symdiff!(s, t)` for the
-- objects `i` and `j`, which may be one.
def matchedMapAt (mem : ℕ → Word) (f : SetOp) (i j : ℕ) (st : Store) : Option Store :=
  (matchedMap mem f (st i) (st j)).map (Function.update st i)

inductive Step (st : Store) : Store → Prop
  | new (i : ℕ) : Step st (Function.update st i BitSet.new)
  | exec (mem : ℕ → Word) (i : ℕ) (op : Op) {s : BitSet} {ret : Option ℤ}
      (h : exec mem op (st i) = .ok (s, ret)) : Step st (Function.update st i s)
  | copy (i j : ℕ) : Step st (Function.update st i (copy (st i) (st j)))
  | matched (mem : ℕ → Word) (f : SetOp) (i j : ℕ) {st' : Store}
      (h : matchedMapAt mem f i j st = some st') : Step st st'

inductive Reachable : Store → Prop
  | init : Reachable fun _ => BitSet.new
  | step {st st' : Store} (h : Reachable st) (hstep : Step st st') : Reachable st'

-- The set a `BitSet` stands for.
noncomputable def elems (s : BitSet) : Finset ℤ :=
  (Finset.Ico (64 * s.offset) (64 * (s.offset + s.bits.length))).filter fun n => isIn n s = true

theorem mem_elems {s : BitSet} (h : Inv s) {n : ℤ} : n ∈ elems s ↔ isIn n s = true := by
  rw [elems, Finset.mem_filter, Finset.mem_Ico, and_iff_right_iff_imp, isIn_eq_bit h]
  intro hbit
  constructor
  · by_contra hlt
    rw [bit_of_lt (by omega)] at hbit
    cases hbit
  · by_contra hge
    rw [bit_of_ge (by omega)] at hbit
    cases hbit

theorem mem_elems_bit {s : BitSet} (h : Inv s) {n : ℤ} :
    n ∈ elems s ↔ bit s.bits s.offset n = true := by
  rw [mem_elems h, isIn_eq_bit h]

theorem mem_members_iff {s : BitSet} (h : Inv s) {n : ℤ} : n ∈ members s ↔ n ∈ elems s := by
  rw [mem_members, mem_elems_bit h]

-- The members in the order of the chunks are the sorted set.
theorem sort_elems {s : BitSet} (h : Inv s) : (elems s).sort (· ≤ ·) = members s := by
  apply (Finset.sortedLT_sort (elems s)).pairwise.eq_of_mem_iff (pairwise_members s)
  intro n
  rw [Finset.mem_sort, ← mem_members_iff h]

-- The first or last element of the listed set, if there is one.
def endOf (n : Option ℤ) : Except BitSetError ℤ :=
  match n with
  | some n => .ok n
  | none => .error (.ArgumentError "collection must be non-empty")

theorem head?_eq_of_forall_le {l : List ℤ} (hl : l.Pairwise (· < ·)) {n : ℤ} (hn : n ∈ l)
    (hmin : ∀ m ∈ l, n ≤ m) : l.head? = some n := by
  cases l with
  | nil => cases hn
  | cons m rest =>
      have hle := hmin m (List.mem_cons_self ..)
      rcases List.mem_cons.1 hn with rfl | hmem
      · rfl
      · have := (List.pairwise_cons.1 hl).1 n hmem
        omega

theorem first_eq (s : BitSet) : first s = endOf (members s).head? := by
  rcases first_spec s with ⟨hnil, herr⟩ | ⟨n, hn, hmem, hmin⟩
  · rw [herr, hnil]
    rfl
  · rw [hn, head?_eq_of_forall_le (pairwise_members s) hmem hmin]
    rfl

theorem last_eq (s : BitSet) : last s = endOf (members s).getLast? := by
  rcases last_spec s with ⟨hnil, herr⟩ | ⟨n, hn, hmem, hmax⟩
  · rw [herr, hnil]
    rfl
  · obtain ⟨init, m, hl⟩ := (List.eq_nil_or_concat' (members s)).resolve_left (List.ne_nil_of_mem hmem)
    have hpair := pairwise_members s
    rw [hl, List.pairwise_append] at hpair
    rw [hl] at hmem hmax ⊢
    have hle := hmax m (by simp)
    obtain rfl : n = m := by
      rcases List.mem_append.1 hmem with hin | hin
      · have := hpair.2.2 n hin m (by simp)
        omega
      · simpa using hin
    rw [hn, List.getLast?_append, List.getLast?_singleton]
    rfl

section Operations

variable (mem : ℕ → Word) {s : BitSet} (h : Inv s)
include h

theorem push_elems {n : ℤ} (hn : isConvertibleInt n) :
    Inv (setint mem s n true) ∧ elems (setint mem s n true) = insert n (elems s) := by
  obtain ⟨hinv, hbit⟩ := setint_spec mem h hn true
  refine ⟨hinv, Finset.ext fun m => ?_⟩
  rw [mem_elems_bit hinv, hbit, Finset.mem_insert, mem_elems_bit h]
  by_cases hm : m = n <;> simp [hm]

theorem delete_elems (n : ℤ) :
    Inv (delete mem s n) ∧ elems (delete mem s n) = (elems s).erase n := by
  unfold delete
  split
  · rename_i hn
    obtain ⟨hinv, hbit⟩ := setint_spec mem h hn false
    refine ⟨hinv, Finset.ext fun m => ?_⟩
    rw [mem_elems_bit hinv, hbit, Finset.mem_erase, mem_elems_bit h]
    by_cases hm : m = n <;> simp [hm]
  · rename_i hn
    refine ⟨h, (Finset.erase_eq_of_notMem fun hmem => ?_).symm⟩
    rw [mem_elems h, isIn, if_neg hn] at hmem
    cases hmem

theorem exec_agree (op : Op) :
    Agree (fun p q => Inv p.1 ∧ elems p.1 = q.1 ∧ p.2 = q.2) (exec mem op s)
      (finsetOp op (elems s)) := by
  cases op with
  | push n =>
      simp only [exec, push, finsetOp]
      split
      · exact ⟨(push_elems mem h ‹_›).1, (push_elems mem h ‹_›).2, rfl⟩
      · rfl
  | delete n => exact ⟨(delete_elems mem h n).1, (delete_elems mem h n).2, rfl⟩
  | pop =>
      rcases last_spec s with ⟨hnil, herr⟩ | ⟨n, hn, hmem, hmax⟩
      · have hno : ¬(elems s).Nonempty := by
          rintro ⟨n, hn⟩
          rw [← mem_members_iff h, hnil] at hn
          cases hn
        simp only [exec, pop, herr, finsetOp, dif_neg hno]
        rfl
      · rw [mem_members_iff h] at hmem
        have hne : (elems s).Nonempty := ⟨n, hmem⟩
        have hlast : (elems s).max' hne = n := by
          apply Int.le_antisymm
          · exact Finset.max'_le _ _ _ fun m hm => hmax m ((mem_members_iff h).2 hm)
          · exact Finset.le_max' _ _ hmem
        simp only [exec, pop, hn, Except.bind, popAt, if_pos ((mem_elems h).1 hmem), finsetOp,
          dif_pos hne, hlast]
        exact ⟨(delete_elems mem h n).1, (delete_elems mem h n).2, rfl⟩
  | popfirst =>
      rcases first_spec s with ⟨hnil, herr⟩ | ⟨n, hn, hmem, hmin⟩
      · have hno : ¬(elems s).Nonempty := by
          rintro ⟨n, hn⟩
          rw [← mem_members_iff h, hnil] at hn
          cases hn
        simp only [exec, popfirst, herr, finsetOp, dif_neg hno]
        rfl
      · rw [mem_members_iff h] at hmem
        have hne : (elems s).Nonempty := ⟨n, hmem⟩
        have hfirst : (elems s).min' hne = n := by
          apply Int.le_antisymm
          · exact Finset.min'_le _ _ hmem
          · exact Finset.le_min' _ _ _ fun m hm => hmin m ((mem_members_iff h).2 hm)
        simp only [exec, popfirst, hn, Except.bind, popAt, if_pos ((mem_elems h).1 hmem), finsetOp,
          dif_pos hne, hfirst]
        exact ⟨(delete_elems mem h n).1, (delete_elems mem h n).2, rfl⟩
  | popAt n =>
      simp only [exec, popAt, finsetOp, mem_elems h]
      split
      · exact ⟨(delete_elems mem h n).1, (delete_elems mem h n).2, rfl⟩
      · rfl
  | popDefault n default =>
      simp only [exec, popDefault, finsetOp, mem_elems h]
      split
      · exact ⟨(delete_elems mem h n).1, (delete_elems mem h n).2, rfl⟩
      · exact ⟨h, rfl, rfl⟩
  | empty => exact ⟨.new, by simp [elems, empty], rfl⟩
  | unionRange a b =>
      simp only [exec, unionRange, finsetOp]
      split
      · exact ⟨h, rfl, rfl⟩
      · rename_i hab
        split
        · rfl
        · rename_i ha
          split
          · rfl
          · rename_i hb
            obtain ⟨hinv, hbit⟩ := unionInts_spec mem h (by omega) (not_not.1 ha) (not_not.1 hb)
            refine ⟨hinv, Finset.ext fun m => ?_, rfl⟩
            rw [mem_elems_bit hinv, hbit, Finset.mem_union, mem_elems_bit h, Finset.mem_Icc,
              Bool.or_eq_true, decide_eq_true_eq]

end Operations

theorem Step.inv {st st' : Store} (h : ∀ i, Inv (st i)) (hstep : Step st st') (k : ℕ) :
    Inv (st' k) := by
  have hupdate : ∀ (i : ℕ) (s : BitSet), Inv s → Inv (Function.update st i s k) := by
    intro i s hs
    rw [Function.update_apply]
    split
    · exact hs
    · exact h k
  cases hstep with
  | new i => exact hupdate i _ .new
  | exec mem i op hexec =>
      obtain ⟨q, -, hinv, -⟩ := (exec_agree mem (h i) op).of_ok hexec
      exact hupdate i _ hinv
  | copy i j => exact hupdate i _ (h j)
  | matched mem f i j hmap =>
      obtain ⟨s, hs, hinv, -⟩ := matchedMap_spec mem f (h i) (h j)
      rw [matchedMapAt, hs] at hmap
      obtain rfl := Option.some.inj hmap
      exact hupdate i _ hinv

theorem Reachable.inv {st : Store} (h : Reachable st) (i : ℕ) : Inv (st i) := by
  induction h generalizing i with
  | init => exact .new
  | step _ hstep ih => exact hstep.inv ih i

-- After a set operation the first set holds what the operation says, every other set
-- is untouched and the invariant of an uninitialised offset holds again.
theorem set_algebra_exact {st : Store} (hst : Reachable st) (mem : ℕ → Word) (f : SetOp) (i j : ℕ) :
    ∃ st', matchedMapAt mem f i j st = some st' ∧
      (∀ n, isIn n (st' i) = f.bool (isIn n (st i)) (isIn n (st j))) ∧
      (∀ k, k ≠ i → st' k = st k) ∧
      ((st' i).offset = NO_OFFSET → (st' i).bits = []) := by
  obtain ⟨s, hs, hinv, hbit⟩ := matchedMap_spec mem f (hst.inv i) (hst.inv j)
  refine ⟨Function.update st i s, by rw [matchedMapAt, hs]; rfl, fun n => ?_, fun k hk => ?_, ?_⟩
  · rw [Function.update_self, isIn_eq_bit hinv, hbit, isIn_eq_bit (hst.inv i),
      isIn_eq_bit (hst.inv j)]
  · exact Function.update_of_ne hk s st
  · rw [Function.update_self]
    exact hinv.uninit

-- Two disjoint windows, one with a negative offset.
def twoSets : Store :=
  Function.update (Function.update (fun _ => BitSet.new) 0 (setint (fun _ => 1) BitSet.new (-70) true)) 1
    (setint (fun _ => 1) BitSet.new 1000 true)

theorem reachable_twoSets : Reachable twoSets := by
  have hfirst : exec (fun _ => 1) (.push (-70)) BitSet.new =
      .ok (setint (fun _ => 1) BitSet.new (-70) true, none) := rfl
  have hsecond : exec (fun _ => 1) (.push 1000) BitSet.new =
      .ok (setint (fun _ => 1) BitSet.new 1000 true, none) := rfl
  exact .step (.step .init (.exec _ 0 _ hfirst)) (.exec _ 1 _ hsecond)

theorem set_algebra_exact_union : ∃ st', matchedMapAt (fun _ => 3) .union 0 1 twoSets = some st' ∧
    isIn (-70) (st' 0) = true ∧ isIn 1000 (st' 0) = true ∧ isIn 1 (st' 0) = false ∧
    st' 1 = twoSets 1 := by
  obtain ⟨st', hst', hin, hframe, -⟩ := set_algebra_exact reachable_twoSets (fun _ => 3) .union 0 1
  refine ⟨st', hst', ?_, ?_, ?_, hframe 1 (by decide)⟩
  · rw [hin]
    decide
  · rw [hin]
    decide
  · rw [hin]
    decide

-- In every reachable state a set answers, lists, counts and changes as the finite set
-- of integers it stands for.
theorem bitset_refines_finset {st : Store} (hst : Reachable st) (i : ℕ) :
    (∀ n, isIn n (st i) = true ↔ n ∈ elems (st i)) ∧
      Yields (iterate (st i)) (iterate (st i) (0, -1)) ((elems (st i)).sort (· ≤ ·)) ∧
      bitcount (st i).bits = Int64.ofNat ((elems (st i)).sort (· ≤ ·)).length ∧
      first (st i) = endOf ((elems (st i)).sort (· ≤ ·)).head? ∧
      last (st i) = endOf ((elems (st i)).sort (· ≤ ·)).getLast? ∧
      ∀ (mem : ℕ → Word) (op : Op),
        (exec mem op (st i)).map (fun p => (elems p.1, p.2)) = finsetOp op (elems (st i)) := by
  have hinv := hst.inv i
  rw [sort_elems hinv]
  refine ⟨fun n => (mem_elems hinv).symm, iterate_yields _, bitcount_eq _, first_eq _, last_eq _,
    fun mem op => ?_⟩
  refine (exec_agree mem hinv op).map_eq fun p q hpq => ?_
  rw [hpq.2.1, hpq.2.2]

theorem bitset_refines_finset_negative : -70 ∈ elems (twoSets 0) ∧
    (exec (fun _ => 1) (.unionRange (-3) 64) (twoSets 0)).map (fun p => (elems p.1, p.2)) =
      .ok (elems (twoSets 0) ∪ Finset.Icc (-3) 64, none) := by
  obtain ⟨hmem, -, -, -, -, hexec⟩ := bitset_refines_finset reachable_twoSets 0
  exact ⟨(hmem (-70)).1 (by decide), hexec (fun _ => 1) (.unionRange (-3) 64)⟩

end Joolia.Bitset
