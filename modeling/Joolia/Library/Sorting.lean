import Mathlib.Data.List.Basic
import Mathlib.Data.List.Count
import Mathlib.Data.List.TakeWhile
import Mathlib.Order.Basic
import Mathlib.Tactic.TypeStar

namespace Sorting

variable {α : Type*}

-- A strict weak order: what sorting needs of a comparison.
structure StrictWeak (lt : α → α → Bool) : Prop where
  irrefl : ∀ a, lt a a = false
  trans : ∀ {a b c}, lt a b = true → lt b c = true → lt a c = true
  incomp_trans : ∀ {a b c}, lt a b = false → lt b a = false → lt b c = false → lt c b = false → lt a c = false ∧ lt c a = false

variable {lt : α → α → Bool}

namespace StrictWeak

theorem asymm (h : StrictWeak lt) {a b : α} (hab : lt a b = true) : lt b a = false := by
  rw [Bool.eq_false_iff]
  intro hba
  exact Bool.false_ne_true ((h.irrefl a).symm.trans (h.trans hab hba))

-- "Not after" is transitive.
theorem not_lt_trans (h : StrictWeak lt) {a b c : α} (hba : lt b a = false) (hcb : lt c b = false) : lt c a = false := by
  by_cases hab : lt a b = true
  · -- `a` before `b`, so `c` cannot come before `a`
    rw [Bool.eq_false_iff]
    intro hca
    exact Bool.false_ne_true (hcb.symm.trans (h.trans hca hab))
  · by_cases hbc : lt b c = true
    · rw [Bool.eq_false_iff]
      intro hca
      exact Bool.false_ne_true (hba.symm.trans (h.trans hbc hca))
    · exact (h.incomp_trans (Bool.eq_false_iff.2 hab) hba (Bool.eq_false_iff.2 hbc) hcb).2

theorem lt_of_lt_of_not_lt (h : StrictWeak lt) {a b c : α} (hab : lt a b = true) (hcb : lt c b = false) : lt a c = true := by
  by_contra hac
  exact Bool.false_ne_true ((h.not_lt_trans hcb (Bool.eq_false_iff.2 hac)).symm.trans hab)

theorem lt_of_not_lt_of_lt (h : StrictWeak lt) {a b c : α} (hba : lt b a = false) (hbc : lt b c = true) : lt a c = true := by
  by_contra hac
  exact Bool.false_ne_true ((h.not_lt_trans (Bool.eq_false_iff.2 hac) hba).symm.trans hbc)

end StrictWeak

def Sorted (lt : α → α → Bool) (v : List α) : Prop := v.Pairwise fun a b => lt b a = false

instance (lt : α → α → Bool) (v : List α) : Decidable (Sorted lt v) :=
  inferInstanceAs (Decidable (v.Pairwise fun a b => lt b a = false))

theorem sorted_of_length_le_one {v : List α} (h : v.length ≤ 1) : Sorted lt v := by
  match v, h with
  | [], _ => exact List.Pairwise.nil
  | [x], _ => exact List.pairwise_singleton _ x

theorem Sorted.getElem_le {v : List α} (hsorted : Sorted lt v) (h : StrictWeak lt) {i j : ℕ} (hij : i ≤ j) (hj : j < v.length) :
    lt v[j] v[i] = false := by
  rcases Nat.lt_or_eq_of_le hij with hlt | rfl
  · exact List.pairwise_iff_getElem.1 hsorted i j _ hj hlt
  · exact h.irrefl _

section Boundary

variable {p : α → Bool}

-- A predicate that holds of a first part of the list and of nothing after it
theorem countP_boundary {v : List α} (hdown : ∀ i j (hij : i < j) (hj : j < v.length), p v[j] = true → p v[i] = true) :
    ∀ i (hi : i < v.length), p v[i] = true ↔ i < v.countP p := by
  induction v with
  | nil => simp
  | cons x v ih =>
      have ih := ih fun i j hij hj => by
        have hstep := hdown (i + 1) (j + 1) (by omega) (by simpa using hj)
        rwa [List.getElem_cons_succ, List.getElem_cons_succ] at hstep
      cases hx : p x with
      | true =>
          intro i hi
          cases i with
          | zero => simp [hx]
          | succ i =>
              rw [List.countP_cons_of_pos hx, Nat.succ_lt_succ_iff]
              exact ih i (by simpa using hi)
      | false =>
          have hnone : ∀ y ∈ v, ¬p y = true := fun y hy hpy => by
            obtain ⟨j, hj, rfl⟩ := List.getElem_of_mem hy
            have h0 := hdown 0 (j + 1) (by omega) (by simpa using hj) (by simpa using hpy)
            rw [List.getElem_cons_zero, hx] at h0
            exact Bool.false_ne_true h0
          intro i hi
          rw [List.countP_cons_of_neg (by simp [hx]), List.countP_eq_zero.2 hnone]
          refine iff_of_false (fun hpi => ?_) (Nat.not_lt_zero i)
          cases i with
          | zero => rw [List.getElem_cons_zero, hx] at hpi; exact Bool.false_ne_true hpi
          | succ i => exact hnone _ (List.getElem_mem _) hpi

theorem boundary_unique {v : List α} {k : ℕ} (hk : k ≤ v.length) (h : ∀ i (hi : i < v.length), p v[i] = true ↔ i < k) :
    v.countP p = k ∧ (v.takeWhile p).length = k := by
  induction v generalizing k with
  | nil =>
      rw [List.length_nil] at hk
      exact ⟨by simp; omega, by simp; omega⟩
  | cons x v ih =>
      have h0 := h 0 (by simp)
      rw [List.getElem_cons_zero] at h0
      cases k with
      | zero =>
          have hx : ¬p x = true := fun hx => absurd (h0.1 hx) (Nat.lt_irrefl 0)
          refine ⟨List.countP_eq_zero.2 fun y hy => ?_, by rw [List.takeWhile_cons_of_neg hx]; rfl⟩
          obtain ⟨j, hj, rfl⟩ := List.getElem_of_mem hy
          exact fun hp => Nat.not_lt_zero j ((h j hj).1 hp)
      | succ k =>
          have hx : p x = true := h0.2 (Nat.succ_pos k)
          obtain ⟨hcount, hwhile⟩ := ih (k := k) (by simpa using hk) fun i hi => by
            have hi' := h (i + 1) (by simpa using hi)
            rw [List.getElem_cons_succ, Nat.succ_lt_succ_iff] at hi'
            exact hi'
          rw [List.countP_cons_of_pos hx, List.takeWhile_cons_of_pos hx, List.length_cons, hcount, hwhile]
          exact ⟨rfl, rfl⟩

-- In a sorted list the elements before `x`, and those not after it, come first.
theorem Sorted.before_iff {v : List α} (hsorted : Sorted lt v) (h : StrictWeak lt) (x : α) :
    ∀ i (hi : i < v.length), lt v[i] x = true ↔ i < v.countP fun y => lt y x :=
  countP_boundary (p := fun y => lt y x) fun _ _ hij hj hjx =>
    h.lt_of_not_lt_of_lt (hsorted.getElem_le h hij.le hj) hjx

theorem Sorted.notAfter_iff {v : List α} (hsorted : Sorted lt v) (h : StrictWeak lt) (x : α) :
    ∀ i (hi : i < v.length), lt x v[i] = false ↔ i < v.countP fun y => !lt x y := by
  intro i hi
  rw [← countP_boundary (p := fun y => !lt x y) (fun _ _ hij hj hjx => ?_) i hi, Bool.not_eq_true']
  rw [Bool.not_eq_true'] at hjx ⊢
  exact h.not_lt_trans (hsorted.getElem_le h hij.le hj) hjx

end Boundary

section Ranks

variable {w v C : List α} {k j : ℕ} {x y : α}

-- An element that may stand at position `k` of the sorted list.
def Ranked (lt : α → α → Bool) (w : List α) (k : ℕ) (x : α) : Prop :=
  (w.countP fun y => lt y x) ≤ k ∧ k < w.countP fun y => !lt x y

namespace Ranked

theorem perm (h : Ranked lt w k x) (hperm : w.Perm v) : Ranked lt v k x :=
  ⟨hperm.countP_eq (fun y => lt y x) ▸ h.1, hperm.countP_eq (fun y => !lt x y) ▸ h.2⟩

-- Elements that do not come before `x` leave its rank,
theorem append (h : Ranked lt w k x) (hC : ∀ c ∈ C, lt c x = false) : Ranked lt (w ++ C) k x := by
  have hnone : (C.countP fun y => lt y x) = 0 := List.countP_eq_zero.2 fun c hc => by simp [hC c hc]
  rw [Ranked, List.countP_append, List.countP_append, hnone, Nat.add_zero]
  exact ⟨h.1, Nat.lt_add_right _ h.2⟩

-- and those that do not come after it raise it.
theorem prepend (h : Ranked lt w k x) (hC : ∀ c ∈ C, lt x c = false) : Ranked lt (C ++ w) (C.length + k) x := by
  have hall : (C.countP fun y => !lt x y) = C.length := List.countP_eq_length.2 fun c hc => by simp [hC c hc]
  rw [Ranked, List.countP_append, List.countP_append, hall]
  exact ⟨Nat.add_le_add List.countP_le_length h.1, Nat.add_lt_add_left h.2 _⟩

-- Ranks follow the order.
theorem not_lt (hlt : StrictWeak lt) (hx : Ranked lt w k x) (hy : Ranked lt w j y) (hkj : k ≤ j) : lt y x = false := by
  rw [Bool.eq_false_iff]
  intro hyx
  have hmono : (w.countP fun z => !lt y z) ≤ w.countP fun z => lt z x := by
    refine List.countP_mono_left fun z _ hz => ?_
    rw [Bool.not_eq_true'] at hz
    exact hlt.lt_of_not_lt_of_lt hz hyx
  exact absurd (hy.2.trans_le (hmono.trans hx.1)) (by omega)

end Ranked

theorem Sorted.ranked (hlt : StrictWeak lt) (h : Sorted lt w) (hk : k < w.length) : Ranked lt w k w[k] := by
  refine ⟨?_, (h.notAfter_iff hlt w[k] k hk).1 (hlt.irrefl _)⟩
  have hnot := mt (h.before_iff hlt w[k] k hk).2 (by rw [hlt.irrefl]; exact Bool.false_ne_true)
  omega

-- An element is equivalent to the one of its rank in the sorted list.
theorem Ranked.equiv (hlt : StrictWeak lt) (h : Ranked lt w k x) (hsorted : Sorted lt v) (hperm : v.Perm w) (hk : k < v.length) :
    lt v[k] x = false ∧ lt x v[k] = false := by
  have hv := (hsorted.ranked hlt hk).perm hperm
  exact ⟨h.not_lt hlt hv (Nat.le_refl k), hv.not_lt hlt h (Nat.le_refl k)⟩

theorem sorted_of_ranked (hlt : StrictWeak lt) (h : ∀ i, ∀ hi : i < w.length, Ranked lt w i w[i]) : Sorted lt w :=
  List.pairwise_iff_getElem.2 fun i j hi hj hij => (h i hi).not_lt hlt (h j hj) hij.le

end Ranks

end Sorting
