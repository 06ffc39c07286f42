import Mathlib.Order.Basic
import Mathlib.Data.Nat.Basic
import Mathlib.Logic.Function.Iterate
import Mathlib.Logic.Equiv.Basic
import Mathlib.Tactic.TypeStar
import Mathlib.Order.Lattice

namespace DaryHeap

-- The position above `i` in a heap whose nodes have `d` children.
def parent (d i : ℕ) : ℕ := (i - 1) / d

-- `i` lies in the subtree whose root is `a`.
def Under (d a i : ℕ) : Prop := ∃ k, (parent d)^[k] i = a

section Positions

variable {d a b i : ℕ}

@[simp] theorem parent_zero : parent d 0 = 0 := by simp [parent]

theorem parent_le : parent d i ≤ i := (Nat.div_le_self _ _).trans (Nat.sub_le _ _)

theorem parent_lt (hi : 0 < i) : parent d i < i :=
  (Nat.div_le_self _ _).trans_lt (Nat.sub_lt hi Nat.one_pos)

-- The children of `a` are the positions `d * a + 1, ..., d * a + d`.
theorem parent_eq_iff (hd : 0 < d) (hi : 0 < i) : parent d i = a ↔ d * a < i ∧ i ≤ d * a + d := by
  rw [parent, Nat.div_eq_iff hd, Nat.mul_comm a d]
  omega

theorem iterate_parent_le (k : ℕ) : (parent d)^[k] i ≤ i := by
  induction k generalizing i with
  | zero => exact le_rfl
  | succ k ih =>
      rw [Function.iterate_succ_apply]
      exact ih.trans parent_le

theorem Under.refl : Under d a a := ⟨0, rfl⟩

theorem Under.le (h : Under d a i) : a ≤ i := by
  obtain ⟨k, rfl⟩ := h
  exact iterate_parent_le k

theorem Under.of_parent (h : Under d a (parent d i)) : Under d a i := by
  obtain ⟨k, hk⟩ := h
  exact ⟨k + 1, hk⟩

theorem Under.parent (h : Under d a i) (hne : i ≠ a) : Under d a (parent d i) := by
  obtain ⟨k, hk⟩ := h
  cases k with
  | zero => exact absurd hk hne
  | succ k => exact ⟨k, hk⟩

theorem Under.trans (hab : Under d a b) (hbi : Under d b i) : Under d a i := by
  obtain ⟨k, rfl⟩ := hab
  obtain ⟨m, rfl⟩ := hbi
  exact ⟨k + m, Function.iterate_add_apply _ _ _ _⟩

theorem Under.of_child (h : DaryHeap.parent d b = a) : Under d a b := Under.of_parent (h ▸ Under.refl)

theorem under_zero (i : ℕ) : Under d 0 i := by
  induction i using Nat.strong_induction_on with
  | _ i ih =>
      rcases Nat.eq_zero_or_pos i with rfl | hi
      · exact Under.refl
      · exact (ih _ (parent_lt hi)).of_parent

-- The subtrees of two children of one node do not meet in a child.
theorem not_under_sibling (ha : 0 < a) (h : parent d a = parent d i) (hne : i ≠ a) : ¬ Under d a i := by
  intro hu
  have hle := (hu.parent hne).le
  rw [← h] at hle
  exact absurd (parent_lt ha) (Nat.not_lt.mpr hle)

end Positions

section Order

variable {κ : Type*}

-- `f` with the keys at `i` and `j` exchanged.
def swapped (f : ℕ → κ) (i j : ℕ) : ℕ → κ := fun k => f (Equiv.swap i j k)

@[simp] theorem swapped_left {f : ℕ → κ} (i j : ℕ) : swapped f i j i = f j := by simp [swapped]

@[simp] theorem swapped_right {f : ℕ → κ} (i j : ℕ) : swapped f i j j = f i := by simp [swapped]

theorem swapped_of_ne {f : ℕ → κ} {i j k : ℕ} (hi : k ≠ i) (hj : k ≠ j) : swapped f i j k = f k := by
  rw [swapped, Equiv.swap_apply_of_ne_of_ne hi hj]

theorem swapped_comm {f : ℕ → κ} (i j : ℕ) : swapped f i j = swapped f j i := by
  funext k
  rw [swapped, swapped, Equiv.swap_comm]

variable [LinearOrder κ] {d n a c i : ℕ} {f g h : ℕ → κ}

-- Every node of the heap is at least its parent.
def Ordered (d n : ℕ) (f : ℕ → κ) : Prop := ∀ i, 0 < i → i < n → f (parent d i) ≤ f i

-- The same in the subtree of `a`, and there without the pairs whose parent is `a` itself.
def OrderedBelow (d n a : ℕ) (f : ℕ → κ) : Prop :=
  ∀ i, 0 < i → i < n → Under d a (parent d i) → f (parent d i) ≤ f i

def OrderedBelowExcept (d n a : ℕ) (f : ℕ → κ) : Prop :=
  ∀ i, 0 < i → i < n → Under d a (parent d i) → parent d i ≠ a → f (parent d i) ≤ f i

-- The keys of the subtree of `a` are at least `b`.
def Bounded (d n a : ℕ) (b : κ) (f : ℕ → κ) : Prop := ∀ i, i < n → Under d a i → b ≤ f i

theorem OrderedBelow.ordered (hf : OrderedBelow d n 0 f) : Ordered d n f :=
  fun i hi hn => hf i hi hn (under_zero _)

theorem Ordered.below (hf : Ordered d n f) (a : ℕ) : OrderedBelow d n a f := fun i hi hn _ => hf i hi hn

-- The root of an ordered subtree is its least key.
theorem OrderedBelow.root_le (hf : OrderedBelow d n a f) : Bounded d n a (f a) f := by
  intro i
  induction i using Nat.strong_induction_on with
  | _ i ih =>
      intro hn hu
      by_cases hia : i = a
      · rw [hia]
      · have hle := hu.le
        have hi : 0 < i := by omega
        have hup := hu.parent hia
        exact (ih _ (parent_lt hi) (parent_lt hi |>.trans hn) hup).trans (hf i hi hn hup)

theorem Ordered.root_le (hf : Ordered d n f) (hn : i < n) : f 0 ≤ f i :=
  (hf.below 0).root_le i hn (under_zero i)

section Down

-- What holds while a key sinks at `a`: the subtrees of its children are ordered, and the key is at most those of the
-- children before `c`.
structure Sinking (d n a c : ℕ) (f : ℕ → κ) : Prop where
  below : OrderedBelowExcept d n a f
  least : ∀ i, 0 < i → i < n → i < c → parent d i = a → f a ≤ f i

theorem Sinking.start (hf : OrderedBelowExcept d n a f) (hc : ∀ i, 0 < i → parent d i = a → c ≤ i) :
    Sinking d n a c f :=
  ⟨hf, fun i hi _ hic hp => absurd (hc i hi hp) (by omega)⟩

-- All the children have been passed.
theorem Sinking.finish (hf : Sinking d n a c f) (hc : ∀ i, 0 < i → i < n → parent d i = a → i < c) :
    OrderedBelow d n a f := by
  intro i hi hn hu
  by_cases hp : parent d i = a
  · rw [hp]
    exact hf.least i hi hn (hc i hi hn hp) hp
  · exact hf.below i hi hn hu hp

-- The child at `c` is not less.
theorem Sinking.skip (hf : Sinking d n a c f) (hle : f a ≤ f c) : Sinking d n a (c + 1) f := by
  refine ⟨hf.below, fun i hi hn hic hp => ?_⟩
  rcases Nat.lt_succ_iff_lt_or_eq.mp hic with hlt | rfl
  · exact hf.least i hi hn hlt hp
  · exact hle

-- The subtree of a child is ordered while the key sinks.
theorem Sinking.child (hf : Sinking d n a c f) (hc : 0 < c) (hp : parent d c = a) : OrderedBelow d n c f := by
  intro i hi hn hu
  have hne : parent d i ≠ a := by
    intro h
    have := hu.le
    have := parent_lt (d := d) hc
    omega
  exact hf.below i hi hn ((Under.of_child hp).trans hu) hne

-- The child at `c` is less and has been exchanged with the key.
theorem Sinking.swap_child (hf : Sinking d n a c f) (hc : 0 < c) (hp : parent d c = a) :
    OrderedBelowExcept d n c (swapped f a c) := by
  intro i hi hn hu hne
  have hac : a < c := hp ▸ parent_lt hc
  have hle := hu.le
  have hlt := parent_lt (d := d) hi
  rw [swapped_of_ne (by omega) hne, swapped_of_ne (by omega) (by omega)]
  exact hf.child hc hp i hi hn hu

theorem Sinking.bounded_swap (hf : Sinking d n a c f) (hc : 0 < c) (hp : parent d c = a) (hlt : f c < f a) :
    Bounded d n c (f c) (swapped f a c) := by
  intro i hn hu
  by_cases hic : i = c
  · rw [hic, swapped_right]
    exact hlt.le
  · have hac : a < c := hp ▸ parent_lt hc
    have hle := hu.le
    rw [swapped_of_ne (by omega) hic]
    exact (hf.child hc hp).root_le i hn hu

-- The exchanged key has sunk in the subtree of `c`, which leaves everything else as it was.
theorem Sinking.swap (hf : Sinking d n a c f) (hc : 0 < c) (hcn : c < n) (hp : parent d c = a) (hlt : f c < f a)
    (hout : ∀ i, ¬ Under d c i → g i = swapped f a c i) (hord : OrderedBelow d n c g)
    (hlow : Bounded d n c (f c) g) : Sinking d n a (c + 1) g := by
  have hac : a < c := hp ▸ parent_lt hc
  have hga : g a = f c := by
    rw [hout a (fun hu => absurd hu.le (by omega)), swapped_left]
  constructor
  · intro i hi hn hu hne
    by_cases huc : Under d c (parent d i)
    · exact hord i hi hn huc
    · -- neither of the two nodes lies in the subtree of `c`, nor is one of them `a`
      have hic : i ≠ c := fun h => hne (h ▸ hp)
      have hui : ¬ Under d c i := fun h => huc (h.parent hic)
      have hle := hu.le
      have hltp := parent_lt (d := d) hi
      have hpc : parent d i ≠ c := fun h => huc (h ▸ Under.refl)
      rw [hout _ huc, hout _ hui, swapped_of_ne hne hpc, swapped_of_ne (by omega) hic]
      exact hf.below i hi hn hu hne
  · intro i hi hn hic hpi
    rw [hga]
    rcases Nat.lt_succ_iff_lt_or_eq.mp hic with hlt' | rfl
    · have hne : i ≠ c := by omega
      have hltp := parent_lt (d := d) hi
      rw [hout i (not_under_sibling hc (hp.trans hpi.symm) hne), swapped_of_ne (by omega) hne]
      exact hlt.le.trans (hf.least i hi hn hlt' hpi)
    · exact hlow i hcn Under.refl

-- A bound of the subtree survives the pass.
theorem bounded_after_swap {b : κ} (hb : Bounded d n a b f) (hc : 0 < c) (hcn : c < n) (hp : parent d c = a)
    (hout : ∀ i, ¬ Under d c i → g i = swapped f a c i)
    (hlow : ∀ b, Bounded d n c b (swapped f a c) → Bounded d n c b g) : Bounded d n a b g := by
  have hac : a < c := hp ▸ parent_lt hc
  have hsw : Bounded d n a b (swapped f a c) := by
    intro i hn hu
    by_cases hia : i = a
    · rw [hia, swapped_left]
      exact hb c hcn (Under.of_child hp)
    · by_cases hic : i = c
      · rw [hic, swapped_right]
        exact hb a (by omega) Under.refl
      · rw [swapped_of_ne hia hic]
        exact hb i hn hu
  intro i hn hu
  by_cases huc : Under d c i
  · exact hlow b (fun j hj huj => hsw j hj ((Under.of_child hp).trans huj)) i hn huc
  · rw [hout i huc]
    exact hsw i hn hu

end Down

section Up

-- What holds while a key rises at `a`: only the pair with its own parent may be out of order.
structure Rising (d n a : ℕ) (f : ℕ → κ) : Prop where
  except : ∀ i, 0 < i → i < n → i ≠ a → f (parent d i) ≤ f i
  grand : 0 < a → ∀ i, 0 < i → i < n → parent d i = a → f (parent d a) ≤ f i

theorem Rising.finish (hf : Rising d n a f) (hstop : 0 < a → f (parent d a) ≤ f a) : Ordered d n f := by
  intro i hi hn
  by_cases hia : i = a
  · subst hia
    exact hstop hi
  · exact hf.except i hi hn hia

-- A key that comes last.
theorem Ordered.rising (hf : Ordered d n f) (hg : ∀ i, i < n → g i = f i) : Rising d (n + 1) n g := by
  refine ⟨fun i hi hn hne => ?_, fun _ i hi hn hp => ?_⟩
  · have hlt : i < n := by omega
    rw [hg _ (parent_lt hi |>.trans hlt), hg i hlt]
    exact hf i hi hlt
  · exact absurd (parent_lt (d := d) hi) (by omega)

-- The key is less than its parent and has been exchanged with it.
theorem Rising.swap (hf : Rising d n a f) (ha : 0 < a) (han : a < n) (hlt : f a < f (parent d a)) :
    Rising d n (parent d a) (swapped f a (parent d a)) := by
  have hpa := parent_lt (d := d) ha
  constructor
  · intro i hi hn hne
    by_cases hia : i = a
    · rw [hia, swapped_left, swapped_right]
      exact hlt.le
    · rw [swapped_of_ne hia hne]
      by_cases hpi : parent d i = a
      · rw [hpi, swapped_left]
        exact hf.grand ha i hi hn hpi
      · by_cases hpp : parent d i = parent d a
        · rw [hpp, swapped_right]
          exact hlt.le.trans (hpp ▸ hf.except i hi hn hia)
        · rw [swapped_of_ne hpi hpp]
          exact hf.except i hi hn hia
  · intro hp i hi hn hpi
    have hgp := parent_lt (d := d) hp
    have hup := hf.except _ hp (hpa.trans han) (by omega)
    rw [swapped_of_ne (by omega) (by omega)]
    by_cases hia : i = a
    · rw [hia, swapped_left]
      exact hup
    · rw [swapped_of_ne hia (fun h => absurd (parent_lt (d := d) hi) (by omega))]
      exact hup.trans (hpi ▸ hf.except i hi hn hia)

end Up

end Order

end DaryHeap
