import Joolia.Base.Partr
import Mathlib.Data.List.Perm.Basic

namespace Joolia.Partr

open Fallible DaryHeap

variable {τ : Type} {priority : τ → ℕ} {l l' : List τ} {k n i j : ℕ}

-- The slots of a heap that holds the tasks `l`, with `k` undefined ones after them.
def slots (l : List τ) (k : ℕ) : List (Option τ) := l.map some ++ List.replicate k none

-- The priority at a position, and zero past the last task.
def keyAt (priority : τ → ℕ) (l : List τ) (i : ℕ) : ℕ := (l[i]?.map priority).getD 0

-- The tasks at two positions exchanged.
def exchange (l : List τ) (i j : ℕ) : List τ :=
  match l[i]?, l[j]? with
  | some x, some y => (l.set i y).set j x
  | _, _ => l

theorem keyAt_eq (hi : i < l.length) : keyAt priority l i = priority l[i] := by simp [keyAt, hi]

theorem exchange_eq (hi : i < l.length) (hj : j < l.length) : exchange l i j = (l.set i l[j]).set j l[i] := by
  simp [exchange, hi, hj]

@[simp] theorem length_exchange : (exchange l i j).length = l.length := by
  unfold exchange
  split <;> simp

theorem exchange_perm (hi : i < l.length) (hj : j < l.length) : (exchange l i j).Perm l := by
  rw [exchange_eq hi hj]
  exact List.set_set_perm hi hj

theorem keyAt_exchange (hi : i < l.length) (hj : j < l.length) :
    keyAt priority (exchange l i j) = swapped (keyAt priority l) i j := by
  funext m
  rw [exchange_eq hi hj]
  by_cases hmj : m = j
  · subst hmj
    simp [keyAt, hi, hj]
  · by_cases hmi : m = i
    · subst hmi
      simp [keyAt, hi, hj, Ne.symm hmj]
    · rw [swapped_of_ne hmi hmj]
      simp [keyAt, Ne.symm hmi, Ne.symm hmj]

section Accesses

@[simp] theorem length_slots : (slots l k).length = l.length + k := by simp [slots]

theorem slots_getElem? (hi : i < l.length) : (slots l k)[i]? = some (some l[i]) := by
  rw [slots, List.getElem?_append_left (by simpa using hi)]
  simp [hi]

theorem getTask_slots (hi : i < l.length) : getTask (slots l k) i = .ok l[i] := by
  simp [getTask, slots_getElem? hi]

theorem isassigned_slots (hi : i < l.length) : isassigned (slots l k) i = true := by
  simp [isassigned, slots_getElem? hi]

theorem setTask_slots (hi : i < l.length) (x : τ) : setTask (slots l k) i x = .ok (slots (l.set i x) k) := by
  rw [setTask, if_pos (by rw [length_slots]; omega), slots, List.set_append_left _ _ (by simpa using hi), slots,
    List.map_set]

-- The two assignments of an exchange.
theorem setTask_exchange (hi : i < l.length) (hj : j < l.length) :
    (setTask (slots l k) i l[j] >>= fun tasks => setTask tasks j l[i]) = .ok (slots (exchange l i j) k) := by
  rw [setTask_slots hi, ok_bind, setTask_slots (by simpa using hj), exchange_eq hi hj]

end Accesses

section Up

theorem parent_heapD : DaryHeap.parent heapD i = (i - 1) / heapD := rfl

theorem siftUpLoop_spec (count : ℕ) (hcount : i ≤ count) (hi : i < l.length)
    (hrise : Rising heapD l.length i (keyAt priority l)) :
    ∃ l', siftUpLoop priority count (slots l k) i = .ok (slots l' k) ∧ l'.Perm l ∧
      Ordered heapD l.length (keyAt priority l') := by
  induction count generalizing i l with
  | zero =>
      exact ⟨l, rfl, List.Perm.refl l, hrise.finish (fun h => absurd h (by omega))⟩
  | succ count ih =>
      by_cases hpos : i > 0
      · have hp : DaryHeap.parent heapD i < i := parent_lt hpos
        have hpl : DaryHeap.parent heapD i < l.length := hp.trans hi
        rw [siftUpLoop, if_pos hpos]
        simp only [← parent_heapD, getTask_slots hi, getTask_slots hpl, ok_bind]
        by_cases hlt : priority l[i] < priority l[DaryHeap.parent heapD i]
        · have hkey : keyAt priority l i < keyAt priority l (DaryHeap.parent heapD i) := by
            rwa [keyAt_eq hi, keyAt_eq hpl]
          obtain ⟨l', hrun, hperm, hord⟩ := ih (i := DaryHeap.parent heapD i)
            (l := exchange l (DaryHeap.parent heapD i) i) (by omega) (by simpa using hpl)
            (by
              rw [keyAt_exchange hpl hi, length_exchange, swapped_comm]
              exact hrise.swap hpos hi hkey)
          refine ⟨l', ?_, hperm.trans (exchange_perm hpl hi), by simpa using hord⟩
          have hset := setTask_exchange (k := k) hpl hi
          rw [if_pos hlt, ← bind_assoc, hset, ok_bind]
          exact hrun
        · rw [if_neg hlt]
          refine ⟨l, rfl, List.Perm.refl l, hrise.finish fun _ => ?_⟩
          rw [keyAt_eq hi, keyAt_eq hpl]
          omega
      · rw [siftUpLoop, if_neg hpos]
        exact ⟨l, rfl, List.Perm.refl l, hrise.finish (fun h => absurd h hpos)⟩

end Up

section Down

-- What a sift from `a` leaves: the same tasks, the subtree in order, the rest untouched.
structure Sunk (priority : τ → ℕ) (a : ℕ) (l l' : List τ) : Prop where
  perm : l'.Perm l
  ordered : OrderedBelow heapD l.length a (keyAt priority l')
  outside : ∀ i, ¬ Under heapD a i → keyAt priority l' i = keyAt priority l i
  bounded : ∀ b, Bounded heapD l.length a b (keyAt priority l) → Bounded heapD l.length a b (keyAt priority l')

-- A pass that exchanged and sifted at a child, then the passes over the rest.
theorem Sunk.after_swap {a c : ℕ} {l₁ l₂ : List τ} (hc : 0 < c) (hp : DaryHeap.parent heapD c = a) (hcl : c < l.length)
    (hchild : Sunk priority c (exchange l a c) l₁) (hrest : Sunk priority a l₁ l₂) : Sunk priority a l l₂ := by
  have hac : a < c := hp ▸ parent_lt hc
  have hal : a < l.length := hac.trans hcl
  have hlen : l₁.length = l.length := by rw [hchild.perm.length_eq, length_exchange]
  have hout := hchild.outside
  rw [keyAt_exchange hal hcl] at hout
  refine ⟨hrest.perm.trans (hchild.perm.trans (exchange_perm hal hcl)), ?_, fun i hu => ?_, fun b hb => ?_⟩
  · rw [← hlen]
    exact hrest.ordered
  · have hui : ¬ Under heapD c i := fun h => hu ((Under.of_child hp).trans h)
    rw [hrest.outside i hu, hout i hui, swapped_of_ne]
    · rintro rfl
      exact hu Under.refl
    · rintro rfl
      exact hui Under.refl
  · rw [← hlen]
    apply hrest.bounded
    rw [hlen]
    refine bounded_after_swap hb hc hcl hp hout fun b' hb' => ?_
    have := hchild.bounded b'
    rw [length_exchange, keyAt_exchange hal hcl] at this
    exact this hb'

theorem siftDownLoop_spec {a : ℕ} {siftDown : List (Option τ) → ℕ → Except Failure (List (Option τ))}
    (hrec : ∀ (l : List τ) c, l.length = n → 0 < c → DaryHeap.parent heapD c = a →
      OrderedBelowExcept heapD n c (keyAt priority l) →
        ∃ l', siftDown (slots l k) c = .ok (slots l' k) ∧ Sunk priority c l l')
    (ha : a < n) (m c : ℕ) (hm : c + m = heapD * a + heapD + 1) (hc : heapD * a < c) (hn : l.length = n)
    (hsink : Sinking heapD n a c (keyAt priority l)) :
    ∃ l', siftDownLoop priority n a siftDown (List.range' c m) (slots l k) = .ok (slots l' k) ∧ Sunk priority a l l' := by
  induction m generalizing c l with
  | zero =>
      refine ⟨l, rfl, List.Perm.refl l, ?_, fun _ _ => rfl, fun _ hb => hb⟩
      rw [hn]
      refine hsink.finish fun i hi _ hp => ?_
      have := (parent_eq_iff (d := heapD) (by decide) hi).mp hp
      omega
  | succ m ih =>
      rw [List.range'_succ, siftDownLoop]
      by_cases hcn : c ≥ n
      · rw [if_pos hcn]
        refine ⟨l, rfl, List.Perm.refl l, ?_, fun _ _ => rfl, fun _ hb => hb⟩
        rw [hn]
        exact hsink.finish fun i _ hi _ => by omega
      · have hcl : c < l.length := by omega
        have hal : a < l.length := by omega
        have hc0 : 0 < c := by omega
        have hp : DaryHeap.parent heapD c = a := (parent_eq_iff (d := heapD) (by decide) hc0).mpr ⟨hc, by omega⟩
        rw [if_neg hcn, if_pos (isassigned_slots hcl)]
        simp only [getTask_slots hcl, getTask_slots hal, ok_bind]
        by_cases hlt : priority l[c] < priority l[a]
        · have hkey : keyAt priority l c < keyAt priority l a := by rwa [keyAt_eq hcl, keyAt_eq hal]
          obtain ⟨l₁, hrun₁, hsunk₁⟩ := hrec (exchange l a c) c (by simpa using hn) hc0 hp
            (by
              rw [keyAt_exchange hal hcl]
              exact hsink.swap_child hc0 hp)
          have hlen : l₁.length = n := by rw [hsunk₁.perm.length_eq, length_exchange, hn]
          have hnext : Sinking heapD n a (c + 1) (keyAt priority l₁) := by
            have hout := hsunk₁.outside
            have hord := hsunk₁.ordered
            have hlow := hsunk₁.bounded (keyAt priority l c)
            rw [length_exchange, hn] at hord hlow
            rw [keyAt_exchange hal hcl] at hout hlow
            exact hsink.swap hc0 (by omega) hp hkey hout hord (hlow (hsink.bounded_swap hc0 hp hkey))
          obtain ⟨l₂, hrun₂, hsunk₂⟩ := ih (c + 1) (by omega) (by omega) hlen hnext
          refine ⟨l₂, ?_, Sunk.after_swap hc0 hp hcl hsunk₁ hsunk₂⟩
          have hset := setTask_exchange (k := k) hal hcl
          rw [if_pos hlt, ← bind_assoc, hset, ok_bind, hrun₁, ok_bind]
          exact hrun₂
        · rw [if_neg hlt]
          refine ih (c + 1) (by omega) (by omega) hn (hsink.skip ?_)
          rw [keyAt_eq hcl, keyAt_eq hal]
          omega

-- The first position `k` levels below `i`.
def leftmost (i : ℕ) : ℕ → ℕ
  | 0 => i
  | k + 1 => leftmost (heapD * i + 1) k

theorem leftmost_mono (k : ℕ) (hij : i ≤ j) : leftmost i k ≤ leftmost j k := by
  induction k generalizing i j with
  | zero => exact hij
  | succ k ih => exact ih (Nat.add_le_add_right (Nat.mul_le_mul_left _ hij) 1)

theorem leftmost_succ_le (k : ℕ) : leftmost i k ≤ leftmost i (k + 1) :=
  leftmost_mono k (by unfold heapD; omega)

-- As long as the positions stay below `2 ^ 29` the range is that of the children, or there are none in the heap.
theorem children_eq (hi : i < 2 ^ 29) (hn : n ≤ 2 ^ 29) :
    children i = List.range' (heapD * i + 1) heapD ∨ (children i = [] ∧ n ≤ heapD * i) := by
  have hstart : u32 (heapD * i) = heapD * i := Nat.mod_eq_of_lt (by unfold heapD; omega)
  by_cases hlast : heapD * i + heapD < 2 ^ 32
  · left
    have hstop : u32 (heapD * i + heapD) = heapD * i + heapD := Nat.mod_eq_of_lt hlast
    unfold children
    simp only [hstart, hstop]
    rw [show heapD * i + heapD + 1 - (heapD * i + 1) = heapD by omega]
  · right
    have hmul : heapD * i + heapD = 2 ^ 32 := by unfold heapD at *; omega
    unfold children
    simp only [hstart, hmul]
    refine ⟨?_, by unfold heapD at *; omega⟩
    rw [show u32 (2 ^ 32) = 0 from rfl]
    simp

-- A sift at a node without children.
theorem Sunk.of_leaf (hn : l.length = n) (hbelow : OrderedBelowExcept heapD n i (keyAt priority l))
    (hnone : ∀ j, 0 < j → j < n → DaryHeap.parent heapD j ≠ i) : Sunk priority i l l := by
  subst hn
  exact ⟨List.Perm.refl l, fun j hj hjn hu => hbelow j hj hjn hu (hnone j hj hjn), fun _ _ => rfl, fun _ hb => hb⟩

theorem multiqSiftDown_spec (stack : ℕ) (hn : l.length = n) (hsmall : n ≤ 2 ^ 29) (hdeep : n ≤ leftmost i stack)
    (hbelow : OrderedBelowExcept heapD n i (keyAt priority l)) :
    ∃ l', multiqSiftDown priority n (stack + 1) (slots l k) i = .ok (slots l' k) ∧ Sunk priority i l l' := by
  induction stack generalizing i l with
  | zero =>
      have hi : ¬ i < n := Nat.not_lt.mpr hdeep
      rw [multiqSiftDown, if_neg hi]
      refine ⟨l, rfl, Sunk.of_leaf hn hbelow fun j hj hjn hp => ?_⟩
      have := parent_lt (d := heapD) hj
      omega
  | succ stack ih =>
      by_cases hi : i < n
      · rw [multiqSiftDown, if_pos hi]
        rcases children_eq (lt_of_lt_of_le hi hsmall) hsmall with hch | ⟨hch, hle⟩
        · rw [hch]
          refine siftDownLoop_spec (fun l c hl hc hp hb => ?_) hi heapD (heapD * i + 1) (by omega) (by omega) hn
            (Sinking.start hbelow fun j hj hp => ?_)
          · have hrange := (parent_eq_iff (d := heapD) (by decide) hc).mp hp
            have hdeep' : n ≤ leftmost c stack := hdeep.trans (leftmost_mono stack (by omega))
            exact ih hl hdeep' hb
          · have := (parent_eq_iff (d := heapD) (by decide) hj).mp hp
            omega
        · rw [hch]
          refine ⟨l, rfl, Sunk.of_leaf hn hbelow fun j hj hjn hp => ?_⟩
          have := (parent_eq_iff (d := heapD) (by decide) hj).mp hp
          omega
      · rw [multiqSiftDown, if_neg hi]
        refine ⟨l, rfl, Sunk.of_leaf hn hbelow fun j hj hjn hp => ?_⟩
        have := parent_lt (d := heapD) hj
        omega

end Down

end Joolia.Partr
