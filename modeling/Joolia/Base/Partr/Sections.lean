import Joolia.Base.Partr.Sift

namespace Joolia.Partr

open Fallible DaryHeap

variable {τ : Type} {priority : τ → ℕ} {heap : TaskHeap τ} {l : List τ} {task : τ}

-- The heap holds the tasks `l`, in this order.
structure Represents (priority : τ → ℕ) (heap : TaskHeap τ) (l : List τ) : Prop where
  tasks : ∃ k, heap.tasks = slots l k
  room : 0 < heap.tasks.length
  ntasks : heap.ntasks = l.length
  ordered : Ordered heapD l.length (keyAt priority l)
  published : heap.priority = (l.head?.map priority).getD typemaxUInt16
  low : ∀ task ∈ l, priority task < typemaxUInt16

theorem slots_assigned {k i : ℕ} (h : (slots l k)[i]? = some (some task)) : ∃ hi : i < l.length, l[i] = task := by
  by_cases hi : i < l.length
  · rw [slots_getElem? hi] at h
    exact ⟨hi, by simpa using h⟩
  · rw [slots, List.getElem?_append_right (by simpa using hi)] at h
    simp [List.getElem?_replicate] at h

theorem Represents.valid (hrep : Represents priority heap l) : ValidHeap priority heap := by
  obtain ⟨k, hk⟩ := hrep.tasks
  refine ⟨fun i hi => ?_, fun i task h => ?_, fun i task above hi h habove => ?_, ?_⟩
  · rw [hrep.ntasks] at hi
    exact ⟨l[i], by rw [hk, slots_getElem? hi]⟩
  · rw [hk] at h
    rw [hrep.ntasks]
    exact (slots_assigned h).1
  · rw [hk] at h habove
    obtain ⟨hil, rfl⟩ := slots_assigned h
    obtain ⟨hpl, rfl⟩ := slots_assigned habove
    have := hrep.ordered i hi hil
    rwa [keyAt_eq hil, keyAt_eq (show DaryHeap.parent heapD i < l.length from hpl)] at this
  · rw [hrep.published, hk]
    cases l with
    | nil => cases k <;> rfl
    | cons root rest => rfl

theorem Represents.stored (hrep : Represents priority heap l) : heap.stored = l := by
  obtain ⟨k, hk⟩ := hrep.tasks
  rw [TaskHeap.stored, hk, slots, List.filterMap_append, List.filterMap_map]
  simp

-- Only the priorities of the tasks in the heap matter.
theorem Represents.congr {priority' : τ → ℕ} (hrep : Represents priority heap l)
    (h : ∀ task ∈ l, priority' task = priority task) : Represents priority' heap l := by
  have hkey : keyAt priority' l = keyAt priority l := by
    funext i
    cases hi : l[i]? with
    | none => simp [keyAt, hi]
    | some task => simp [keyAt, hi, h task (List.mem_of_getElem? hi)]
  refine ⟨hrep.tasks, hrep.room, hrep.ntasks, hkey ▸ hrep.ordered, ?_, fun task ht => ?_⟩
  · rw [hrep.published]
    cases l with
    | nil => rfl
    | cons root rest => simp [h root]
  · rw [h task ht]
    exact hrep.low task ht

theorem represents_taskheap (priority : τ → ℕ) : Represents priority (taskheap : TaskHeap τ) [] := by
  refine ⟨⟨256, ?_⟩, ?_, rfl, fun i _ hi => absurd hi (by simp), rfl, by simp⟩
  · rw [taskheap, slots, List.map_nil, List.nil_append]
  · rw [taskheap, List.length_replicate]
    decide

-- The root is a task of least priority.
theorem root_least {root : τ} {rest : List τ} (hord : Ordered heapD (root :: rest).length (keyAt priority (root :: rest)))
    (ht : task ∈ root :: rest) : priority root ≤ priority task := by
  obtain ⟨i, hi, rfl⟩ := List.mem_iff_getElem.mp ht
  have := hord.root_le hi
  rwa [keyAt_eq hi, keyAt_eq (by simp)] at this

section Insert

-- The published priority after an insertion is that of the new root.
theorem published_insert {l' : List τ} (hrep : Represents priority heap l) (hlow : priority task < typemaxUInt16)
    (hperm : l'.Perm (task :: l)) (hord : Ordered heapD l'.length (keyAt priority l')) :
    (if priority task < heap.priority then priority task else heap.priority)
      = (l'.head?.map priority).getD typemaxUInt16 := by
  cases l' with
  | nil => simp at hperm
  | cons root rest =>
      have hroot : root ∈ task :: l := hperm.subset (by simp)
      have htask := root_least hord (hperm.symm.subset (by simp : task ∈ task :: l))
      cases l with
      | nil =>
          obtain rfl : root = task := by simpa using hroot
          have hpub : heap.priority = typemaxUInt16 := hrep.published
          rw [hpub, if_pos hlow]
          rfl
      | cons old others =>
          have hold := root_least hord (hperm.symm.subset (by simp : old ∈ task :: old :: others))
          have hleast : priority root = priority task ∨ priority old ≤ priority root := by
            rcases List.mem_cons.mp hroot with rfl | hmem
            · exact .inl rfl
            · exact .inr (root_least hrep.ordered hmem)
          have hpub : heap.priority = priority old := hrep.published
          rw [hpub]
          simp only [List.head?_cons, Option.map_some, Option.getD_some]
          by_cases hlt : priority task < priority old
          · rw [if_pos hlt]
            omega
          · rw [if_neg hlt]
            omega

theorem keyAt_append {i : ℕ} (hi : i < l.length) : keyAt priority (l ++ [task]) i = keyAt priority l i := by
  simp [keyAt, List.getElem?_append_left hi]

-- The slots after `resize!` has room for one more task.
theorem slots_resized {k : ℕ} (hroom : 0 < l.length + k) : ∃ k', (if l.length ≥ (slots l k).length
    then slots l k ++ List.replicate (slots l k).length none else slots l k) = slots l (k' + 1) := by
  by_cases hfull : l.length ≥ (slots l k).length
  · rw [if_pos hfull]
    simp only [length_slots] at hfull ⊢
    obtain rfl : k = 0 := by omega
    refine ⟨l.length - 1, ?_⟩
    rw [show l.length - 1 + 1 = l.length by omega]
    simp [slots]
  · rw [if_neg hfull]
    simp only [length_slots] at hfull
    exact ⟨k - 1, by rw [show k - 1 + 1 = k by omega]⟩

theorem setTask_slots_last (l : List τ) (task : τ) (k : ℕ) : setTask (slots l (k + 1)) l.length task = .ok (slots (l ++ [task]) k) := by
  rw [setTask, if_pos (by simp), slots, List.set_append_right _ _ (by simp)]
  simp [slots, List.replicate_succ]

theorem insertLocked_spec (hrep : Represents priority heap l) (hlow : priority task < typemaxUInt16)
    (hsmall : l.length + 1 < 2 ^ 31) :
    ∃ heap' l', insertLocked priority heap task = .ok heap' ∧ Represents priority heap' l' ∧ l'.Perm (task :: l) := by
  obtain ⟨k, hk⟩ := hrep.tasks
  obtain ⟨k', hk'⟩ := slots_resized (l := l) (k := k) (by have := hrep.room; simpa [hk] using this)
  have hrise : Rising heapD (l ++ [task]).length l.length (keyAt priority (l ++ [task])) := by
    rw [List.length_append]
    exact hrep.ordered.rising fun i hi => keyAt_append hi
  obtain ⟨l', hrun, hperm, hord⟩ := siftUpLoop_spec (k := k') l.length le_rfl (by simp) hrise
  have hperm' : l'.Perm (task :: l) := hperm.trans (List.perm_append_singleton task l)
  rw [← hperm.length_eq] at hord
  refine ⟨⟨slots l' k', l.length + 1, if priority task < heap.priority then priority task else heap.priority⟩, l', ?_, ⟨⟨k', rfl⟩, ?_, ?_, hord, published_insert hrep hlow hperm' hord, ?_⟩,
    hperm'⟩
  · rw [insertLocked, hrep.ntasks, hk]
    simp only [hk', Nat.add_sub_cancel, if_neg (Nat.not_le.mpr hsmall), pure_eq_ok, ok_bind, setTask_slots_last,
      multiqSiftUp, hrun]
  · simp only [length_slots, hperm'.length_eq, List.length_cons]
    omega
  · simp [hperm'.length_eq]
  · intro t ht
    rcases List.mem_cons.mp (hperm'.subset ht) with rfl | hmem
    · exact hlow
    · exact hrep.low t hmem

end Insert

section Delete

theorem slots_unset (l : List τ) (task : τ) (k : ℕ) : (slots (l ++ [task]) k).set l.length none = slots l (k + 1) := by
  rw [slots, List.map_append, List.append_assoc, List.set_append_right _ _ (by simp)]
  simp [slots, List.replicate_succ]

-- With the last task in the place of the root only the pairs of the root can be out of order.
theorem ordered_except_root (root last : τ) (init : List τ)
    (hord : Ordered heapD (root :: init ++ [last]).length (keyAt priority (root :: init ++ [last]))) :
    OrderedBelowExcept heapD (last :: init).length 0 (keyAt priority (last :: init)) := by
  have hkey : ∀ i, 0 < i → i < (last :: init).length →
      keyAt priority (last :: init) i = keyAt priority (root :: init ++ [last]) i := by
    intro i hi hlt
    obtain ⟨j, rfl⟩ := Nat.exists_eq_succ_of_ne_zero hi.ne'
    have hj : j < init.length := by simpa using hlt
    simp [keyAt, List.getElem?_append_left hj]
  intro i hi hlt _ hne
  have hp := parent_lt (d := heapD) hi
  rw [hkey i hi hlt, hkey _ (Nat.pos_of_ne_zero hne) (hp.trans hlt)]
  exact hord i hi (by simp at hlt ⊢; omega)

theorem deleteLocked_spec {root : τ} {rest : List τ} (hrep : Represents priority heap (root :: rest))
    (hsmall : rest.length ≤ 2 ^ 29) {stack : ℕ} (hstack : 2 ^ 29 ≤ leftmost 0 stack) :
    ∃ heap' l', deleteLocked priority (stack + 1) heap = .ok heap' ∧ Represents priority heap' l' ∧ l'.Perm rest := by
  obtain ⟨k, hk⟩ := hrep.tasks
  have hn := hrep.ntasks
  have hroom := hrep.room
  rcases List.eq_nil_or_concat rest with rfl | ⟨init, last, rfl⟩
  · refine ⟨⟨slots [] (k + 1), 0, typemaxUInt16⟩, [], ?_, ?_, List.Perm.refl _⟩
    · rw [deleteLocked, hn, hk]
      rfl
    · exact ⟨⟨_, rfl⟩, by simp, rfl, fun i _ hi => absurd hi (by simp), rfl, by simp⟩
  · simp only [List.concat_eq_append] at *
    have hlen : (root :: (init ++ [last])).length = init.length + 2 := by simp
    rw [hlen] at hn
    have hget : getTask (slots (root :: (init ++ [last])) k) (init.length + 1) = .ok last := by
      rw [getTask_slots (by simp)]
      simp
    have hset : (slots ((root :: (init ++ [last])).set 0 last) k).set (init.length + 1) none = slots (last :: init) (k + 1) := by
      rw [List.set_cons_zero, ← List.cons_append]
      exact slots_unset (last :: init) last k
    have hord := ordered_except_root root last init hrep.ordered
    obtain ⟨l', hrun, hsunk⟩ := multiqSiftDown_spec (k := k + 1) stack rfl
      (by simpa using hsmall) (by simp at hsmall ⊢; omega) hord
    have hperm : l'.Perm (init ++ [last]) := hsunk.perm.trans (List.perm_append_singleton last init).symm
    have hpos : 0 < l'.length := by simp [hperm.length_eq]
    refine ⟨⟨slots l' (k + 1), init.length + 1, priority l'[0]⟩, l', ?_, ⟨⟨_, rfl⟩, ?_, ?_, ?_, ?_, ?_⟩, hperm⟩
    · rw [deleteLocked, hn, hk]
      simp only [Nat.add_succ_sub_one, hget, ok_bind, setTask_slots (by simp : 0 < (root :: (init ++ [last])).length), hset,
        if_pos (by omega : init.length + 2 > 1), List.length_cons] at hrun ⊢
      rw [hrun, ok_bind, getTask_slots hpos]
      rfl
    · simp only [length_slots]
      omega
    · simp [hperm.length_eq]
    · rw [hsunk.perm.length_eq]
      exact hsunk.ordered.ordered
    · cases l' with
      | nil => simp at hpos
      | cons x xs => rfl
    · intro t ht
      exact hrep.low t (List.mem_cons_of_mem _ (hperm.subset ht))

end Delete

end Joolia.Partr
