import Joolia.Base.Partr.Invariant
import Mathlib.Data.Fintype.Basic

namespace Joolia.Partr

open Fallible

variable {ι τ : Type} [DecidableEq τ] {s : State ι τ}

section Growth

theorem heapC_mul {nt : ℕ} (hnt : nt < 2 ^ 15) : 0 < u32 (heapC * atLeastOne nt) ∧ u32 (heapC * atLeastOne nt) < 2 ^ 16 := by
  have hpos : 0 < atLeastOne nt ∧ atLeastOne nt < 2 ^ 15 := by
    unfold atLeastOne
    split <;> omega
  rw [u32, Nat.mod_eq_of_lt (by unfold heapC; omega)]
  unfold heapC
  omega

omit [DecidableEq τ] in
-- The heaps that are added are empty, and the others are what they were.
theorem heapStored_addHeaps_of_lt {address : ℕ} (h : address < s.objects.length) (tpid : Fin 2) (fresh : ℕ) :
    (s.addHeaps tpid fresh).heapStored address = s.heapStored address := by
  simp only [State.heapStored, State.addHeaps, List.getElem?_append_left h]

omit [DecidableEq τ] in
theorem heapStored_addHeaps_of_mem {address fresh : ℕ} (h : address ∈ List.range' s.objects.length fresh) (tpid : Fin 2) :
    (s.addHeaps tpid fresh).heapStored address = [] := by
  obtain ⟨hlo, hhi⟩ := List.mem_range'_1.mp h
  simp only [State.heapStored, State.addHeaps, List.getElem?_append_right hlo]
  rw [List.getElem?_replicate, if_pos (by omega), Option.map_some, Option.getD_some]
  exact (represents_taskheap s.priority).stored

omit [DecidableEq τ] in
theorem heaps_addHeaps_self (tpid : Fin 2) (fresh : ℕ) :
    (s.addHeaps tpid fresh).heaps tpid = s.heaps tpid ++ List.range' s.objects.length fresh := by
  simp [State.addHeaps]

omit [DecidableEq τ] in
theorem heaps_addHeaps_of_ne {tpid tp : Fin 2} (hne : tp ≠ tpid) (fresh : ℕ) :
    (s.addHeaps tpid fresh).heaps tp = s.heaps tp := by
  simp [State.addHeaps, hne]

theorem flatMap_addHeaps (hs : Good s) (tpid tp : Fin 2) (fresh : ℕ) :
    ((s.addHeaps tpid fresh).heaps tp).flatMap (s.addHeaps tpid fresh).heapStored
      = (s.heaps tp).flatMap s.heapStored := by
  have hold : (s.heaps tp).flatMap (s.addHeaps tpid fresh).heapStored = (s.heaps tp).flatMap s.heapStored :=
    List.flatMap_congr fun address hmem => heapStored_addHeaps_of_lt (hs.addresses_heaps tp address hmem) tpid fresh
  by_cases hne : tp = tpid
  · subst hne
    rw [heaps_addHeaps_self, List.flatMap_append, hold,
      List.flatMap_eq_nil_iff.mpr fun address hmem => heapStored_addHeaps_of_mem hmem tp, List.append_nil]
  · rw [heaps_addHeaps_of_ne hne, hold]

theorem stored_addHeaps (hs : Good s) (tpid : Fin 2) (fresh : ℕ) : (s.addHeaps tpid fresh).stored = s.stored := by
  simp only [State.stored, List.flatMap_append, flatMap_addHeaps hs]

theorem addresses_addHeaps (hs : Good s) (tpid : Fin 2) (fresh : ℕ) :
    ((s.addHeaps tpid fresh).heaps 0 ++ (s.addHeaps tpid fresh).heaps 1).Perm
      (List.range (s.addHeaps tpid fresh).objects.length) := by
  have hlen : (s.addHeaps tpid fresh).objects.length = s.objects.length + fresh := by simp [State.addHeaps]
  have hrange : (s.heaps 0 ++ s.heaps 1 ++ List.range' s.objects.length fresh).Perm
      (List.range (s.objects.length + fresh)) := by
    rw [List.range_add, ← List.range'_eq_map_range]
    exact hs.addresses.append_right _
  rw [hlen]
  refine List.Perm.trans ?_ hrange
  match tpid with
  | 0 =>
      rw [heaps_addHeaps_self, heaps_addHeaps_of_ne (by decide), List.append_assoc, List.append_assoc]
      exact List.perm_append_comm.append_left _
  | 1 =>
      rw [heaps_addHeaps_self, heaps_addHeaps_of_ne (by decide), List.append_assoc]

omit [DecidableEq τ] in
theorem length_heaps_addHeaps (tpid tp : Fin 2) (fresh : ℕ) :
    ((s.addHeaps tpid fresh).heaps tp).length = (s.heaps tp).length + if tp = tpid then fresh else 0 := by
  by_cases hne : tp = tpid
  · subst hne
    simp [heaps_addHeaps_self]
  · simp [heaps_addHeaps_of_ne hne, hne]

omit [DecidableEq τ] in
theorem objects_addHeaps {tpid : Fin 2} {fresh address : ℕ} {heap : TaskHeap τ}
    (h : (s.addHeaps tpid fresh).objects[address]? = some heap) :
    s.objects[address]? = some heap ∨ heap = taskheap := by
  simp only [State.addHeaps, List.getElem?_append] at h
  split at h
  · exact .inl h
  · rw [List.getElem?_replicate] at h
    split at h
    · exact .inr (by simpa using h.symm)
    · simp at h

theorem Good.addHeaps (hs : Good s) (tpid : Fin 2) {fresh : ℕ} (hshort : (s.heaps tpid).length + fresh < 2 ^ 17) :
    Good (s.addHeaps tpid fresh) := by
  have hempty := represents_taskheap s.priority
  refine ⟨fun address heap h => ?_, fun address heap h => ?_, addresses_addHeaps hs tpid fresh, fun tp => ?_, fun task => ?_,
    ?_, fun thread => ?_, fun thread task h => ?_, hs.pending_one⟩
  · rcases objects_addHeaps h with h | rfl
    · exact hs.contents address heap h
    · rw [hempty.stored]
      exact hempty
  · rcases objects_addHeaps h with h | rfl
    · exact hs.small address heap h
    · rw [hempty.ntasks]
      exact Nat.zero_le _
  · rw [length_heaps_addHeaps]
    have := hs.short tp
    split
    · subst tp
      exact hshort
    · exact this
  · rw [stored_addHeaps hs]
    exact hs.balance task
  · rw [stored_addHeaps hs]
    exact hs.once
  · refine (hs.locals thread).mono ?_ (fun tp => ?_) (fun _ _ => rfl)
    · simp [State.addHeaps]
    · rw [length_heaps_addHeaps]
      omega
  · rw [stored_addHeaps hs]
    exact hs.pending_new thread task h

-- The section under the lock of the pool.
theorem growLocked_spec (hs : Good s) (tpid : Fin 2) {nt : ℕ} (hnt : nt < 2 ^ 15) :
    Good (growLocked s tpid nt).1 ∧ 0 < (growLocked s tpid nt).2 ∧
      (growLocked s tpid nt).2 ≤ ((growLocked s tpid nt).1.heaps tpid).length ∧ (growLocked s tpid nt).1.pc = s.pc := by
  obtain ⟨hpos, hlt⟩ := heapC_mul hnt
  unfold growLocked
  dsimp only
  by_cases henough : u32 (heapC * atLeastOne nt) ≤ (s.heaps tpid).length
  · rw [if_pos henough]
    exact ⟨hs, by omega, le_rfl, rfl⟩
  · rw [if_neg henough]
    have hsum : u32 ((s.heaps tpid).length + u32 (heapC * atLeastOne nt))
        = (s.heaps tpid).length + u32 (heapC * atLeastOne nt) := Nat.mod_eq_of_lt (by omega)
    simp only [hsum, Nat.add_sub_cancel_left]
    refine ⟨hs.addHeaps tpid (by omega), by omega, ?_, rfl⟩
    rw [length_heaps_addHeaps, if_pos rfl]

end Growth

section Publish

variable [DecidableEq ι]

-- `task.priority = priority`, for a task that is in no heap.
theorem Good.setPriority (hs : Good s) {thread : ι} {task : τ} (hpend : (s.pc thread).pending = some task) {priority heapP : ℕ}
    {tpheaps : List ℕ} (hok : priority < typemaxUInt16 ∧ 0 < heapP ∧ heapP ≤ tpheaps.length ∧ Addresses s tpheaps) :
    Good ({ s with priority := Function.update s.priority task priority }.goto thread
      (.choosing task heapP tpheaps)) := by
  have hnew := hs.pending_new thread task hpend
  refine ⟨fun address heap h => ?_, hs.small, hs.addresses, hs.short, hs.balance, hs.once, fun t => ?_, fun t u h => ?_,
    fun t u x h h' => ?_⟩
  · refine (hs.contents address heap h).congr fun t ht => ?_
    simp only [State.goto]
    rw [Function.update_of_ne]
    rintro rfl
    exact hnew (hs.mem_stored h ht)
  · by_cases ht : t = thread
    · subst ht
      simp only [State.goto, Function.update_self, LocalOk]
      exact hok
    · simp only [State.goto, Function.update_of_ne ht]
      refine (hs.locals t).mono le_rfl (fun _ => le_rfl) fun u hu => Function.update_of_ne ?_ _ _
      rintro rfl
      exact ht (hs.pending_one t thread u hu hpend)
  · by_cases ht : t = thread
    · subst ht
      simp only [State.goto, Function.update_self, Local.pending, Option.some.injEq] at h
      subst h
      exact hnew
    · simp only [State.goto, Function.update_of_ne ht] at h
      exact hs.pending_new t u h
  · have hsame : ∀ v, (Function.update s.pc thread (.choosing task heapP tpheaps) v).pending = (s.pc v).pending := by
      intro v
      by_cases hv : v = thread
      · subst hv
        rw [Function.update_self, hpend]
        rfl
      · rw [Function.update_of_ne hv]
    simp only [State.goto, hsame] at h h'
    exact hs.pending_one t u x h h'

end Publish

section Replace

variable {address : ℕ} {heap heap' : TaskHeap τ} {task : τ}

-- The tasks in the other heaps.
theorem stored_replace (hs : Good s) (s' : State ι τ) (hheap : s.objects[address]? = some heap)
    (hobj : s'.objects = s.objects.set address heap') (hheaps : s'.heaps = s.heaps) :
    ∃ others, s.stored.Perm (heap.stored ++ others) ∧ s'.stored.Perm (heap'.stored ++ others) := by
  have hlt : address < s.objects.length := (List.getElem?_eq_some_iff.mp hheap).1
  have hmem := hs.mem_heaps.mpr hlt
  have hperm := List.perm_cons_erase hmem
  have hnot : address ∉ (s.heaps 0 ++ s.heaps 1).erase address := hs.nodup.not_mem_erase
  have hself : s.heapStored address = heap.stored := by rw [State.heapStored, hheap, Option.map_some, Option.getD_some]
  have hself' : s'.heapStored address = heap'.stored := by
    rw [State.heapStored, hobj, List.getElem?_set_self hlt, Option.map_some, Option.getD_some]
  have hsame : ((s.heaps 0 ++ s.heaps 1).erase address).flatMap s'.heapStored
      = ((s.heaps 0 ++ s.heaps 1).erase address).flatMap s.heapStored := by
    refine List.flatMap_congr fun b hb => ?_
    have hne : address ≠ b := fun h => hnot (h ▸ hb)
    rw [State.heapStored, State.heapStored, hobj, List.getElem?_set_ne hne]
  refine ⟨((s.heaps 0 ++ s.heaps 1).erase address).flatMap s.heapStored, ?_, ?_⟩
  · have := hperm.flatMap_right s.heapStored
    rwa [List.flatMap_cons, hself] at this
  · have := hperm.flatMap_right s'.heapStored
    rw [List.flatMap_cons, hself', hsame] at this
    rw [State.stored, hheaps]
    exact this

variable [DecidableEq ι]

-- A section under the lock of a heap changed that heap, and the call is over. What it put into the heap was its own.
theorem Good.replace (hs : Good s) (thread : ι) (hheap : s.objects[address]? = some heap)
    (hrep : Represents s.priority heap' heap'.stored) (hsmall : heap'.ntasks ≤ 2 ^ 29 + 1)
    (hown : ∀ x ∈ heap'.stored, x ∈ heap.stored ∨ (s.pc thread).pending = some x) {inserted returned : List τ}
    (hbalance : ∀ others, s.stored.Perm (heap.stored ++ others) →
      (heap'.stored ++ others).Nodup ∧ ∀ x, inserted.count x = returned.count x + (heap'.stored ++ others).count x) :
    Good ({ s with objects := s.objects.set address heap', inserted := inserted, returned := returned }.goto
      thread .idle) := by
  obtain ⟨others, hperm, hperm'⟩ := stored_replace hs
    ({ s with objects := s.objects.set address heap', inserted := inserted, returned := returned }.goto thread .idle)
    hheap rfl rfl
  obtain ⟨hnodup, hcount⟩ := hbalance others hperm
  refine ⟨fun b h hb => ?_, fun b h hb => ?_, ?_, hs.short, fun x => ?_, ?_, fun t => ?_, fun t x hx => ?_,
    fun t u x hx hx' => ?_⟩
  · by_cases hne : b = address
    · subst hne
      simp only [State.goto, List.getElem?_set, (List.getElem?_eq_some_iff.mp hheap).1, if_true, Option.some.injEq] at hb
      subst hb
      exact hrep
    · simp only [State.goto, List.getElem?_set_ne (Ne.symm hne)] at hb
      exact hs.contents b h hb
  · by_cases hne : b = address
    · subst hne
      simp only [State.goto, List.getElem?_set, (List.getElem?_eq_some_iff.mp hheap).1, if_true, Option.some.injEq] at hb
      subst hb
      exact hsmall
    · simp only [State.goto, List.getElem?_set_ne (Ne.symm hne)] at hb
      exact hs.small b h hb
  · simp only [State.goto, List.length_set]
    exact hs.addresses
  · rw [hperm'.count_eq]
    exact hcount x
  · exact hperm'.nodup_iff.mpr hnodup
  · by_cases ht : t = thread
    · subst ht
      simp only [State.goto, Function.update_self]
      trivial
    · simp only [State.goto, Function.update_of_ne ht]
      exact (hs.locals t).mono (by simp) (fun _ => le_rfl) (fun _ _ => rfl)
  · by_cases ht : t = thread
    · subst ht
      simp [State.goto, Local.pending] at hx
    · simp only [State.goto, Function.update_of_ne ht] at hx
      intro hmem
      have hnew := hs.pending_new t x hx
      rw [hperm.mem_iff, List.mem_append, not_or] at hnew
      rcases List.mem_append.mp (hperm'.subset hmem) with h | h
      · rcases hown x h with h | h
        · exact hnew.1 h
        · exact ht (hs.pending_one t thread x hx h)
      · exact hnew.2 h
  · by_cases ht : t = thread
    · subst ht
      simp [State.goto, Local.pending] at hx
    · by_cases hu : u = thread
      · subst hu
        simp [State.goto, Local.pending] at hx'
      · simp only [State.goto, Function.update_of_ne ht, Function.update_of_ne hu] at hx hx'
        exact hs.pending_one t u x hx hx'

theorem Good.insert (hs : Good s) {thread : ι} (hheap : s.objects[address]? = some heap) (hpend : (s.pc thread).pending = some task)
    (hlow : s.priority task < typemaxUInt16) (hroomy : heap.ntasks ≤ 2 ^ 29) :
    ∃ heap', insertLocked s.priority heap task = .ok heap' ∧
      Good ({ s with objects := s.objects.set address heap', inserted := task :: s.inserted }.goto thread .idle) := by
  have hrep := hs.contents address heap hheap
  have hlen := hrep.ntasks
  obtain ⟨heap', l', hrun, hrep', hperm⟩ := insertLocked_spec hrep hlow (by omega)
  obtain rfl := hrep'.stored
  refine ⟨heap', hrun, hs.replace thread hheap hrep' ?_ (fun x hx => ?_) fun others hothers => ⟨?_, fun x => ?_⟩⟩
  · rw [hrep'.ntasks, hperm.length_eq, List.length_cons]
    omega
  · rcases List.mem_cons.mp (hperm.subset hx) with rfl | h
    · exact .inr hpend
    · exact .inl h
  · have hnew := hs.pending_new thread task hpend
    rw [(hperm.append_right others).nodup_iff, List.cons_append, List.nodup_cons, ← hothers.mem_iff,
      ← hothers.nodup_iff]
    exact ⟨hnew, hs.once⟩
  · rw [(hperm.append_right others).count_eq, List.cons_append, List.count_cons, List.count_cons, ← hothers.count_eq,
      hs.balance x]
    omega

theorem Good.delete (hs : Good s) (thread : ι) (hheap : s.objects[address]? = some heap) (hlow : heap.priority < typemaxUInt16)
    {stack : ℕ} (hstack : 2 ^ 29 ≤ leftmost 0 stack) :
    ∃ root, getTask heap.tasks 0 = .ok root ∧ root ∈ heap.stored ∧
      (∀ other ∈ heap.stored, s.priority root ≤ s.priority other) ∧
      ∃ heap', deleteLocked s.priority (stack + 1) heap = .ok heap' ∧ ((s.pc thread).pending = none →
        Good ({ s with objects := s.objects.set address heap', returned := root :: s.returned }.goto thread .idle)) := by
  have hrep := hs.contents address heap hheap
  cases hl : heap.stored with
  | nil =>
      have := hrep.published
      rw [hl] at this
      exact absurd hlow (by rw [this]; exact lt_irrefl _)
  | cons root rest =>
      have hsize := hs.small address heap hheap
      rw [hrep.ntasks, hl, List.length_cons] at hsize
      rw [hl] at hrep
      obtain ⟨k, hk⟩ := hrep.tasks
      obtain ⟨heap', l', hrun, hrep', hperm⟩ := deleteLocked_spec hrep (by omega) hstack
      obtain rfl := hrep'.stored
      refine ⟨root, by rw [hk, getTask_slots (by simp)]; rfl, by simp, fun other => root_least hrep.ordered, heap', hrun,
        fun hpend => hs.replace thread hheap hrep' ?_ (fun x hx => ?_) fun others hothers => ?_⟩
      · rw [hrep'.ntasks, hperm.length_eq]
        omega
      · rw [hl]
        exact .inl (List.mem_cons_of_mem _ (hperm.subset hx))
      · rw [hl, List.cons_append] at hothers
        have hnodup := hothers.nodup_iff.mp hs.once
        refine ⟨(hperm.append_right others).nodup_iff.mpr (List.nodup_cons.mp hnodup).2, fun x => ?_⟩
        rw [(hperm.append_right others).count_eq, List.count_cons, hs.balance x, hothers.count_eq, List.count_cons]
        omega

end Replace

end Joolia.Partr
