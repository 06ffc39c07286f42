import Joolia.Base.Partr.Sections

namespace Joolia.Partr

open Fallible

variable {ι τ : Type} {s : State ι τ}

def Addresses (s : State ι τ) (tpheaps : List ℕ) : Prop := ∀ address ∈ tpheaps, address < s.objects.length

-- What a thread knows of the rest between its steps.
def LocalOk (s : State ι τ) : Local τ → Prop
  | .idle => True
  | .entering _ priority _ => priority < typemaxUInt16
  | .growing _ priority _ => priority < typemaxUInt16
  | .sized _ priority tpid heapP => priority < typemaxUInt16 ∧ 0 < heapP ∧ heapP ≤ (s.heaps tpid).length
  | .choosing task heapP tpheaps =>
    s.priority task < typemaxUInt16 ∧ 0 < heapP ∧ heapP ≤ tpheaps.length ∧ Addresses s tpheaps
  | .deleting _ => True
  | .scanning tpheaps i => i ≤ tpheaps.length ∧ Addresses s tpheaps
  | .peeking tpheaps i rn1 rn2 prio1 =>
    i < tpheaps.length ∧ rn1 < tpheaps.length ∧ rn2 < tpheaps.length ∧ prio1 ≤ typemaxUInt16 ∧ Addresses s tpheaps
  | .locking tpheaps i rn1 prio1 =>
    i < tpheaps.length ∧ rn1 < tpheaps.length ∧ prio1 < typemaxUInt16 ∧ Addresses s tpheaps

-- What a thread knows survives when the heaps only become more and its task keeps its priority.
theorem LocalOk.mono {s' : State ι τ} {pc : Local τ} (hok : LocalOk s pc)
    (hobj : s.objects.length ≤ s'.objects.length) (hheaps : ∀ tp, (s.heaps tp).length ≤ (s'.heaps tp).length)
    (hprio : ∀ task, pc.pending = some task → s'.priority task = s.priority task) : LocalOk s' pc := by
  have haddr : ∀ tpheaps, Addresses s tpheaps → Addresses s' tpheaps :=
    fun tpheaps h address hmem => (h address hmem).trans_le hobj
  cases pc with
  | idle => trivial
  | entering task priority tpid => exact hok
  | growing task priority tpid => exact hok
  | sized task priority tpid heapP => exact ⟨hok.1, hok.2.1, hok.2.2.trans (hheaps tpid)⟩
  | choosing task heapP tpheaps =>
      obtain ⟨hlow, hpos, hle, ha⟩ := hok
      refine ⟨?_, hpos, hle, haddr _ ha⟩
      rw [hprio task rfl]
      exact hlow
  | deleting tp => trivial
  | scanning tpheaps i => exact ⟨hok.1, haddr _ hok.2⟩
  | peeking tpheaps i rn1 rn2 prio1 =>
      obtain ⟨hi, h1, h2, hle, ha⟩ := hok
      exact ⟨hi, h1, h2, hle, haddr _ ha⟩
  | locking tpheaps i rn1 prio1 =>
      obtain ⟨hi, h1, hle, ha⟩ := hok
      exact ⟨hi, h1, hle, haddr _ ha⟩

-- What holds between the steps of any run.
structure Good [DecidableEq τ] (s : State ι τ) : Prop where
  contents : ∀ (address : ℕ) (heap : TaskHeap τ), s.objects[address]? = some heap → Represents s.priority heap heap.stored
  small : ∀ (address : ℕ) (heap : TaskHeap τ), s.objects[address]? = some heap → heap.ntasks ≤ 2 ^ 29 + 1
  addresses : (s.heaps 0 ++ s.heaps 1).Perm (List.range s.objects.length)
  short : ∀ tp, (s.heaps tp).length < 2 ^ 17
  balance : ∀ task, s.inserted.count task = s.returned.count task + s.stored.count task
  once : s.stored.Nodup
  locals : ∀ thread, LocalOk s (s.pc thread)
  pending_new : ∀ thread task, (s.pc thread).pending = some task → task ∉ s.stored
  pending_one : ∀ thread other task, (s.pc thread).pending = some task → (s.pc other).pending = some task →
    thread = other

section Facts

variable [DecidableEq τ]

theorem Good.nodup (hs : Good s) : (s.heaps 0 ++ s.heaps 1).Nodup :=
  hs.addresses.nodup_iff.mpr List.nodup_range

theorem Good.mem_heaps (hs : Good s) {address : ℕ} : address ∈ s.heaps 0 ++ s.heaps 1 ↔ address < s.objects.length := by
  rw [hs.addresses.mem_iff, List.mem_range]

theorem Good.mem_stored (hs : Good s) {address : ℕ} {heap : TaskHeap τ} (hheap : s.objects[address]? = some heap)
    {task : τ} (ht : task ∈ heap.stored) : task ∈ s.stored := by
  rw [State.stored, List.mem_flatMap]
  refine ⟨address, hs.mem_heaps.mpr (List.getElem?_eq_some_iff.mp hheap).1, ?_⟩
  rw [State.heapStored, hheap]
  exact ht

theorem Good.addresses_heaps (hs : Good s) (tp : Fin 2) : Addresses s (s.heaps tp) := by
  intro address hmem
  rw [← hs.mem_heaps, List.mem_append]
  match tp with
  | 0 => exact .inl hmem
  | 1 => exact .inr hmem

omit [DecidableEq τ] in
theorem heapAt_eq_ok {tpheaps : List ℕ} {rn : ℕ} {address : ℕ} {heap : TaskHeap τ}
    (h : heapAt s tpheaps rn = .ok (address, heap)) : tpheaps[rn]? = some address ∧ s.objects[address]? = some heap := by
  unfold heapAt at h
  split at h
  · cases h
  · split at h
    · cases h
    · cases h
      exact ⟨by assumption, by assumption⟩

omit [DecidableEq τ] in
theorem exists_heapAt {tpheaps : List ℕ} {rn : ℕ} (hrn : rn < tpheaps.length) (haddr : Addresses s tpheaps) :
    ∃ address heap, heapAt s tpheaps rn = .ok (address, heap) := by
  have hlt := haddr _ (List.getElem_mem hrn)
  refine ⟨tpheaps[rn], s.objects[tpheaps[rn]], ?_⟩
  simp [heapAt, hrn, hlt]

-- The numbers drawn are in range.
theorem cong_lt (seed : ℕ) {max : ℕ} (hmax : 0 < max) : cong seed max < max := by
  rw [cong, if_neg hmax.ne', randPtls, randUniformMaxInt32]
  split
  · omega
  · dsimp only
    rw [Nat.shiftRight_eq_div_pow, Nat.div_lt_iff_lt_mul (by decide)]
    exact Nat.mul_lt_mul_of_pos_left (Nat.mod_lt _ (by decide)) hmax

-- A priority that is published marks a heap as empty or is below that mark.
theorem Good.published_le (hs : Good s) {address : ℕ} {heap : TaskHeap τ} (hheap : s.objects[address]? = some heap) :
    heap.priority ≤ typemaxUInt16 := by
  have hrep := hs.contents address heap hheap
  rw [hrep.published]
  cases hl : heap.stored with
  | nil => exact le_rfl
  | cons root rest =>
      rw [hl] at hrep
      exact (hrep.low root (by simp)).le

end Facts

section Moves

variable [DecidableEq ι] [DecidableEq τ]

-- A thread goes on without touching anything shared.
theorem Good.goto (hs : Good s) (thread : ι) {pc : Local τ} (hok : LocalOk s pc)
    (hpend : ∀ task, pc.pending = some task →
      task ∉ s.stored ∧ ∀ other, other ≠ thread → (s.pc other).pending ≠ some task) :
    Good (s.goto thread pc) := by
  refine ⟨hs.contents, hs.small, hs.addresses, hs.short, hs.balance, hs.once, fun t => ?_, fun t task h => ?_,
    fun t u task h h' => ?_⟩
  · by_cases ht : t = thread
    · subst ht
      simp only [State.goto, Function.update_self]
      exact hok.mono le_rfl (fun _ => le_rfl) (fun _ _ => rfl)
    · simp only [State.goto, Function.update_of_ne ht]
      exact (hs.locals t).mono le_rfl (fun _ => le_rfl) (fun _ _ => rfl)
  · by_cases ht : t = thread
    · subst ht
      exact (hpend task (by simpa [State.goto] using h)).1
    · simp only [State.goto, Function.update_of_ne ht] at h
      exact hs.pending_new t task h
  · simp only [State.goto] at h h'
    by_cases ht : t = thread
    · by_cases hu : u = thread
      · rw [ht, hu]
      · rw [ht, Function.update_self] at h
        rw [Function.update_of_ne hu] at h'
        exact absurd h' ((hpend task h).2 u hu)
    · rw [Function.update_of_ne ht] at h
      by_cases hu : u = thread
      · rw [hu, Function.update_self] at h'
        exact absurd h ((hpend task h').2 t ht)
      · rw [Function.update_of_ne hu] at h'
        exact hs.pending_one t u task h h'

-- It inserts nothing, or still the same task.
theorem Good.goto_none (hs : Good s) (thread : ι) {pc : Local τ} (hok : LocalOk s pc) (hpend : pc.pending = none) :
    Good (s.goto thread pc) :=
  hs.goto thread hok fun task h => by simp [hpend] at h

theorem Good.goto_same (hs : Good s) (thread : ι) {pc : Local τ} (hok : LocalOk s pc)
    (hpend : pc.pending = (s.pc thread).pending) : Good (s.goto thread pc) :=
  hs.goto thread hok fun task h =>
    ⟨hs.pending_new thread task (hpend ▸ h),
      fun other hne h' => hne (hs.pending_one other thread task h' (hpend ▸ h))⟩

end Moves

end Joolia.Partr
