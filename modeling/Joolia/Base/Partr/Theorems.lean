import Joolia.Base.Partr.Steps

namespace Joolia.Partr

open Fallible

variable {ι τ : Type} [DecidableEq ι] [DecidableEq τ] {s : State ι τ}

omit [DecidableEq ι] in
theorem good_initial : Good (initial : State ι τ) :=
  ⟨by simp [initial], by simp [initial], by simp [initial], by simp [initial], by simp [initial, State.stored],
    by simp [initial, State.stored], by simp [initial, LocalOk], by simp [initial, Local.pending],
    by simp [initial, Local.pending]⟩

section Advance

variable {thread : ι} {choice : Choice} {stack : ℕ}

theorem advance_entering (hs : Good s) (hnt : choice.nthreads < 2 ^ 15) {task : τ} {priority : ℕ} {tpid : Fin 2}
    (hpc : s.pc thread = .entering task priority tpid) : ∃ s', advance stack s thread choice = .ok s' ∧ Good s' := by
  have hok := hs.locals thread
  rw [hpc] at hok
  obtain ⟨hpos, -⟩ := heapC_mul hnt
  rw [advance, hpc]
  dsimp only
  by_cases henough : u32 (heapC * atLeastOne choice.nthreads) ≤ (s.heaps tpid).length
  · rw [if_pos henough]
    exact ⟨_, rfl, hs.goto_same thread ⟨hok, by omega, le_rfl⟩ (by rw [hpc]; rfl)⟩
  · rw [if_neg henough]
    exact ⟨_, rfl, hs.goto_same thread hok (by rw [hpc]; rfl)⟩

theorem advance_growing (hs : Good s) (hnt : choice.nthreads < 2 ^ 15) {task : τ} {priority : ℕ} {tpid : Fin 2}
    (hpc : s.pc thread = .growing task priority tpid) : ∃ s', advance stack s thread choice = .ok s' ∧ Good s' := by
  have hok := hs.locals thread
  rw [hpc] at hok
  obtain ⟨hgood, hpos, hle, hsame⟩ := growLocked_spec hs tpid hnt
  rw [advance, hpc]
  exact ⟨_, rfl, hgood.goto_same thread ⟨hok, hpos, hle⟩ (by rw [hsame, hpc]; rfl)⟩

theorem advance_sized (hs : Good s) {task : τ} {priority heapP : ℕ} {tpid : Fin 2}
    (hpc : s.pc thread = .sized task priority tpid heapP) : ∃ s', advance stack s thread choice = .ok s' ∧ Good s' := by
  have hok := hs.locals thread
  rw [hpc] at hok
  obtain ⟨hlow, hpos, hle⟩ := hok
  rw [advance, hpc]
  exact ⟨_, rfl, hs.setPriority (by rw [hpc]; rfl) ⟨hlow, hpos, hle, hs.addresses_heaps tpid⟩⟩

theorem advance_choosing (hs : Good s) {task : τ} {heapP : ℕ} {tpheaps : List ℕ}
    (hpc : s.pc thread = .choosing task heapP tpheaps) (hroomy : Roomy s (.advance thread choice)) :
    ∃ s', advance stack s thread choice = .ok s' ∧ Good s' := by
  have hok := hs.locals thread
  rw [hpc] at hok
  obtain ⟨hlow, hpos, hle, haddr⟩ := hok
  obtain ⟨address, heap, hat⟩ := exists_heapAt ((cong_lt choice.seed1 hpos).trans_le hle) haddr
  rw [advance, hpc]
  simp only [hat, ok_bind]
  by_cases hfree : choice.free
  · simp only [Roomy, hpc] at hroomy
    obtain ⟨heap', hrun, hgood⟩ := hs.insert (heapAt_eq_ok hat).2
      (show (s.pc thread).pending = some task by rw [hpc]; rfl) hlow
      (hroomy hfree address heap hat)
    rw [if_pos hfree, hrun]
    exact ⟨_, rfl, hgood⟩
  · rw [if_neg hfree]
    exact ⟨s, rfl, hs⟩

theorem advance_scanning (hs : Good s) {tpheaps : List ℕ} {i : ℕ} (hpc : s.pc thread = .scanning tpheaps i) :
    ∃ s', advance stack s thread choice = .ok s' ∧ Good s' := by
  have hok := hs.locals thread
  rw [hpc] at hok
  obtain ⟨hi, haddr⟩ := hok
  rw [advance, hpc]
  dsimp only
  by_cases hend : i = tpheaps.length
  · rw [if_pos hend]
    exact ⟨_, rfl, hs.goto_none thread trivial rfl⟩
  · have hpos : 0 < tpheaps.length := by omega
    obtain ⟨address, heap, hat⟩ := exists_heapAt (cong_lt choice.seed1 hpos) haddr
    rw [if_neg hend]
    simp only [hat, ok_bind]
    exact ⟨_, rfl, hs.goto_none thread ⟨by omega, cong_lt _ hpos, cong_lt _ hpos,
      hs.published_le (heapAt_eq_ok hat).2, haddr⟩ rfl⟩

theorem advance_peeking (hs : Good s) {tpheaps : List ℕ} {i rn1 rn2 prio1 : ℕ}
    (hpc : s.pc thread = .peeking tpheaps i rn1 rn2 prio1) : ∃ s', advance stack s thread choice = .ok s' ∧ Good s' := by
  have hok := hs.locals thread
  rw [hpc] at hok
  obtain ⟨hi, h1, h2, hprio, haddr⟩ := hok
  obtain ⟨address, heap, hat⟩ := exists_heapAt h2 haddr
  have hle := hs.published_le (heapAt_eq_ok hat).2
  rw [advance, hpc]
  simp only [hat, ok_bind]
  by_cases hgt : prio1 > heap.priority
  · rw [if_pos hgt]
    exact ⟨_, rfl, hs.goto_none thread ⟨hi, h2, by omega, haddr⟩ rfl⟩
  · rw [if_neg hgt]
    by_cases hboth : prio1 = heap.priority ∧ prio1 = typemaxUInt16
    · rw [if_pos hboth]
      exact ⟨_, rfl, hs.goto_none thread ⟨by omega, haddr⟩ rfl⟩
    · rw [if_neg hboth]
      exact ⟨_, rfl, hs.goto_none thread ⟨hi, h1, by omega, haddr⟩ rfl⟩

-- The step that may take a task: it is one of least priority in the heap that was locked.
theorem advance_locking (choice : Choice) (hs : Good s) (hstack : 2 ^ 29 ≤ leftmost 0 stack) {tpheaps : List ℕ} {i rn1 prio1 : ℕ}
    (hpc : s.pc thread = .locking tpheaps i rn1 prio1) :
    ∃ s' address heap, advance (stack + 1) s thread choice = .ok s' ∧ Good s' ∧
      heapAt s tpheaps rn1 = .ok (address, heap) ∧ (s'.returned = s.returned ∨ ∃ task, s'.returned = task :: s.returned ∧
        task ∈ heap.stored ∧ ∀ other ∈ heap.stored, s.priority task ≤ s.priority other) := by
  have hok := hs.locals thread
  rw [hpc] at hok
  obtain ⟨hi, h1, hprio, haddr⟩ := hok
  obtain ⟨address, heap, hat⟩ := exists_heapAt h1 haddr
  rw [advance, hpc]
  simp only [hat, ok_bind]
  by_cases hlock : choice.free ∧ prio1 = heap.priority
  · obtain ⟨root, hroot, hmem, hleast, heap', hrun, hgood⟩ := hs.delete thread (heapAt_eq_ok hat).2
      (by rw [← hlock.2]; exact hprio) hstack
    rw [if_pos hlock, hroot, ok_bind]
    by_cases hsticky : choice.sticky
    · rw [if_pos hsticky]
      exact ⟨_, address, heap, rfl, hs.goto_none thread ⟨Nat.zero_le _, haddr⟩ rfl, rfl, .inl rfl⟩
    · rw [if_neg hsticky, hrun, ok_bind]
      exact ⟨_, address, heap, rfl, hgood (by rw [hpc]; rfl), rfl, .inr ⟨root, rfl, hmem, hleast⟩⟩
  · rw [if_neg hlock]
    exact ⟨_, address, heap, rfl, hs.goto_none thread ⟨by omega, haddr⟩ rfl, rfl, .inl rfl⟩

-- Only the step that takes a task returns one.
theorem returned_of_not_locking (hpc : ∀ tpheaps i rn1 prio1, s.pc thread ≠ .locking tpheaps i rn1 prio1) {s' : State ι τ}
    (h : advance stack s thread choice = .ok s') : s'.returned = s.returned := by
  unfold advance at h
  split at h
  case h_10 hlock => exact absurd hlock (hpc _ _ _ _)
  case h_1 => cases h; rfl
  case h_2 =>
      dsimp only at h
      split at h <;> cases h <;> rfl
  case h_3 =>
      unfold growLocked at h
      dsimp only at h
      split at h <;> cases h <;> rfl
  case h_4 => cases h; rfl
  case h_5 =>
      obtain ⟨⟨address, heap⟩, -, h⟩ := bind_eq_ok.mp h
      dsimp only at h
      split at h
      · obtain ⟨heap', -, h⟩ := bind_eq_ok.mp h
        cases h
        rfl
      · cases h
        rfl
  case h_6 => cases h; rfl
  case h_7 => cases h; rfl
  case h_8 =>
      dsimp only at h
      split at h
      · cases h
        rfl
      · obtain ⟨_, -, h⟩ := bind_eq_ok.mp h
        cases h
        rfl
  case h_9 =>
      obtain ⟨_, -, h⟩ := bind_eq_ok.mp h
      dsimp only at h
      split at h
      · cases h
        rfl
      · split at h <;> cases h <;> rfl

theorem advance_good (hs : Good s) (hnt : choice.nthreads < 2 ^ 15) (hroomy : Roomy s (.advance thread choice))
    (hstack : 2 ^ 29 ≤ leftmost 0 stack) : ∃ s', advance (stack + 1) s thread choice = .ok s' ∧ Good s' := by
  cases hpc : s.pc thread with
  | idle => exact ⟨s, by rw [advance, hpc], hs⟩
  | entering task priority tpid => exact advance_entering hs hnt hpc
  | growing task priority tpid => exact advance_growing hs hnt hpc
  | sized task priority tpid heapP => exact advance_sized hs hpc
  | choosing task heapP tpheaps => exact advance_choosing hs hpc hroomy
  | deleting tp =>
      cases tp with
      | none =>
          rw [advance, hpc]
          exact ⟨_, rfl, hs.goto_none thread trivial rfl⟩
      | some tp =>
          rw [advance, hpc]
          exact ⟨_, rfl, hs.goto_none thread ⟨Nat.zero_le _, hs.addresses_heaps tp⟩ rfl⟩
  | scanning tpheaps i => exact advance_scanning hs hpc
  | peeking tpheaps i rn1 rn2 prio1 => exact advance_peeking hs hpc
  | locking tpheaps i rn1 prio1 =>
      obtain ⟨s', -, -, hrun, hgood, -⟩ := advance_locking choice hs hstack hpc
      exact ⟨s', hrun, hgood⟩

end Advance

section Runs

variable {stack : ℕ}

theorem step_good (hs : Good s) (hstack : 2 ^ 29 ≤ leftmost 0 stack) {event : Event ι τ} (hallowed : Allowed s event)
    (hroomy : Roomy s event) : ∃ s', step (stack + 1) s event = .ok s' ∧ Good s' := by
  cases event with
  | callInsert thread task priority tpid =>
      obtain ⟨-, hlow, hnew, hother⟩ := hallowed
      refine ⟨_, rfl, hs.goto thread hlow fun x hx => ?_⟩
      obtain rfl : task = x := by simpa [Local.pending] using hx
      exact ⟨hnew, fun other _ => hother other⟩
  | callDeletemin thread tp => exact ⟨_, rfl, hs.goto_none thread trivial rfl⟩
  | advance thread choice => exact advance_good hs hallowed hroomy hstack

theorem Good.keeps (hs : Good s) (hstack : 2 ^ 29 ≤ leftmost 0 stack) : Keeps (stack + 1) Roomy s := by
  refine ⟨fun event hallowed hroomy => ?_, hs.balance, hs.once, hs.nodup, fun address hmem => ?_,
    fun thread choice s' task hstep hret => ?_⟩
  · obtain ⟨s', hrun, -⟩ := step_good hs hstack hallowed hroomy
    exact ⟨s', hrun⟩
  · have hlt := hs.mem_heaps.mp hmem
    have hheap := List.getElem?_eq_getElem hlt
    exact ⟨_, hheap, (hs.contents address _ hheap).valid⟩
  · have hne : s'.returned ≠ s.returned := by
      rw [hret]
      exact fun h => absurd (congrArg List.length h) (by simp)
    by_cases hpc : ∃ tpheaps i rn1 prio1, s.pc thread = .locking tpheaps i rn1 prio1
    · obtain ⟨tpheaps, i, rn1, prio1, hpc⟩ := hpc
      obtain ⟨s'', address, heap, hrun, -, hat, hleast⟩ := advance_locking choice hs hstack hpc
      obtain rfl : s'' = s' := by simpa using hrun.symm.trans hstep
      rcases hleast with hsame | ⟨task', hret', hmem, hleast⟩
      · exact absurd hsame hne
      · obtain rfl : task' = task := by simpa using hret'.symm.trans hret
        exact ⟨tpheaps, i, rn1, prio1, address, heap, hpc, hat, hmem, hleast⟩
    · exact absurd (returned_of_not_locking (fun _ _ _ _ h => hpc ⟨_, _, _, _, h⟩) hstep) hne

theorem Reachable.good (hstack : 2 ^ 29 ≤ leftmost 0 stack) (hs : Reachable (stack + 1) Roomy s) : Good s := by
  induction hs with
  | initial => exact good_initial
  | step _ hallowed hroomy hstep ih =>
      obtain ⟨s', hrun, hgood⟩ := step_good ih hstack hallowed hroomy
      rw [hrun] at hstep
      cases hstep
      exact hgood

end Runs

-- With room for twelve nested calls: the queue keeps its tasks in all states that runs reach in which every insertion
-- finds at most `2 ^ 29` tasks in the heap it locks.
theorem multiqueue_keeps_tasks {stack : ℕ} (hstack : 12 ≤ stack) (hs : Reachable stack Roomy s) : Keeps stack Roomy s := by
  obtain ⟨depth, rfl⟩ := Nat.exists_eq_add_of_le' (Nat.one_le_of_lt hstack)
  have hdeep : 2 ^ 29 ≤ leftmost 0 depth := by
    have hmono : Monotone (leftmost 0) := monotone_nat_of_le_succ fun k => leftmost_succ_le k
    have h11 : 2 ^ 29 ≤ leftmost 0 11 := by decide
    exact h11.trans (hmono (by omega))
  exact (hs.good hdeep).keeps hdeep

set_option maxRecDepth 4000 in
theorem multiqueue_keeps_tasks_single : ∃ s : State Unit ℕ, s.inserted = [7] ∧ Keeps 12 Roomy s := by
  have hpick : ∀ s : State Unit ℕ, Allowed s (.advance () ⟨1, 0, 0, true, false⟩) := fun _ => by show 1 < 2 ^ 15; decide
  have h0 : Reachable 12 Roomy (initial : State Unit ℕ) := .initial
  have h1 := h0.step (show Allowed initial (.callInsert () 7 3 0) from
    ⟨rfl, by decide, by simp [initial, State.stored], by simp [initial, Local.pending]⟩) trivial rfl
  have h2 := h1.step (hpick _) trivial rfl
  have h3 := h2.step (hpick _) trivial rfl
  have h4 := h3.step (hpick _) trivial rfl
  have h5 := h4.step (hpick _) (fun _ address heap h => by cases h; exact Nat.zero_le _) rfl
  exact ⟨_, rfl, multiqueue_keeps_tasks (by decide) h5⟩

end Joolia.Partr
