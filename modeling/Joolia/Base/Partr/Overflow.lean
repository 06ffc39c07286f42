import Joolia.Base.Partr.Sections

namespace Joolia.Partr

open Fallible DaryHeap

section Cycle

-- A way down to position `2 ^ 29`, whose children the code looks for at `1, ..., 8`.
def path : List ℕ := [0, 3, 31, 255, 2047, 16383, 131071, 1048575, 8388607, 67108863, 536870912]

theorem path_continues : ∀ p ∈ path, ∃ before q after, children p = before ++ q :: after ∧ q ∈ path ∧ q ≠ p ∧
    ∀ c ∈ before, c ∉ path ∧ c < 2 ^ 29 := by
  have hcheck : ∀ p ∈ path, ∃ q ∈ path, q ≠ p ∧
      children p = (children p).takeWhile (· ∉ path) ++ q :: ((children p).dropWhile (· ∉ path)).tail ∧
      ∀ c ∈ (children p).takeWhile (· ∉ path), c ∉ path ∧ c < 2 ^ 29 := by decide
  intro p hp
  obtain ⟨q, hq, hne, hch, hbefore⟩ := hcheck p hp
  exact ⟨_, q, _, hch, hq, hne, hbefore⟩

theorem path_lt : ∀ p ∈ path, p < 2 ^ 29 + 1 := by decide

variable {priority : ℕ → ℕ} {l : List ℕ} {k p : ℕ}

-- The sinking task is at `p`, and everything else on the way is less.
structure OnPath (priority : ℕ → ℕ) (l : List ℕ) (p : ℕ) : Prop where
  length : l.length = 2 ^ 29 + 1
  mem : p ∈ path
  self : keyAt priority l p = 3
  rest : ∀ q ∈ path, q ≠ p → keyAt priority l q = 2
  other : ∀ i, i < 2 ^ 29 + 1 → i ∉ path → keyAt priority l i = 3

theorem OnPath.exchange (h : OnPath priority l p) {q : ℕ} (hq : q ∈ path) (hne : q ≠ p) :
    OnPath priority (exchange l p q) q := by
  have hpl : p < l.length := h.length ▸ path_lt p h.mem
  have hql : q < l.length := h.length ▸ path_lt q hq
  refine ⟨by rw [length_exchange, h.length], hq, ?_, fun r hr hrq => ?_, fun i hi hip => ?_⟩
  · rw [keyAt_exchange hpl hql, swapped_right, h.self]
  · rw [keyAt_exchange hpl hql]
    by_cases hrp : r = p
    · rw [hrp, swapped_left, h.rest q hq hne]
    · rw [swapped_of_ne hrp hrq, h.rest r hr hrp]
  · rw [keyAt_exchange hpl hql, swapped_of_ne (by rintro rfl; exact hip h.mem) (by rintro rfl; exact hip hq),
      h.other i hi hip]

-- Children that are not less are passed.
theorem siftDownLoop_skip {n : ℕ} {siftDown : List (Option ℕ) → ℕ → Except Failure (List (Option ℕ))}
    (hn : l.length = n) (hp : p < n) {before : List ℕ} (hbefore : ∀ c ∈ before, c < n ∧ keyAt priority l p ≤ keyAt priority l c)
    (after : List ℕ) : siftDownLoop priority n p siftDown (before ++ after) (slots l k)
      = siftDownLoop priority n p siftDown after (slots l k) := by
  induction before with
  | nil => rfl
  | cons c before ih =>
      obtain ⟨hc, hle⟩ := hbefore c (by simp)
      have hcl : c < l.length := by omega
      have hpl : p < l.length := by omega
      rw [keyAt_eq hcl, keyAt_eq hpl] at hle
      rw [List.cons_append, siftDownLoop, if_neg (by omega), if_pos (isassigned_slots hcl)]
      simp only [getTask_slots hcl, getTask_slots hpl, ok_bind]
      rw [if_neg (by omega)]
      exact ih fun c' hc' => hbefore c' (by simp [hc'])

-- The recursion does not end: from `2 ^ 29` it goes back to `3`.
theorem multiqSiftDown_overflows (stack : ℕ) (h : OnPath priority l p) :
    multiqSiftDown priority (2 ^ 29 + 1) stack (slots l k) p = .error .stackOverflow := by
  induction stack generalizing l p with
  | zero => rfl
  | succ stack ih =>
      obtain ⟨before, q, after, hch, hq, hne, hbefore⟩ := path_continues p h.mem
      have hp := path_lt p h.mem
      have hql := path_lt q hq
      have hpl : p < l.length := h.length ▸ hp
      have hqlen : q < l.length := h.length ▸ hql
      have hlt : priority l[q] < priority l[p] := by
        have hkp := h.self
        have hkq := h.rest q hq hne
        rw [keyAt_eq hpl] at hkp
        rw [keyAt_eq hqlen] at hkq
        omega
      rw [multiqSiftDown, if_pos hp, hch, siftDownLoop_skip h.length hp]
      · rw [siftDownLoop, if_neg (by omega), if_pos (isassigned_slots hqlen)]
        simp only [getTask_slots hqlen, getTask_slots hpl, ok_bind]
        have hset := setTask_exchange (k := k) hpl hqlen
        rw [if_pos hlt, ← bind_assoc, hset, ok_bind, ih (h.exchange hq hne), error_bind]
      · intro c hc
        obtain ⟨hcp, hcl⟩ := hbefore c hc
        refine ⟨by omega, ?_⟩
        rw [h.self, h.other c (by omega) hcp]

end Cycle

section Run

def wayPriority (i : ℕ) : ℕ := if i = 0 then 0 else if i ∈ path then 2 else 3

theorem wayPriority_parent {i : ℕ} (hi : 0 < i) : wayPriority ((i - 1) / 8) ≤ wayPriority i := by
  have hle : ∀ j, wayPriority j ≤ 3 := by
    intro j
    unfold wayPriority
    split <;> [omega; split <;> omega]
  by_cases hmem : i ∈ path
  · have hall : ∀ j ∈ path, j ≠ 0 → wayPriority ((j - 1) / 8) ≤ wayPriority j := by decide
    exact hall i hmem hi.ne'
  · rw [show wayPriority i = 3 by simp [wayPriority, hi.ne', hmem]]
    exact hle _

theorem siftUpLoop_stay {priority : ℕ → ℕ} {l : List ℕ} {k i : ℕ} (count : ℕ) (hi : i < l.length)
    (hle : 0 < i → keyAt priority l ((i - 1) / heapD) ≤ keyAt priority l i) :
    siftUpLoop priority count (slots l k) i = .ok (slots l k) := by
  cases count with
  | zero => rfl
  | succ count =>
      by_cases hpos : i > 0
      · have hpl : (i - 1) / heapD < l.length := (parent_lt (d := heapD) hpos).trans hi
        have hkey := hle hpos
        rw [keyAt_eq hi, keyAt_eq hpl] at hkey
        rw [siftUpLoop, if_pos hpos]
        simp only [getTask_slots hi, getTask_slots hpl, ok_bind]
        rw [if_neg (by omega), pure_eq_ok]
      · rw [siftUpLoop, if_neg hpos, pure_eq_ok]

-- The next task stays where it is put.
theorem insertLocked_way {priority : ℕ → ℕ} {n k : ℕ} (published : ℕ) (hroom : 0 < n + k) (hn : n + 1 < 2 ^ 31)
    (hprio : ∀ i < n + 1, priority i = wayPriority i) :
    ∃ k', insertLocked priority ⟨slots (List.range n) k, n, published⟩ n
      = .ok ⟨slots (List.range (n + 1)) k', n + 1, if priority n < published then priority n else published⟩ := by
  obtain ⟨k', hk'⟩ := slots_resized (l := List.range n) (k := k) (by simpa using hroom)
  simp only [List.length_range] at hk'
  have hkey : ∀ i < n + 1, keyAt priority (List.range (n + 1)) i = wayPriority i := by
    intro i hi
    rw [keyAt_eq (by simpa using hi), List.getElem_range, hprio i hi]
  have hstay : siftUpLoop priority n (slots (List.range (n + 1)) k') n = .ok (slots (List.range (n + 1)) k') := by
    refine siftUpLoop_stay n (by simp) fun hpos => ?_
    rw [hkey n (by omega), hkey _ (by have := parent_lt (d := heapD) hpos; exact this.trans (by omega))]
    exact wayPriority_parent hpos
  have hset := setTask_slots_last (List.range n) n k'
  rw [List.length_range, ← List.range_succ] at hset
  refine ⟨k', ?_⟩
  rw [insertLocked]
  simp only [hk', Nat.add_sub_cancel, if_neg (Nat.not_le.mpr hn), pure_eq_ok, ok_bind, hset, multiqSiftUp, hstay]

-- The tasks `0, ..., n - 1` have been inserted into the first of two heaps.
structure Filled (n : ℕ) (s : State Unit ℕ) : Prop where
  pc : s.pc () = .idle
  first : s.heaps 0 = [0, 1]
  second : s.heaps 1 = []
  objects : ∃ k, s.objects = [⟨slots (List.range n) k, n, 0⟩, taskheap]
  priority : ∀ i < n, s.priority i = wayPriority i

def anyStep (_ : State Unit ℕ) (_ : Event Unit ℕ) : Prop := True

-- One thread in the pool, and the generator draws the first heap.
def firstHeap : Choice := ⟨1, 0, 0, true, false⟩

theorem cong_firstHeap : cong 0 2 = 0 := by decide

variable {stack n : ℕ} {s : State Unit ℕ}

theorem Reachable.advance (hs : Reachable stack anyStep s) {s' : State Unit ℕ} (h : Partr.advance stack s () firstHeap = .ok s') :
    Reachable stack anyStep s' :=
  hs.step (show Allowed s (.advance () firstHeap) by show 1 < 2 ^ 15; decide) trivial h

-- The insertion of the task `n`, from where the size of the pool is known.
theorem fill_sized (hs : Reachable stack anyStep s) (hn : n + 1 < 2 ^ 31) {k : ℕ} (published : ℕ) (hroom : 0 < n + k)
    (hpc : s.pc () = .sized n (wayPriority n) 0 2) (hfirst : s.heaps 0 = [0, 1]) (hsecond : s.heaps 1 = [])
    (hobj : s.objects = [⟨slots (List.range n) k, n, published⟩, taskheap])
    (hprio : ∀ i < n, s.priority i = wayPriority i)
    (hpub : (if wayPriority n < published then wayPriority n else published) = 0) :
    ∃ s', Reachable stack anyStep s' ∧ Filled (n + 1) s' := by
  have hprio' : ∀ i < n + 1, Function.update s.priority n (wayPriority n) i = wayPriority i := by
    intro i hi
    by_cases hin : i = n
    · subst hin
      simp
    · rw [Function.update_of_ne hin]
      exact hprio i (by omega)
  obtain ⟨k', hins⟩ := insertLocked_way published hroom hn hprio'
  rw [Function.update_self, hpub] at hins
  have h1 : Reachable stack anyStep ({ s with priority := Function.update s.priority n (wayPriority n) }.goto ()
      (.choosing n 2 [0, 1])) := hs.advance (by rw [Partr.advance, hpc, ← hfirst])
  have h2 : Reachable stack anyStep ({ s with
      priority := Function.update s.priority n (wayPriority n)
      objects := [⟨slots (List.range (n + 1)) k', n + 1, 0⟩, taskheap]
      pc := Function.update s.pc () (.choosing n 2 [0, 1])
      inserted := n :: s.inserted }.goto () .idle) := h1.advance (by
    simp only [Partr.advance, State.goto, Function.update_self, firstHeap, cong_firstHeap, heapAt, List.getElem?_cons_zero,
      hobj, ok_bind, if_true, hins, List.set_cons_zero, pure_eq_ok])
  exact ⟨_, h2, by simp [State.goto], hfirst, hsecond, ⟨k', rfl⟩, hprio'⟩

theorem fill_one : ∃ s, Reachable stack anyStep s ∧ Filled 1 s := by
  have h1 : Reachable stack anyStep (initial.goto () (.entering 0 (wayPriority 0) 0)) :=
    Reachable.initial.step (show Allowed initial (.callInsert () 0 (wayPriority 0) 0) from
      ⟨rfl, by decide, by simp [initial, State.stored], by simp [initial, Local.pending]⟩) trivial rfl
  have h2 : Reachable stack anyStep ((initial.goto () (.entering 0 (wayPriority 0) 0)).goto ()
      (.growing 0 (wayPriority 0) 0)) := h1.advance rfl
  have h3 : Reachable stack anyStep ((((initial.goto () (.entering 0 (wayPriority 0) 0)).goto ()
      (.growing 0 (wayPriority 0) 0)).addHeaps 0 2).goto () (.sized 0 (wayPriority 0) 0 2)) := h2.advance rfl
  refine fill_sized h3 (by decide) (k := 256) typemaxUInt16 (by decide) (by simp [State.goto]) ?_ rfl ?_
    (fun i hi => absurd hi (Nat.not_lt_zero i)) (by decide)
  · rfl
  · rfl

-- The heaps hold what has been inserted, so that the next number is a new task.
theorem Filled.stored (hf : Filled n s) : s.stored = List.range n := by
  obtain ⟨k, hobj⟩ := hf.objects
  have hslots : (slots (List.range n) k).filterMap id = List.range n := by
    rw [slots, List.filterMap_append, List.filterMap_map]
    simp
  have hempty : (taskheap : TaskHeap ℕ).stored = [] := (represents_taskheap fun _ => 0).stored
  rw [State.stored, hf.first, hf.second]
  simp only [List.append_nil, List.flatMap_cons, List.flatMap_nil, State.heapStored, hobj, List.getElem?_cons_zero,
    List.getElem?_cons_succ, Option.map_some, Option.getD_some, hempty]
  exact hslots

theorem fill_next (hs : Reachable stack anyStep s) (hf : Filled n s) (hpos : 0 < n) (hn : n + 1 < 2 ^ 31) :
    ∃ s', Reachable stack anyStep s' ∧ Filled (n + 1) s' := by
  obtain ⟨k, hobj⟩ := hf.objects
  have hlow : wayPriority n < typemaxUInt16 := by
    unfold wayPriority
    split <;> [decide; split <;> decide]
  have h1 : Reachable stack anyStep (s.goto () (.entering n (wayPriority n) 0)) :=
    hs.step (show Allowed s (.callInsert () n (wayPriority n) 0) from
      ⟨hf.pc, hlow, by simp [hf.stored], by simp [hf.pc, Local.pending]⟩) trivial rfl
  have h2 : Reachable stack anyStep ((s.goto () (.entering n (wayPriority n) 0)).goto ()
      (.sized n (wayPriority n) 0 2)) := h1.advance (by
    have hlen : ((s.goto () (.entering n (wayPriority n) 0)).heaps 0).length = 2 := by simp [State.goto, hf.first]
    rw [Partr.advance, show (s.goto () (.entering n (wayPriority n) 0)).pc () = .entering n (wayPriority n) 0 by simp [State.goto]]
    simp only [hlen]
    rfl)
  exact fill_sized h2 hn 0 (by omega) (by simp [State.goto]) hf.first hf.second hobj hf.priority (by simp)

theorem exists_filled (stack n : ℕ) (hn : n + 1 < 2 ^ 31) : ∃ s, Reachable stack anyStep s ∧ Filled (n + 1) s := by
  induction n with
  | zero => exact fill_one
  | succ n ih =>
      obtain ⟨s, hs, hf⟩ := ih (by omega)
      exact fill_next hs hf (by omega) hn

-- The heap after the root has been taken out of `2 ^ 29 + 2` tasks.
theorem onPath_root {priority : ℕ → ℕ} (hprio : ∀ i < 2 ^ 29 + 1 + 1, priority i = wayPriority i) :
    OnPath priority ((List.range (2 ^ 29 + 1)).set 0 (2 ^ 29 + 1)) 0 := by
  have hkey : ∀ i, 0 < i → i < 2 ^ 29 + 1 →
      keyAt priority ((List.range (2 ^ 29 + 1)).set 0 (2 ^ 29 + 1)) i = wayPriority i := by
    intro i hi hlt
    rw [keyAt, List.getElem?_set_ne (by omega), List.getElem?_range hlt]
    exact hprio i (by omega)
  refine ⟨by rw [List.length_set, List.length_range], by decide, ?_, fun q hq hne => ?_, fun i hi hip => ?_⟩
  · rw [keyAt, List.getElem?_set_self (by rw [List.length_range]; omega), Option.map_some, Option.getD_some,
      hprio _ (by omega)]
    decide
  · rw [hkey q (by omega) (path_lt q hq), wayPriority, if_neg hne, if_pos hq]
  · have hpos : i ≠ 0 := by
      rintro rfl
      exact hip (by decide)
    rw [hkey i (by omega) hi, wayPriority, if_neg hpos, if_neg hip]

-- The section up to its call of `multiq_sift_down`.
theorem deleteLocked_eq {priority : ℕ → ℕ} (hpos : 0 < n) (k published : ℕ) {e : Failure}
    (h : multiqSiftDown priority n stack (slots ((List.range n).set 0 n) (k + 1)) 0 = .error e) :
    deleteLocked priority stack ⟨slots (List.range (n + 1)) k, n + 1, published⟩ = .error e := by
  have hget : getTask (slots (List.range (n + 1)) k) n = .ok n := by
    rw [getTask_slots (by simp), List.getElem_range]
  have hset : setTask (slots (List.range (n + 1)) k) 0 n = .ok (slots ((List.range n).set 0 n ++ [n]) k) := by
    rw [setTask_slots (by simp), List.range_succ, List.set_append_left _ _ (by simpa using hpos)]
  have hunset : (slots ((List.range n).set 0 n ++ [n]) k).set n none = slots ((List.range n).set 0 n) (k + 1) := by
    simpa using slots_unset ((List.range n).set 0 n) n k
  rw [deleteLocked]
  simp only [Nat.add_sub_cancel, hget, ok_bind, hset, hunset, if_pos (by omega : n + 1 > 1), h, error_bind]

-- A deletion in which the sift fails neither returns its task nor unlocks the heap.
theorem not_keeps_of_overflow (hs : Reachable stack anyStep s) (hf : Filled (n + 1) s) (hpos : 0 < n) {e : Failure}
    (hsift : ∀ k, multiqSiftDown s.priority n stack (slots ((List.range n).set 0 n) (k + 1)) 0 = .error e) :
    ∃ s' : State Unit ℕ, Reachable stack anyStep s' ∧ ¬ Keeps stack anyStep s' := by
  obtain ⟨k, hobj⟩ := hf.objects
  have h1 : Reachable stack anyStep (s.goto () (.deleting (some 0))) :=
    hs.step (show Allowed s (.callDeletemin () (some 0)) from hf.pc) trivial rfl
  have h2 : Reachable stack anyStep ((s.goto () (.deleting (some 0))).goto () (.scanning [0, 1] 0)) :=
    h1.advance (by simp only [Partr.advance, State.goto, Function.update_self, hf.first])
  have h3 : Reachable stack anyStep (((s.goto () (.deleting (some 0))).goto () (.scanning [0, 1] 0)).goto ()
      (.peeking [0, 1] 0 0 0 0)) :=
    h2.advance (by simp [Partr.advance, State.goto, firstHeap, cong_firstHeap, heapAt, hobj])
  have h4 : Reachable stack anyStep ((((s.goto () (.deleting (some 0))).goto () (.scanning [0, 1] 0)).goto ()
      (.peeking [0, 1] 0 0 0 0)).goto () (.locking [0, 1] 0 0 0)) :=
    h3.advance (by simp [Partr.advance, State.goto, heapAt, hobj, typemaxUInt16])
  refine ⟨_, h4, fun hkeeps => ?_⟩
  obtain ⟨s', hstep⟩ := hkeeps.unlocks (.advance () firstHeap) (by show 1 < 2 ^ 15; decide) trivial
  have hdel := deleteLocked_eq hpos k 0 (hsift k)
  have hget : getTask (slots (List.range (n + 1)) k) 0 = .ok 0 := by
    rw [getTask_slots (by simp), List.getElem_range]
  simp only [step, Partr.advance, State.goto, Function.update_self, firstHeap, heapAt, List.getElem?_cons_zero, hobj,
    ok_bind, and_self, if_true, hget, Bool.false_eq_true, if_false, hdel, error_bind] at hstep
  cases hstep

-- So it goes after `2 ^ 29 + 2` insertions.
theorem deletion_overflows_the_stack :
    ¬ ∃ stack, ∀ s : State Unit ℕ, Reachable stack anyStep s → Keeps stack anyStep s := by
  rintro ⟨stack, hkeeps⟩
  obtain ⟨s, hs, hf⟩ := exists_filled stack (2 ^ 29 + 1) (by decide)
  obtain ⟨s', hs', hnot⟩ := not_keeps_of_overflow hs hf (Nat.succ_pos _) fun _ =>
    multiqSiftDown_overflows stack (onPath_root hf.priority)
  exact hnot (hkeeps s' hs')

end Run

end Joolia.Partr
