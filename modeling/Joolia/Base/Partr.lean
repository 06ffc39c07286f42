import Joolia.Library.DaryHeap
import Joolia.Library.Fallible
import Mathlib.Logic.Function.Basic
import Mathlib.Algebra.Ring.Nat
import Mathlib.Algebra.Ring.Int.Defs

namespace Joolia.Partr

open Fallible

-- What the accesses to a vector of tasks, or a recursion that does not end, raise.
inductive Failure where
  | bounds
  | undefRef
  | stackOverflow
deriving DecidableEq, Repr

def typemaxUInt16 : ℕ := 65535

-- The value of a `UInt32` expression.
def u32 (n : ℕ) : ℕ := n % 2 ^ 32

-- A task minheap. Slots that hold no task are undefined references. The lock is not a field: a section from `lock` to
-- `unlock` is one step.
structure TaskHeap (τ : Type) where
  tasks : List (Option τ)
  ntasks : ℕ
  priority : ℕ
deriving DecidableEq, Repr

-- `taskheap()`
def taskheap {τ : Type} : TaskHeap τ := ⟨List.replicate 256 none, 0, typemaxUInt16⟩

def heapD : ℕ := 8

section Random

-- The result and the next seed. The product of two words below `2 ^ 32` fits into 64 bits.
def randUniformMaxInt32 (max seed : ℕ) : ℕ × ℕ :=
  if max = 1 then (0, seed)
  else
    let seed := (69069 * seed + 362437) % 2 ^ 64
    let prod := max * (seed % 2 ^ 32)
    (prod >>> 32, seed)

-- The thread's generator is in the state `seed`.
def randPtls (seed max : ℕ) : ℕ := (randUniformMaxInt32 max seed).1

def cong (seed max : ℕ) : ℕ := if max = 0 then 0 else randPtls seed max

end Random

section Heaps

variable {τ : Type}

def getTask (tasks : List (Option τ)) (i : ℕ) : Except Failure τ :=
  match tasks[i]? with
  | none => .error .bounds
  | some none => .error .undefRef
  | some (some task) => .ok task

def setTask (tasks : List (Option τ)) (i : ℕ) (task : τ) : Except Failure (List (Option τ)) :=
  if i < tasks.length then .ok (tasks.set i (some task)) else .error .bounds

def isassigned (tasks : List (Option τ)) (i : ℕ) : Bool :=
  match tasks[i]? with
  | some (some _) => true
  | _ => false

-- The loop of `multiq_sift_up`. Its counter is the position, or more: a pass goes to the parent.
def siftUpLoop (priority : τ → ℕ) : ℕ → List (Option τ) → ℕ → Except Failure (List (Option τ))
  | 0, tasks, _ => .ok tasks
  | count + 1, tasks, idx =>
    if idx > 0 then do
      let parent := (idx - 1) / heapD
      let task ← getTask tasks idx
      let above ← getTask tasks parent
      if priority task < priority above then
        let tasks ← setTask tasks parent task
        let tasks ← setTask tasks idx above
        siftUpLoop priority count tasks parent
      else
        pure tasks
    else
      pure tasks

def multiqSiftUp (priority : τ → ℕ) (tasks : List (Option τ)) (idx : ℕ) : Except Failure (List (Option τ)) :=
  siftUpLoop priority idx tasks idx

-- The range `(heap_d * idx + 1):(heap_d * idx + heap_d)`. The product is a `UInt32`, and so is the last summand; the
-- literal is an `Int`.
def children (idx : ℕ) : List ℕ :=
  let start := u32 (heapD * idx) + 1
  let stop := u32 (u32 (heapD * idx) + heapD)
  List.range' start (stop + 1 - start)

-- The loop over the children, with the recursive call as an argument.
def siftDownLoop (priority : τ → ℕ) (ntasks idx : ℕ)
    (siftDown : List (Option τ) → ℕ → Except Failure (List (Option τ))) :
    List ℕ → List (Option τ) → Except Failure (List (Option τ))
  | [], tasks => .ok tasks
  | child :: rest, tasks =>
    if child ≥ ntasks then .ok tasks
    else if isassigned tasks child then do
      let below ← getTask tasks child
      let task ← getTask tasks idx
      if priority below < priority task then
        let tasks ← setTask tasks idx below
        let tasks ← setTask tasks child task
        let tasks ← siftDown tasks child
        siftDownLoop priority ntasks idx siftDown rest tasks
      else
        siftDownLoop priority ntasks idx siftDown rest tasks
    else
      siftDownLoop priority ntasks idx siftDown rest tasks

-- `stack` is the number of nested calls for which there is room.
def multiqSiftDown (priority : τ → ℕ) (ntasks : ℕ) : ℕ → List (Option τ) → ℕ → Except Failure (List (Option τ))
  | 0, _, _ => .error .stackOverflow
  | stack + 1, tasks, idx =>
    if idx < ntasks then
      siftDownLoop priority ntasks idx (multiqSiftDown priority ntasks stack) (children idx) tasks
    else .ok tasks

-- The part of `multiq_insert` under the lock of the heap. From `2 ^ 31 - 1` tasks on the new count wraps to a negative
-- one, which is no index.
def insertLocked (priority : τ → ℕ) (heap : TaskHeap τ) (task : τ) : Except Failure (TaskHeap τ) := do
  let tasks := if heap.ntasks ≥ heap.tasks.length
    then heap.tasks ++ List.replicate heap.tasks.length none else heap.tasks
  let ntasks := heap.ntasks + 1
  if ntasks ≥ 2 ^ 31 then throw .bounds
  let tasks ← setTask tasks (ntasks - 1) task
  let tasks ← multiqSiftUp priority tasks (ntasks - 1)
  pure ⟨tasks, ntasks, if priority task < heap.priority then priority task else heap.priority⟩

-- The part of `multiq_deletemin` under the lock of the heap, after the task has been found to be runnable here.
def deleteLocked (priority : τ → ℕ) (stack : ℕ) (heap : TaskHeap τ) : Except Failure (TaskHeap τ) := do
  let ntasks := heap.ntasks
  let last ← getTask heap.tasks (ntasks - 1)
  let tasks ← setTask heap.tasks 0 last
  let tasks := tasks.set (ntasks - 1) none
  if ntasks > 1 then
    let tasks ← multiqSiftDown priority (ntasks - 1) stack tasks 0
    let root ← getTask tasks 0
    pure ⟨tasks, ntasks - 1, priority root⟩
  else
    pure ⟨tasks, ntasks - 1, typemaxUInt16⟩

-- An 8-ary minheap: the tasks come first, none is before the one above it, and the priority other threads see is that
-- of the root.
structure ValidHeap (priority : τ → ℕ) (heap : TaskHeap τ) : Prop where
  assigned : ∀ i < heap.ntasks, ∃ task, heap.tasks[i]? = some (some task)
  unassigned : ∀ i task, heap.tasks[i]? = some (some task) → i < heap.ntasks
  ordered : ∀ i task above, 0 < i → heap.tasks[i]? = some (some task) →
    heap.tasks[(i - 1) / 8]? = some (some above) → priority above ≤ priority task
  published : heap.priority = match heap.tasks[0]? with
    | some (some root) => priority root
    | _ => typemaxUInt16

end Heaps

-- Where a thread stands between two steps.
inductive Local (τ : Type) where
  | idle
  -- `multiq_insert`: called; waiting for the lock of the pool; with a number of heaps; with a vector of heaps
  | entering (task : τ) (priority : ℕ) (tpid : Fin 2)
  | growing (task : τ) (priority : ℕ) (tpid : Fin 2)
  | sized (task : τ) (priority : ℕ) (tpid : Fin 2) (heapP : ℕ)
  | choosing (task : τ) (heapP : ℕ) (tpheaps : List ℕ)
  -- `multiq_deletemin`: called; at the head of the inner loop; with one priority read; about to try the lock
  | deleting (tp : Option (Fin 2))
  | scanning (tpheaps : List ℕ) (i : ℕ)
  | peeking (tpheaps : List ℕ) (i rn1 rn2 prio1 : ℕ)
  | locking (tpheaps : List ℕ) (i rn1 prio1 : ℕ)

-- A vector of heaps holds references: positions in `objects`. `inserted` and `returned` record the calls that have
-- finished, the latest first.
structure State (ι τ : Type) where
  objects : List (TaskHeap τ)
  heaps : Fin 2 → List ℕ
  priority : τ → ℕ
  pc : ι → Local τ
  inserted : List τ
  returned : List τ

-- What a step does not decide by itself: the number of threads in the pool, the states of the thread's random
-- generator, whether the lock is free, whether the task is bound to another thread.
structure Choice where
  nthreads : ℕ
  seed1 : ℕ
  seed2 : ℕ
  free : Bool
  sticky : Bool
deriving DecidableEq, Repr

inductive Event (ι τ : Type) where
  | callInsert (thread : ι) (task : τ) (priority : ℕ) (tpid : Fin 2)
  | callDeletemin (thread : ι) (tp : Option (Fin 2))
  | advance (thread : ι) (choice : Choice)

section Steps

variable {ι τ : Type} [DecidableEq ι] [DecidableEq τ]

def initial : State ι τ := ⟨[], fun _ => [], fun _ => 0, fun _ => .idle, [], []⟩

def State.goto (s : State ι τ) (thread : ι) (pc : Local τ) : State ι τ :=
  { s with pc := Function.update s.pc thread pc }

-- A pool without threads counts as one with a single thread.
def atLeastOne (nt : ℕ) : ℕ := if nt = 0 then 1 else nt

def heapC : ℕ := 2

-- The vector `newheaps`: the references of the old one, and new heaps after them.
def State.addHeaps (s : State ι τ) (tpid : Fin 2) (fresh : ℕ) : State ι τ :=
  { s with
    objects := s.objects ++ List.replicate fresh taskheap
    heaps := Function.update s.heaps tpid (s.heaps tpid ++ List.range' s.objects.length fresh) }

-- The part of `multiq_size` under the lock of the pool, with the new number of heaps.
def growLocked (s : State ι τ) (tpid : Fin 2) (nthreads : ℕ) : State ι τ × ℕ :=
  let tpheaps := s.heaps tpid
  let heapP := tpheaps.length
  let nt := atLeastOne nthreads
  if u32 (heapC * nt) ≤ heapP then (s, heapP)
  else
    let heapP := u32 (heapP + u32 (heapC * nt))
    (s.addHeaps tpid (heapP - tpheaps.length), heapP)

def heapAt (s : State ι τ) (tpheaps : List ℕ) (rn : ℕ) : Except Failure (ℕ × TaskHeap τ) :=
  match tpheaps[rn]? with
  | none => .error .bounds
  | some address =>
    match s.objects[address]? with
    | none => .error .undefRef
    | some heap => .ok (address, heap)

-- One step of a thread.
def advance (stack : ℕ) (s : State ι τ) (thread : ι) (choice : Choice) : Except Failure (State ι τ) :=
  match s.pc thread with
  | .idle => .ok s
  | .entering task priority tpid =>
    let nt := atLeastOne choice.nthreads
    let heapP := (s.heaps tpid).length
    if u32 (heapC * nt) ≤ heapP then .ok (s.goto thread (.sized task priority tpid heapP))
    else .ok (s.goto thread (.growing task priority tpid))
  | .growing task priority tpid =>
    let (s, heapP) := growLocked s tpid choice.nthreads
    .ok (s.goto thread (.sized task priority tpid heapP))
  | .sized task priority tpid heapP =>
    .ok ({ s with priority := Function.update s.priority task priority }.goto thread
      (.choosing task heapP (s.heaps tpid)))
  | .choosing task heapP tpheaps => do
    let (address, heap) ← heapAt s tpheaps (cong choice.seed1 heapP)
    if choice.free then
      let heap ← insertLocked s.priority heap task
      pure ({ s with objects := s.objects.set address heap, inserted := task :: s.inserted }.goto thread .idle)
    else
      pure s
  | .deleting none => .ok (s.goto thread .idle)
  | .deleting (some tp) => .ok (s.goto thread (.scanning (s.heaps tp) 0))
  | .scanning tpheaps i =>
    let heapP := tpheaps.length
    if i = heapP then .ok (s.goto thread .idle)
    else do
      let rn1 := cong choice.seed1 heapP
      let rn2 := cong choice.seed2 heapP
      let (_, heap) ← heapAt s tpheaps rn1
      pure (s.goto thread (.peeking tpheaps i rn1 rn2 heap.priority))
  | .peeking tpheaps i rn1 rn2 prio1 => do
    let (_, heap) ← heapAt s tpheaps rn2
    let prio2 := heap.priority
    if prio1 > prio2 then
      pure (s.goto thread (.locking tpheaps i rn2 prio2))
    else if prio1 = prio2 ∧ prio1 = typemaxUInt16 then
      pure (s.goto thread (.scanning tpheaps (i + 1)))
    else
      pure (s.goto thread (.locking tpheaps i rn1 prio1))
  | .locking tpheaps i rn1 prio1 => do
    let (address, heap) ← heapAt s tpheaps rn1
    if choice.free ∧ prio1 = heap.priority then
      let task ← getTask heap.tasks 0
      if choice.sticky then
        pure (s.goto thread (.scanning tpheaps 0))
      else
        let heap ← deleteLocked s.priority stack heap
        pure ({ s with objects := s.objects.set address heap, returned := task :: s.returned }.goto thread .idle)
    else
      pure (s.goto thread (.scanning tpheaps (i + 1)))

def step (stack : ℕ) (s : State ι τ) : Event ι τ → Except Failure (State ι τ)
  | .callInsert thread task priority tpid => .ok (s.goto thread (.entering task priority tpid))
  | .callDeletemin thread tp => .ok (s.goto thread (.deleting tp))
  | .advance thread choice => advance stack s thread choice

-- The tasks in the slots of a heap, and those in the heaps of both pools.
def TaskHeap.stored {τ : Type} (heap : TaskHeap τ) : List τ := heap.tasks.filterMap id

def State.heapStored (s : State ι τ) (address : ℕ) : List τ := (s.objects[address]?.map TaskHeap.stored).getD []

def State.stored (s : State ι τ) : List τ := (s.heaps 0 ++ s.heaps 1).flatMap s.heapStored

-- The task a thread is about to insert.
def Local.pending {τ : Type} : Local τ → Option τ
  | .entering task _ _ => some task
  | .growing task _ _ => some task
  | .sized task _ _ _ => some task
  | .choosing task _ _ => some task
  | _ => none

-- A thread makes one call at a time, a task is scheduled only when it is in no queue, and its priority is below the one
-- that marks an empty heap. The sizes of the pools are read from 16-bit integers.
def Allowed (s : State ι τ) : Event ι τ → Prop
  | .callInsert thread task priority _ =>
    s.pc thread = .idle ∧ priority < typemaxUInt16 ∧ task ∉ s.stored ∧ ∀ other, (s.pc other).pending ≠ some task
  | .callDeletemin thread _ => s.pc thread = .idle
  | .advance _ choice => choice.nthreads < 2 ^ 15

-- An insertion finds at most `2 ^ 29` tasks in the heap it locks.
def Roomy (s : State ι τ) : Event ι τ → Prop
  | .advance thread choice =>
    match s.pc thread with
    | .choosing _ heapP tpheaps => choice.free → ∀ address heap,
        heapAt s tpheaps (cong choice.seed1 heapP) = .ok (address, heap) → heap.ntasks ≤ 2 ^ 29
    | _ => True
  | _ => True

-- The states that runs reach whose steps all meet a condition.
inductive Reachable (stack : ℕ) (condition : State ι τ → Event ι τ → Prop) : State ι τ → Prop
  | initial : Reachable stack condition initial
  | step {s s' : State ι τ} {event : Event ι τ} : Reachable stack condition s → Allowed s event → condition s event →
      step stack s event = .ok s' → Reachable stack condition s'

-- The multiqueue loses and duplicates no task: a section that is entered is left again, the insertions of a task are
-- its returns and its places in the heaps, of which there is at most one, the heaps are valid, and a deletion takes a
-- task of least priority in the heap it locked.
structure Keeps (stack : ℕ) (condition : State ι τ → Event ι τ → Prop) (s : State ι τ) : Prop where
  unlocks : ∀ event, Allowed s event → condition s event → ∃ s', step stack s event = .ok s'
  balance : ∀ task, s.inserted.count task = s.returned.count task + s.stored.count task
  once : s.stored.Nodup
  distinct : (s.heaps 0 ++ s.heaps 1).Nodup
  valid : ∀ address ∈ s.heaps 0 ++ s.heaps 1, ∃ heap, s.objects[address]? = some heap ∧ ValidHeap s.priority heap
  least : ∀ thread choice s' task, step stack s (.advance thread choice) = .ok s' →
    s'.returned = task :: s.returned → ∃ tpheaps i rn1 prio1 address heap,
      s.pc thread = .locking tpheaps i rn1 prio1 ∧ heapAt s tpheaps rn1 = .ok (address, heap) ∧
        task ∈ heap.stored ∧ ∀ other ∈ heap.stored, s.priority task ≤ s.priority other

end Steps

end Joolia.Partr
