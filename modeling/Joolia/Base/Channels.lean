import Joolia.Library.Fallible
import Mathlib.Data.Finset.Card
import Mathlib.Data.Int.Basic
import Mathlib.Data.Set.Card
import Mathlib.Logic.Function.Basic

namespace Joolia.Channels

open Fallible

inductive Status
  | opened
  | closed
deriving DecidableEq, Repr

-- What a call can throw: `raised` stands for an exception given to `close` or raised by `convert`.
inductive Excp (ε : Type)
  | invalidState (msg : String) (state : Status)
  | cancellation
  | raised (e : ε)
deriving DecidableEq, Repr

-- The conditions of a buffered channel; its `cond_wait` is its `cond_take`.
inductive Cond
  | take
  | put
deriving DecidableEq, Repr

-- A call of `wait` inside one of the functions.
inductive Frame (α : Type)
  | put (v : α)
  | take
  | fetch
deriving DecidableEq, Repr

-- What a task does between getting the lock and releasing it.
inductive Section (α ε : Type)
  | putBuffered (v : α)
  | takeBuffered
  | fetchBuffered
  | empty
  | close (e : Excp ε)
  | loop (f : Frame α)                   -- back in the loop around the wait
  | cleanup (f : Frame α) (e : Excp ε)   -- the wait throws: its entry is taken off the queue
  | putFinally (e : Excp ε)
deriving DecidableEq, Repr

inductive Pc (α ε : Type)
  | idle
  | checking (v : α)                     -- `put!`, before it asks for the lock
  | locking (sec : Section α ε)
  | holding (sec : Section α ε)
  | waiting (f : Frame α)
deriving DecidableEq, Repr

inductive Call (α ε : Type)
  | put (v : α)
  | take
  | fetch
  | empty
  | close (e : Excp ε)
deriving DecidableEq, Repr

inductive Event (α ε : Type)
  | silent
  | returned (v : Option α)
  | threw (e : Excp ε)
deriving DecidableEq, Repr

-- A channel and the tasks that call its functions.
structure State (τ α ε : Type) where
  cond_take : List τ
  cond_put : List τ
  state : Status
  excp : Option (Excp ε)
  data : List α
  n_avail_items : ℤ
  sz_max : ℕ
  lock : Option τ
  tasks : τ → Pc α ε

variable {τ α ε : Type} [DecidableEq τ]

def closedException : Excp ε := .invalidState "Channel is closed." .closed

-- The condition a wait is on.
def Frame.cond : Frame α → Cond
  | .put _ => .put
  | .take => .take
  | .fetch => .take

-- `lock(c; cancel)` at the start of a function can be cancelled, the other acquisitions are shielded.
def Section.cancellable : Section α ε → Bool
  | .putBuffered _ => true
  | .takeBuffered => true
  | .fetchBuffered => true
  | .empty => true
  | .close _ => true
  | .loop _ => false
  | .cleanup _ _ => false
  | .putFinally _ => false

def Call.start : Call α ε → Pc α ε
  | .put v => .checking v
  | .take => .locking .takeBuffered
  | .fetch => .locking .fetchBuffered
  | .empty => .locking .empty
  | .close e => .locking (.close e)

namespace State

variable (s : State τ α ε)

-- `Channel{T}(sz)`, and no call under way. With `sz > 0` the functions called are the buffered ones.
def init (sz : ℕ) : State τ α ε := ⟨[], [], .opened, none, [], 0, sz, none, fun _ => .idle⟩

def setTask (t : τ) (pc : Pc α ε) : State τ α ε := { s with tasks := Function.update s.tasks t pc }

-- The lock is released and the task goes on at `pc`.
def unlock (t : τ) (pc : Pc α ε) : State τ α ε := { s.setTask t pc with lock := none }

def checkChannelState : Except (Excp ε) Unit :=
  if s.state = .opened then .ok ()
  else
    match s.excp with
    | some e => .error e
    | none => .error closedException

def incrementNAvail (inc : ℤ) : State τ α ε := { s with n_avail_items := s.n_avail_items + inc }

def waitq : Cond → List τ
  | .take => s.cond_take
  | .put => s.cond_put

def setWaitq (q : List τ) : Cond → State τ α ε
  | .take => { s with cond_take := q }
  | .put => { s with cond_put := q }

-- How a notified task goes on: in its loop, or with the exception.
def resume (f : Frame α) : Option (Excp ε) → Pc α ε
  | none => .locking (.loop f)
  | some e => .locking (.cleanup f e)

-- An entry whose task does not wait any more has been claimed by an interrupt and is dropped.
def notifyLoop (c : Cond) (all : Bool) (error : Option (Excp ε)) : List τ → (τ → Pc α ε) → List τ × (τ → Pc α ε)
  | [], tasks => ([], tasks)
  | t :: q, tasks =>
    match tasks t with
    | .waiting f =>
      if f.cond = c then
        if all then notifyLoop c all error q (Function.update tasks t (resume f error))
        else (q, Function.update tasks t (resume f error))
      else notifyLoop c all error q tasks
    | _ => notifyLoop c all error q tasks

def notify (c : Cond) (all : Bool) (error : Option (Excp ε)) : State τ α ε :=
  let (q, tasks) := notifyLoop c all error (s.waitq c) s.tasks
  { s.setWaitq q c with tasks }

def notifyError (c : Cond) (e : Excp ε) : State τ α ε := s.notify c true (some e)

-- Where an exception out of the wait leads, after the lock has been released:
-- `put_buffered` takes the lock back for its `finally`.
def unwind (t : τ) (f : Frame α) (e : Excp ε) : State τ α ε × Event α ε :=
  match f with
  | .put _ => (s.unlock t (.locking (.putFinally e)), .silent)
  | .take => (s.unlock t .idle, .threw e)
  | .fetch => (s.unlock t .idle, .threw e)

-- `wait(c.cond, tok)`, which throws at once when the token is already cancelled.
def wait (t : τ) (f : Frame α) (cancelled : Bool) : State τ α ε × Event α ε :=
  if cancelled then s.unwind t f .cancellation
  else ((s.setWaitq (s.waitq f.cond ++ [t]) f.cond).unlock t (.waiting f), .silent)

-- The `finally` of a put that has not pushed.
def putFinally (t : τ) (e : Excp ε) : State τ α ε × Event α ε :=
  ((s.incrementNAvail (-1)).unlock t .idle, .threw e)

-- The loop of `put_buffered` and what follows it, after the increment.
def putLoop (t : τ) (v : α) (cancelled : Bool) : State τ α ε × Event α ε :=
  if s.data.length = s.sz_max then
    match s.checkChannelState with
    | .error e => s.putFinally t e
    | .ok () => s.wait t (.put v) cancelled
  else
    match s.checkChannelState with
    | .error e => s.putFinally t e
    | .ok () => (({ s with data := s.data ++ [v] }.notify .take true none).unlock t .idle, .returned (some v))

def putBuffered (t : τ) (v : α) (cancelled : Bool) : State τ α ε × Event α ε :=
  (s.incrementNAvail 1).putLoop t v cancelled

def fetchBuffered (t : τ) (cancelled : Bool) : State τ α ε × Event α ε :=
  match s.data with
  | [] =>
    match s.checkChannelState with
    | .error e => (s.unlock t .idle, .threw e)
    | .ok () => s.wait t .fetch cancelled
  | v :: _ => (s.unlock t .idle, .returned (some v))

def takeBuffered (t : τ) (cancelled : Bool) : State τ α ε × Event α ε :=
  match s.data with
  | [] =>
    match s.checkChannelState with
    | .error e => (s.unlock t .idle, .threw e)
    | .ok () => s.wait t .take cancelled
  | v :: rest =>
    ((({ s with data := rest }.incrementNAvail (-1)).notify .put false none).unlock t .idle, .returned (some v))

def empty (t : τ) : State τ α ε × Event α ε :=
  let ndrop := s.data.length
  ((({ s with data := [] }.incrementNAvail (-ndrop)).notify .put true none).unlock t .idle, .returned none)

def close (t : τ) (e : Excp ε) : State τ α ε × Event α ε :=
  let s := { s with excp := some e, state := .closed }
  (((s.notifyError .take e).notifyError .take e).notifyError .put e |>.unlock t .idle, .returned none)

-- The entry of the interrupted wait is deleted under the lock.
def cleanup (t : τ) (f : Frame α) (e : Excp ε) : State τ α ε × Event α ε :=
  (s.setWaitq ((s.waitq f.cond).erase t) f.cond).unwind t f e

def run (t : τ) (cancelled : Bool) : Section α ε → State τ α ε × Event α ε
  | .putBuffered v => s.putBuffered t v cancelled
  | .takeBuffered => s.takeBuffered t cancelled
  | .fetchBuffered => s.fetchBuffered t cancelled
  | .empty => s.empty t
  | .close e => s.close t e
  | .loop (.put v) => s.putLoop t v cancelled
  | .loop .take => s.takeBuffered t cancelled
  | .loop .fetch => s.fetchBuffered t cancelled
  | .cleanup f e => s.cleanup t f e
  | .putFinally e => s.putFinally t e

end State

-- One step of the task `t`: what it does between two releases of the lock is one step.
inductive Step : State τ α ε → τ → Event α ε → State τ α ε → Prop
  | call {s t} (c : Call α ε) : s.tasks t = .idle → Step s t .silent (s.setTask t c.start)
  | checkPasses {s t v} : s.tasks t = .checking v → s.checkChannelState = .ok () →
      Step s t .silent (s.setTask t (.locking (.putBuffered v)))
  | checkFails {s t v e} : s.tasks t = .checking v → s.checkChannelState = .error e →
      Step s t (.threw e) (s.setTask t .idle)
  | convertFails {s t v} (e : Excp ε) : s.tasks t = .checking v → Step s t (.threw e) (s.setTask t .idle)
  | cancel {s t sec} : s.tasks t = .locking sec → sec.cancellable = true →
      Step s t (.threw .cancellation) (s.setTask t .idle)
  | acquire {s t sec} : s.tasks t = .locking sec → s.lock = none →
      Step s t .silent { s.setTask t (.holding sec) with lock := some t }
  | run {s t sec} (cancelled : Bool) : s.tasks t = .holding sec →
      Step s t (s.run t cancelled sec).2 (s.run t cancelled sec).1
  | interrupt {s t f} (e : Excp ε) : s.tasks t = .waiting f → Step s t .silent (s.setTask t (.locking (.cleanup f e)))

end Joolia.Channels

namespace Joolia.Channels

variable {τ α ε : Type}

section Kept

-- The elements whose positions, counted from `n`, are not dropped.
def keptFrom (n : ℕ) (l : List α) (dropped : List ℕ) : List α :=
  ((l.zipIdx n).filter (fun x => x.2 ∉ dropped)).map Prod.fst

def kept (l : List α) (dropped : List ℕ) : List α := keptFrom 0 l dropped

theorem keptFrom_append (n : ℕ) (l l' : List α) (dropped : List ℕ) :
    keptFrom n (l ++ l') dropped = keptFrom n l dropped ++ keptFrom (n + l.length) l' dropped := by
  simp [keptFrom, List.zipIdx_append, List.filter_append, List.map_append]

theorem kept_append (l l' : List α) (dropped : List ℕ) :
    kept (l ++ l') dropped = kept l dropped ++ keptFrom l.length l' dropped := by
  rw [kept, keptFrom_append, Nat.zero_add, kept]

theorem keptFrom_all {n : ℕ} (l : List α) {dropped : List ℕ} (h : ∀ i ∈ dropped, i < n) : keptFrom n l dropped = l := by
  have hall : (l.zipIdx n).filter (fun x => x.2 ∉ dropped) = l.zipIdx n := by
    refine List.filter_eq_self.mpr fun x hx => decide_eq_true fun hmem => ?_
    have := List.le_snd_of_mem_zipIdx hx
    have := h x.2 hmem
    omega
  rw [keptFrom, hall, List.zipIdx_map_fst]

-- Dropping the last elements keeps the others.
theorem kept_drop_rest (l l' : List α) (dropped : List ℕ) :
    kept (l ++ l') (dropped ++ List.range' l.length l'.length) = kept l dropped := by
  have hfirst : kept l (dropped ++ List.range' l.length l'.length) = kept l dropped := by
    unfold kept keptFrom
    congr 1
    refine List.filter_congr fun x hx => ?_
    have hlt := List.snd_lt_of_mem_zipIdx hx
    simp only [List.mem_append, List.mem_range'_1, decide_eq_decide]
    constructor
    · exact fun hnot hmem => hnot (.inl hmem)
    · rintro hnot (hmem | hrange)
      · exact hnot hmem
      · omega
  have hrest : keptFrom l.length l' (dropped ++ List.range' l.length l'.length) = [] := by
    rw [keptFrom, List.filter_eq_nil_iff.mpr, List.map_nil]
    intro x hx
    have hlo := List.le_snd_of_mem_zipIdx hx
    have hhi := List.snd_lt_of_mem_zipIdx hx
    simp only [decide_eq_true_eq, not_not, List.mem_append, List.mem_range'_1]
    exact .inr ⟨hlo, by omega⟩
  rw [kept_append, hfirst, hrest, List.append_nil]

end Kept

-- What one call of a task has done to the channel so far.
structure Account (α : Type) where
  avail : ℤ
  writes : List (List α × List α)

-- What has happened: the values pushed, the positions of those dropped by `empty!`, the values taken,
-- the values pushed into a closed channel, and what the calls under way have done.
structure History (τ α : Type) where
  pushes : List α
  dropped : List ℕ
  takes : List α
  late : List α
  own : τ → Account α

inductive Observation (α : Type)
  | nothing
  | pushed (v : α)
  | took (v : α)
  | emptied

-- A call is observed by the value its function returns.
def observe : Pc α ε → Event α ε → Observation α
  | .holding (.putBuffered _), .returned (some v) => .pushed v
  | .holding (.loop (.put _)), .returned (some v) => .pushed v
  | .holding .takeBuffered, .returned (some v) => .took v
  | .holding (.loop .take), .returned (some v) => .took v
  | .holding .empty, .returned none => .emptied
  | _, _ => .nothing

namespace History

def init : History τ α := ⟨[], [], [], [], fun _ => ⟨0, []⟩⟩

variable [DecidableEq τ]

def record (h : History τ α) (s : State τ α ε) (t : τ) (ev : Event α ε) (s' : State τ α ε) : History τ α :=
  let account : Account α := match s.tasks t with
    | .idle => ⟨0, []⟩
    | _ => h.own t
  let own := Function.update h.own t
    ⟨account.avail + (s'.n_avail_items - s.n_avail_items), account.writes ++ [(s.data, s'.data)]⟩
  match observe (s.tasks t) ev with
  | .nothing => { h with own }
  | .pushed v =>
    { h with own, pushes := h.pushes ++ [v], late := if s.state = .closed then h.late ++ [v] else h.late }
  | .took v => { h with own, takes := h.takes ++ [v] }
  | .emptied => { h with own, dropped := h.dropped ++ List.range' (h.pushes.length - s.data.length) s.data.length }

end History

-- Any tasks take steps in any order.
inductive Run [DecidableEq τ] (k : ℕ) : State τ α ε → History τ α → Prop
  | init : Run k (State.init k) History.init
  | step {s h t ev s'} : Run k s h → Step s t ev s' → Run k s' (h.record s t ev s')

end Joolia.Channels
