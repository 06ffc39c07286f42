import Joolia.Base.Channels

namespace Joolia.Channels

open Fallible

variable {τ α ε : Type}

def Section.inPut : Section α ε → Bool
  | .putBuffered _ => true
  | .loop (.put _) => true
  | .cleanup (.put _) _ => true
  | .putFinally _ => true
  | _ => false

def Pc.inPut : Pc α ε → Bool
  | .checking _ => true
  | .locking sec => sec.inPut
  | .holding sec => sec.inPut
  | .waiting (.put _) => true
  | _ => false

-- A put in progress: it has raised the counter and has not pushed.
def Section.offering : Section α ε → Bool
  | .loop (.put _) => true
  | .cleanup (.put _) _ => true
  | .putFinally _ => true
  | _ => false

def Pc.offering : Pc α ε → Bool
  | .locking sec => sec.offering
  | .holding sec => sec.offering
  | .waiting (.put _) => true
  | _ => false

def Pc.offer (pc : Pc α ε) : ℤ := if pc.offering then 1 else 0

-- A task that another one has perhaps woken.
inductive Woken : Pc α ε → Pc α ε → Prop
  | not (pc : Pc α ε) : Woken pc pc
  | resumed (f : Frame α) (error : Option (Excp ε)) : Woken (.waiting f) (State.resume f error)

section Woken

variable {pc pc' pc'' : Pc α ε}

theorem Woken.trans (h : Woken pc pc') (h' : Woken pc' pc'') : Woken pc pc'' := by
  cases h with
  | not => exact h'
  | resumed f error =>
      generalize hpc : State.resume f error = mid at h'
      cases h' with
      | not =>
          subst hpc
          exact .resumed f error
      | resumed f' error' => cases error <;> cases hpc

theorem Woken.offering_eq (h : Woken pc pc') : pc'.offering = pc.offering := by
  cases h with
  | not => rfl
  | resumed f error => cases f <;> cases error <;> rfl

theorem Woken.inPut_eq (h : Woken pc pc') : pc'.inPut = pc.inPut := by
  cases h with
  | not => rfl
  | resumed f error => cases f <;> cases error <;> rfl

theorem Woken.holding_iff (h : Woken pc pc') (sec : Section α ε) : pc' = .holding sec ↔ pc = .holding sec := by
  cases h with
  | not => rfl
  | resumed f error => cases error <;> simp [State.resume]

variable [DecidableEq τ]

theorem woken_notifyLoop (c : Cond) (all : Bool) (error : Option (Excp ε)) (q : List τ) (tasks : τ → Pc α ε) (t : τ) :
    Woken (tasks t) ((State.notifyLoop c all error q tasks).2 t) := by
  have hupdate : ∀ (tasks : τ → Pc α ε) t' f, tasks t' = .waiting f →
      ∀ t, Woken (tasks t) (Function.update tasks t' (State.resume f error) t) := by
    intro tasks t' f ht' t
    by_cases htt : t = t'
    · subst htt
      rw [Function.update_self, ht']
      exact .resumed f error
    · rw [Function.update_of_ne htt]
      exact .not _
  induction q generalizing tasks with
  | nil => exact .not _
  | cons t' q ih =>
      unfold State.notifyLoop
      split
      · rename_i f hf
        split
        · split
          · exact (hupdate tasks t' f hf t).trans (ih _)
          · exact hupdate tasks t' f hf t
        · exact ih tasks
      · exact ih tasks

end Woken

variable {s s' x : State τ α ε} {t : τ} {ev : Event α ε}

-- What may change besides the data and the counter: the queues, the tasks that wait, and an open channel.
structure Touched (s x : State τ α ε) : Prop where
  size_eq : x.sz_max = s.sz_max
  closed_stays : s.state = .closed → x.state = .closed
  woken : ∀ t, Woken (s.tasks t) (x.tasks t)

theorem Touched.of_tasks (hsize : x.sz_max = s.sz_max) (hstate : s.state = .closed → x.state = .closed)
    (htasks : x.tasks = s.tasks) : Touched s x :=
  ⟨hsize, hstate, fun t => by rw [htasks]; exact .not _⟩

theorem Touched.refl (s : State τ α ε) : Touched s s := .of_tasks rfl (fun h => h) rfl

theorem Touched.setWaitq (h : Touched s x) (q : List τ) (c : Cond) : Touched s (x.setWaitq q c) := by
  cases c <;> exact ⟨h.size_eq, h.closed_stays, h.woken⟩

-- The ways a step can change the data.
inductive DataChange (s : State τ α ε) (t : τ) (ev : Event α ε) (data : List α) : Prop
  | same : observe (s.tasks t) ev = .nothing → data = s.data → DataChange s t ev data
  | pushed (v : α) : observe (s.tasks t) ev = .pushed v → s.state = .opened → s.data.length ≠ s.sz_max →
      data = s.data ++ [v] → DataChange s t ev data
  | took (v : α) : observe (s.tasks t) ev = .took v → s.data = v :: data → DataChange s t ev data
  | emptied : observe (s.tasks t) ev = .emptied → data = [] → DataChange s t ev data

-- Only the task that takes a step gets or releases the lock.
inductive LockChange (s : State τ α ε) (t : τ) (s' : State τ α ε) : Prop
  | unlocked (sec : Section α ε) : s.tasks t = .holding sec → s'.lock = none → (∀ sec, s'.tasks t ≠ .holding sec) →
      LockChange s t s'
  | same : s'.lock = s.lock → (∀ sec, s.tasks t ≠ .holding sec) → (∀ sec, s'.tasks t ≠ .holding sec) → LockChange s t s'
  | acquired (sec : Section α ε) : s.lock = none → s'.lock = some t → s'.tasks t = .holding sec → LockChange s t s'

-- What one step of the task `t` does.
structure Effect (s : State τ α ε) (t : τ) (ev : Event α ε) (s' : State τ α ε) : Prop where
  size_eq : s'.sz_max = s.sz_max
  closed_stays : s.state = .closed → s'.state = .closed
  others : ∀ t', t' ≠ t → Woken (s.tasks t') (s'.tasks t')
  avail_eq : s'.n_avail_items - s'.data.length - (s'.tasks t).offer = s.n_avail_items - s.data.length - (s.tasks t).offer
  data_change : DataChange s t ev s'.data
  lock_change : LockChange s t s'
  put_started : (s'.tasks t).inPut = true → (s.tasks t).inPut = true ∨ s.tasks t = .idle
  finished : ev ≠ .silent → s'.tasks t = .idle

section Sections

@[simp] theorem observe_threw (pc : Pc α ε) (e : Excp ε) : observe pc (.threw e) = .nothing := by
  unfold observe
  split <;> simp_all

@[simp] theorem observe_silent (pc : Pc α ε) : observe pc .silent = .nothing := by
  unfold observe
  split <;> simp_all

theorem checkChannelState_ok (h : x.checkChannelState = .ok ()) : x.state = .opened := by
  unfold State.checkChannelState at h
  split at h
  · assumption
  · split at h <;> cases h

variable [DecidableEq τ]

theorem Touched.notify (h : Touched s x) (c : Cond) (all : Bool) (error : Option (Excp ε)) :
    Touched s (x.notify c all error) := by
  cases c <;> exact ⟨h.size_eq, h.closed_stays, fun t => (h.woken t).trans (woken_notifyLoop _ all error _ x.tasks t)⟩

@[simp] theorem data_notify (c : Cond) (all : Bool) (error : Option (Excp ε)) : (s.notify c all error).data = s.data := by
  cases c <;> rfl

@[simp] theorem n_avail_items_notify (c : Cond) (all : Bool) (error : Option (Excp ε)) :
    (s.notify c all error).n_avail_items = s.n_avail_items := by
  cases c <;> rfl

variable {sec : Section α ε} (hsec : s.tasks t = .holding sec)

include hsec

-- The end of a section.
theorem Touched.unlock (h : Touched s x) {pc : Pc α ε} (hpc : ∀ sec, pc ≠ .holding sec)
    (hput : pc.inPut = true → sec.inPut = true) (hfinished : ev ≠ .silent → pc = .idle)
    (havail : x.n_avail_items - x.data.length - pc.offer = s.n_avail_items - s.data.length - (s.tasks t).offer)
    (hdata : DataChange s t ev x.data) : Effect s t ev (x.unlock t pc) := by
  have hself : (x.unlock t pc).tasks t = pc := by simp [State.unlock, State.setTask]
  refine ⟨h.size_eq, h.closed_stays, fun t' hne => ?_, ?_, hdata, .unlocked sec hsec rfl ?_, fun hin => .inl ?_, fun hev => ?_⟩
  · have hother : (x.unlock t pc).tasks t' = x.tasks t' := by simp [State.unlock, State.setTask, hne]
    rw [hother]
    exact h.woken t'
  · rw [hself]
    exact havail
  · rw [hself]
    exact hpc
  · rw [hself] at hin
    rw [hsec]
    exact hput hin
  · rw [hself]
    exact hfinished hev

-- The function returns or throws.
theorem Touched.finish (h : Touched s x) (havail : x.n_avail_items - x.data.length =
    s.n_avail_items - s.data.length - (s.tasks t).offer) (hdata : DataChange s t ev x.data) :
    Effect s t ev (x.unlock t .idle) :=
  h.unlock hsec (fun _ => by simp) (fun hin => by simp [Pc.inPut] at hin) (fun _ => rfl)
    (by simpa [Pc.offer, Pc.offering] using havail) hdata

-- An exception that leaves a wait: the put is still counted until its `finally`.
theorem Touched.unwind (h : Touched s x) (hdata : x.data = s.data) (f : Frame α) (e : Excp ε)
    (hput : (Pc.waiting f : Pc α ε).inPut = true → sec.inPut = true)
    (havail : x.n_avail_items = s.n_avail_items + (Pc.waiting f : Pc α ε).offer - (s.tasks t).offer) :
    Effect s t (x.unwind t f e).2 (x.unwind t f e).1 := by
  cases f with
  | put v =>
      refine h.unlock hsec (fun _ => by simp) (fun _ => hput rfl) (fun hev => absurd rfl hev) ?_ (.same (observe_silent _) hdata)
      rw [havail, hdata]
      simp only [Pc.offer, Pc.offering, Section.offering, if_true]
      omega
  | take =>
      refine h.finish hsec ?_ (.same (observe_threw _ _) hdata)
      rw [havail, hdata]
      simp [Pc.offer, Pc.offering]
      omega
  | fetch =>
      refine h.finish hsec ?_ (.same (observe_threw _ _) hdata)
      rw [havail, hdata]
      simp [Pc.offer, Pc.offering]
      omega

theorem Touched.wait (h : Touched s x) (hdata : x.data = s.data) (f : Frame α) (cancelled : Bool)
    (hput : (Pc.waiting f : Pc α ε).inPut = true → sec.inPut = true)
    (havail : x.n_avail_items = s.n_avail_items + (Pc.waiting f : Pc α ε).offer - (s.tasks t).offer) :
    Effect s t (x.wait t f cancelled).2 (x.wait t f cancelled).1 := by
  unfold State.wait
  split
  · exact h.unwind hsec hdata f _ hput havail
  · refine (h.setWaitq _ f.cond).unlock hsec (fun _ => by simp) hput (fun hev => absurd rfl hev) ?_
      (.same (observe_silent _) ?_)
    · cases f <;> simp only [Frame.cond, State.setWaitq] <;> rw [havail, hdata] <;> omega
    · cases f <;> exact hdata

theorem Touched.putFinally (h : Touched s x) (hdata : x.data = s.data) (e : Excp ε)
    (havail : x.n_avail_items = s.n_avail_items + 1 - (s.tasks t).offer) :
    Effect s t (x.putFinally t e).2 (x.putFinally t e).1 := by
  have hx : Touched s (x.incrementNAvail (-1)) := ⟨h.size_eq, h.closed_stays, h.woken⟩
  refine hx.finish hsec ?_ (.same (observe_threw _ _) hdata)
  simp only [State.incrementNAvail]
  rw [havail, hdata]
  omega

theorem Touched.putLoop (h : Touched s x) (hdata : x.data = s.data) (hstate : x.state = s.state) (v : α) (cancelled : Bool)
    (hput : sec.inPut = true) (hobserve : observe (s.tasks t) (.returned (some v)) = .pushed v)
    (havail : x.n_avail_items = s.n_avail_items + 1 - (s.tasks t).offer) :
    Effect s t (x.putLoop t v cancelled).2 (x.putLoop t v cancelled).1 := by
  unfold State.putLoop
  split
  · split
    · exact h.putFinally hsec hdata _ havail
    · exact h.wait hsec hdata _ cancelled (fun _ => hput) havail
  · rename_i hfull
    split
    · exact h.putFinally hsec hdata _ havail
    · rename_i hcheck
      have hx : Touched s ({ x with data := x.data ++ [v] } : State τ α ε) := ⟨h.size_eq, h.closed_stays, h.woken⟩
      refine (hx.notify .take true none).finish hsec ?_ (.pushed v hobserve ?_ ?_ ?_)
      · rw [n_avail_items_notify, data_notify]
        simp only [List.length_append, List.length_singleton]
        rw [havail, hdata]
        omega
      · rw [← hstate]
        exact checkChannelState_ok hcheck
      · rw [← hdata, ← h.size_eq]
        exact hfull
      · rw [data_notify, hdata]

theorem takeBuffered_effect (cancelled : Bool) (hoffer : (s.tasks t).offer = 0)
    (htake : ∀ v, observe (s.tasks t) (.returned (some v)) = .took v) :
    Effect s t (s.takeBuffered t cancelled).2 (s.takeBuffered t cancelled).1 := by
  have hs := Touched.refl s
  unfold State.takeBuffered
  split
  · split
    · exact hs.finish hsec (by rw [hoffer, sub_zero]) (.same (observe_threw _ _) rfl)
    · exact hs.wait hsec rfl _ cancelled (fun hin => by simp [Pc.inPut] at hin) (by rw [hoffer]; simp [Pc.offer, Pc.offering])
  · rename_i v rest hdata
    have hx : Touched s (({ s with data := rest } : State τ α ε).incrementNAvail (-1)) :=
      .of_tasks rfl (fun h => h) rfl
    refine (hx.notify .put false none).finish hsec ?_ (.took v (htake v) ?_)
    · rw [n_avail_items_notify, data_notify, hoffer, hdata]
      simp only [State.incrementNAvail, List.length_cons]
      omega
    · rw [data_notify]
      exact hdata

theorem fetchBuffered_effect (cancelled : Bool) (hoffer : (s.tasks t).offer = 0)
    (hfetch : ∀ v, observe (s.tasks t) (.returned (some v)) = .nothing) :
    Effect s t (s.fetchBuffered t cancelled).2 (s.fetchBuffered t cancelled).1 := by
  have hs := Touched.refl s
  unfold State.fetchBuffered
  split
  · split
    · exact hs.finish hsec (by rw [hoffer, sub_zero]) (.same (observe_threw _ _) rfl)
    · exact hs.wait hsec rfl _ cancelled (fun hin => by simp [Pc.inPut] at hin) (by rw [hoffer]; simp [Pc.offer, Pc.offering])
  · exact hs.finish hsec (by rw [hoffer, sub_zero]) (.same (hfetch _) rfl)

theorem empty_effect (hoffer : (s.tasks t).offer = 0) (hempty : observe (s.tasks t) (.returned none) = .emptied) :
    Effect s t (s.empty t).2 (s.empty t).1 := by
  have hx : Touched s (({ s with data := [] } : State τ α ε).incrementNAvail (-s.data.length)) :=
    .of_tasks rfl (fun h => h) rfl
  refine (hx.notify .put true none).finish hsec ?_ (.emptied hempty ?_)
  · rw [n_avail_items_notify, data_notify, hoffer]
    simp only [State.incrementNAvail, List.length_nil]
    omega
  · rw [data_notify]
    rfl

theorem close_effect (e : Excp ε) (hoffer : (s.tasks t).offer = 0)
    (hclose : observe (s.tasks t) (.returned none) = .nothing) : Effect s t (s.close t e).2 (s.close t e).1 := by
  have hx : Touched s ({ s with excp := some e, state := .closed } : State τ α ε) := .of_tasks rfl (fun _ => rfl) rfl
  refine (((hx.notify .take true (some e)).notify .take true (some e)).notify .put true (some e)).finish hsec ?_
    (.same hclose ?_)
  · simp only [State.notifyError, n_avail_items_notify, data_notify, hoffer, sub_zero]
  · simp only [State.notifyError, data_notify]

theorem cleanup_effect (f : Frame α) (e : Excp ε) (hoffer : (s.tasks t).offer = (Pc.waiting f : Pc α ε).offer)
    (hput : (Pc.waiting f : Pc α ε).inPut = true → sec.inPut = true) :
    Effect s t (s.cleanup t f e).2 (s.cleanup t f e).1 := by
  refine ((Touched.refl s).setWaitq _ f.cond).unwind hsec ?_ f e hput ?_
  · cases f <;> rfl
  · rw [hoffer, add_sub_cancel_right]
    cases f <;> rfl

theorem run_effect (cancelled : Bool) : Effect s t (s.run t cancelled sec).2 (s.run t cancelled sec).1 := by
  cases sec with
  | putBuffered v =>
      have hx : Touched s (s.incrementNAvail 1) := .of_tasks rfl (fun h => h) rfl
      exact hx.putLoop hsec rfl rfl v cancelled rfl (by rw [hsec]; rfl)
        (by rw [hsec]; simp [State.incrementNAvail, Pc.offer, Pc.offering, Section.offering])
  | takeBuffered => exact takeBuffered_effect hsec cancelled (by rw [hsec]; rfl) (fun v => by rw [hsec]; rfl)
  | fetchBuffered => exact fetchBuffered_effect hsec cancelled (by rw [hsec]; rfl) (fun v => by rw [hsec]; rfl)
  | empty => exact empty_effect hsec (by rw [hsec]; rfl) (by rw [hsec]; rfl)
  | close e => exact close_effect hsec e (by rw [hsec]; rfl) (by rw [hsec]; rfl)
  | loop f =>
      cases f with
      | put v =>
          exact (Touched.refl s).putLoop hsec rfl rfl v cancelled rfl (by rw [hsec]; rfl)
            (by rw [hsec]; simp [Pc.offer, Pc.offering, Section.offering])
      | take => exact takeBuffered_effect hsec cancelled (by rw [hsec]; rfl) (fun v => by rw [hsec]; rfl)
      | fetch => exact fetchBuffered_effect hsec cancelled (by rw [hsec]; rfl) (fun v => by rw [hsec]; rfl)
  | cleanup f e => exact cleanup_effect hsec f e (by rw [hsec]; cases f <;> rfl) (by cases f <;> exact fun h => h)
  | putFinally e =>
      exact (Touched.refl s).putFinally hsec rfl e (by rw [hsec]; simp [Pc.offer, Pc.offering, Section.offering])

omit hsec

-- A step outside the lock changes only the task's own place.
theorem setTask_effect {pc : Pc α ε} (hbefore : ∀ sec, s.tasks t ≠ .holding sec) (hafter : ∀ sec, pc ≠ .holding sec)
    (hoffer : pc.offer = (s.tasks t).offer) (hobserve : observe (s.tasks t) ev = .nothing)
    (hput : pc.inPut = true → (s.tasks t).inPut = true ∨ s.tasks t = .idle) (hfinished : ev ≠ .silent → pc = .idle) :
    Effect s t ev (s.setTask t pc) := by
  have hself : (s.setTask t pc).tasks t = pc := by simp [State.setTask]
  refine ⟨rfl, fun h => h, fun t' hne => ?_, ?_, .same hobserve rfl, .same rfl hbefore ?_, ?_, ?_⟩
  · have hother : (s.setTask t pc).tasks t' = s.tasks t' := by simp [State.setTask, hne]
    rw [hother]
    exact .not _
  · rw [hself, hoffer]
    rfl
  · rw [hself]
    exact hafter
  · rw [hself]
    exact hput
  · rw [hself]
    exact hfinished

theorem Step.effect (h : Step s t ev s') : Effect s t ev s' := by
  cases h with
  | call c hidle =>
      refine setTask_effect (by simp [hidle]) ?_ ?_ (observe_silent _) (fun _ => .inr hidle) (fun hev => absurd rfl hev)
      · cases c <;> simp [Call.start]
      · rw [hidle]
        cases c <;> rfl
  | checkPasses hpc hcheck =>
      exact setTask_effect (by simp [hpc]) (by simp) (by rw [hpc]; rfl) (observe_silent _) (fun _ => .inl (by rw [hpc]; rfl))
        (fun hev => absurd rfl hev)
  | checkFails hpc hcheck =>
      exact setTask_effect (by simp [hpc]) (by simp) (by rw [hpc]; rfl) (observe_threw _ _) (by simp [Pc.inPut]) (fun _ => rfl)
  | convertFails e hpc =>
      exact setTask_effect (by simp [hpc]) (by simp) (by rw [hpc]; rfl) (observe_threw _ _) (by simp [Pc.inPut]) (fun _ => rfl)
  | @cancel sec hpc hcancel =>
      refine setTask_effect (by simp [hpc]) (by simp) ?_ (observe_threw _ _) (by simp [Pc.inPut]) (fun _ => rfl)
      rw [hpc]
      cases sec <;> simp_all [Pc.offer, Pc.offering, Section.offering, Section.cancellable]
  | @acquire sec hpc hlock =>
      have hself : (s.setTask t (.holding sec)).tasks t = .holding sec := by simp [State.setTask]
      refine ⟨rfl, fun h => h, fun t' hne => ?_, ?_, .same (observe_silent _) rfl, .acquired sec hlock rfl hself, ?_,
        fun hev => absurd rfl hev⟩
      · simp only [State.setTask, Function.update_of_ne hne]
        exact .not _
      · simp only [hself, hpc]
        rfl
      · simp only [hself, hpc]
        exact .inl
  | run cancelled hpc => exact run_effect hpc cancelled
  | @interrupt f e hpc =>
      exact setTask_effect (by simp [hpc]) (by simp) (by rw [hpc]; cases f <;> rfl) (observe_silent _)
        (fun hin => .inl (by rw [hpc]; cases f <;> first | rfl | cases hin)) (fun hev => absurd rfl hev)

end Sections

end Joolia.Channels
