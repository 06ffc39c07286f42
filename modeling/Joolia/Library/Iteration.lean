import Mathlib.Data.List.Basic
import Mathlib.Data.List.Induction
import Mathlib.Data.Nat.Init

namespace Iteration

variable {α σ : Type*}

-- The loop that drives an iterator: `next` maps a state to the following element
-- and state, or to `none` when the iterator is exhausted. `Yields next start xs`
-- says that the loop entered with `start` stops after producing exactly `xs`.
-- A derivation is finite, so an endless loop yields nothing.
inductive Yields (next : σ → Option (α × σ)) : Option (α × σ) → List α → Prop
  | done : Yields next none []
  | step {x : α} {state : σ} {rest : List α} :
      Yields next (next state) rest → Yields next (some (x, state)) (x :: rest)

-- A loop whose states run through `state 0, state 1, ...` and end after `n`
-- elements produces the elements in that order.
theorem Yields.of_states {next : σ → Option (α × σ)} (elem : ℕ → α) (state : ℕ → σ) (n : ℕ)
    (hnext : ∀ k, k + 1 < n → next (state k) = some (elem (k + 1), state (k + 1)))
    (hlast : next (state (n - 1)) = none) (hn : 0 < n) :
    Yields next (some (elem 0, state 0)) ((List.range n).map elem) := by
  have hfrom : ∀ count k, k + 1 + count = n →
      Yields next (some (elem k, state k)) ((List.range' k (count + 1)).map elem) := by
    intro count
    induction count with
    | zero =>
        intro k hk
        have hk : k = n - 1 := by omega
        subst hk
        refine .step ?_
        rw [hlast]
        exact .done
    | succ count ih =>
        intro k hk
        rw [List.range'_succ, List.map_cons]
        refine .step ?_
        rw [hnext k (by omega)]
        exact ih (k + 1) (by omega)
  have h := hfrom (n - 1) 0 (by omega)
  rwa [show n - 1 + 1 = n by omega, ← List.range_eq_range'] at h

-- The same for an iterator whose calls may fail to return.
inductive Drains (next : σ → Option (Option (α × σ))) : σ → List α → Prop
  | done {state : σ} : next state = some none → Drains next state []
  | step {x : α} {state state' : σ} {rest : List α} : next state = some (some (x, state')) →
      Drains next state' rest → Drains next state (x :: rest)

theorem Drains.congr {next : σ → Option (Option (α × σ))} {state state' : σ} {xs : List α}
    (h : next state = next state') (hd : Drains next state' xs) : Drains next state xs := by
  cases hd with
  | done hnext => exact .done (h.trans hnext)
  | step hnext hrest => exact .step (h.trans hnext) hrest

end Iteration

namespace Loop

variable {σ : Type*}

-- Run `body` for the counters `lo, lo + 1, ..., hi - 1`.
def up (lo hi : ℕ) (body : ℕ → σ → σ) (init : σ) : σ :=
  (List.range' lo (hi - lo)).foldl (fun state i => body i state) init

-- Run `body` for the counters `hi - 1, ..., lo + 1, lo`.
def down (lo hi : ℕ) (body : ℕ → σ → σ) (init : σ) : σ :=
  (List.range' lo (hi - lo)).reverse.foldl (fun state i => body i state) init

theorem up_of_le {lo hi : ℕ} (h : hi ≤ lo) (body : ℕ → σ → σ) (init : σ) :
    up lo hi body init = init := by
  simp [up, Nat.sub_eq_zero_of_le h]

theorem up_succ {lo hi : ℕ} (h : lo ≤ hi) (body : ℕ → σ → σ) (init : σ) :
    up lo (hi + 1) body init = body hi (up lo hi body init) := by
  rw [up, Nat.succ_sub h, List.range'_concat, List.foldl_append]
  simp [up, Nat.add_sub_of_le h]

theorem down_of_le {lo hi : ℕ} (h : hi ≤ lo) (body : ℕ → σ → σ) (init : σ) :
    down lo hi body init = init := by
  simp [down, Nat.sub_eq_zero_of_le h]

theorem down_succ {lo hi : ℕ} (h : lo ≤ hi) (body : ℕ → σ → σ) (init : σ) :
    down lo (hi + 1) body init = down lo hi body (body hi init) := by
  rw [down, Nat.succ_sub h, List.range'_concat, List.reverse_append]
  simp [down, Nat.add_sub_of_le h]

-- What one pass of the body preserves, the ascending loop preserves.
theorem up_invariant {lo hi : ℕ} (P : ℕ → σ → Prop) {body : ℕ → σ → σ} {init : σ}
    (hle : lo ≤ hi) (hinit : P lo init)
    (hstep : ∀ i state, lo ≤ i → i < hi → P i state → P (i + 1) (body i state)) :
    P hi (up lo hi body init) := by
  induction hi, hle using Nat.le_induction with
  | base => rwa [up_of_le (Nat.le_refl lo)]
  | succ hi hle ih =>
      rw [up_succ hle]
      exact hstep hi _ hle (Nat.lt_succ_self hi)
        (ih fun i state hlo hhi => hstep i state hlo (Nat.lt_succ_of_lt hhi))

theorem down_invariant {lo hi : ℕ} (P : ℕ → σ → Prop) {body : ℕ → σ → σ} {init : σ}
    (hle : lo ≤ hi) (hinit : P hi init)
    (hstep : ∀ i state, lo ≤ i → i < hi → P (i + 1) state → P i (body i state)) :
    P lo (down lo hi body init) := by
  induction hi, hle using Nat.le_induction generalizing init with
  | base => rwa [down_of_le (Nat.le_refl lo)]
  | succ hi hle ih =>
      rw [down_succ hle]
      exact ih (hstep hi init hle (Nat.lt_succ_self hi) hinit)
        fun i state hlo hhi => hstep i state hlo (Nat.lt_succ_of_lt hhi)

-- A fallible loop over `0, ..., n - 1` whose passes all succeed.
theorem foldlM_range {f : σ → ℕ → Option σ} (P : ℕ → σ → Prop) {init : σ} (n : ℕ) (hinit : P 0 init)
    (hstep : ∀ i state, i < n → P i state → ∃ next, f state i = some next ∧ P (i + 1) next) :
    ∃ last, (List.range n).foldlM f init = some last ∧ P n last := by
  induction n with
  | zero => exact ⟨init, rfl, hinit⟩
  | succ n ih =>
      obtain ⟨state, hstate, hP⟩ := ih fun i state hi => hstep i state (Nat.lt_succ_of_lt hi)
      obtain ⟨next, hnext, hPnext⟩ := hstep n state (Nat.lt_succ_self n) hP
      refine ⟨next, ?_, hPnext⟩
      rw [List.range_succ, List.foldlM_append, hstate]
      simp [hnext]

-- `while cond state  body`, where a pass may fail; `none` also when `fuel` passes are
-- not enough.
def whileDo (cond : σ → Bool) (body : σ → Option σ) : ℕ → σ → Option σ
  | 0, _ => none
  | fuel + 1, state => if cond state then (body state).bind (whileDo cond body fuel) else some state

-- What every pass preserves holds at the end, if the passes also use up a bound.
theorem whileDo_spec {c : σ → Bool} {b : σ → Option σ} (P : ℕ → σ → Prop)
    (hstep : ∀ k state, P k state → c state = true →
      ∃ k' next, k' < k ∧ b state = some next ∧ P k' next)
    {k n : ℕ} {s : σ} (hinit : P k s) (hfuel : k < n) :
    ∃ k' last, whileDo c b n s = some last ∧ P k' last ∧ c last = false := by
  induction n generalizing k s with
  | zero => omega
  | succ n ih =>
      by_cases hc : c s = true
      · obtain ⟨k', next, hlt, hbody, hP⟩ := hstep k s hinit hc
        obtain ⟨k'', last, hlast, hP', hend⟩ := ih hP (by omega)
        exact ⟨k'', last, by simp [whileDo, hc, hbody, hlast], hP', hend⟩
      · exact ⟨k, s, by simp [whileDo, hc], hinit, by simpa using hc⟩

-- A loop over a list whose passes all succeed, for a family of bodies at once.
theorem foldlM_spec {I α : Type*} {f : I → σ → α → Option σ} (P : List α → σ → Prop) {s : σ} (l : List α)
    (hinit : P [] s)
    (hstep : ∀ done x rest state, l = done ++ x :: rest → P done state →
      ∃ next, (∀ i, f i state x = some next) ∧ P (done ++ [x]) next) :
    ∃ last, (∀ i, l.foldlM (f i) s = some last) ∧ P l last := by
  induction l using List.reverseRecOn with
  | nil => exact ⟨s, fun _ => rfl, hinit⟩
  | append_singleton l x ih =>
      obtain ⟨state, hstate, hP⟩ := ih fun done y rest state heq =>
        hstep done y (rest ++ [x]) state (by simp [heq])
      obtain ⟨next, hnext, hP'⟩ := hstep l x [] state rfl hP
      exact ⟨next, fun i => by simp [List.foldlM_append, hstate i, hnext i], hP'⟩

-- The counters `a, ..., b - 1`, upwards and downwards.
theorem foldlM_up {I : Type*} {f : I → σ → ℕ → Option σ} (P : ℕ → σ → Prop) {s : σ} {a b : ℕ}
    (hle : a ≤ b) (hinit : P a s)
    (hstep : ∀ i state, a ≤ i → i < b → P i state → ∃ next, (∀ j, f j state i = some next) ∧ P (i + 1) next) :
    ∃ last, (∀ j, (List.range' a (b - a)).foldlM (f j) s = some last) ∧ P b last := by
  induction b, hle using Nat.le_induction with
  | base => exact ⟨s, fun _ => by simp, hinit⟩
  | succ b hle ih =>
      obtain ⟨state, hstate, hP⟩ := ih fun i state hlo hhi => hstep i state hlo (Nat.lt_succ_of_lt hhi)
      obtain ⟨next, hnext, hP'⟩ := hstep b state hle (Nat.lt_succ_self b) hP
      refine ⟨next, fun j => ?_, hP'⟩
      rw [Nat.succ_sub hle, List.range'_concat, List.foldlM_append, hstate j]
      simp [Nat.add_sub_of_le hle, hnext j]

theorem foldlM_down {I : Type*} {f : I → σ → ℕ → Option σ} (P : ℕ → σ → Prop) {s : σ} {a b : ℕ}
    (hle : a ≤ b) (hinit : P b s)
    (hstep : ∀ i state, a ≤ i → i < b → P (i + 1) state → ∃ next, (∀ j, f j state i = some next) ∧ P i next) :
    ∃ last, (∀ j, (List.range' a (b - a)).reverse.foldlM (f j) s = some last) ∧ P a last := by
  induction b, hle using Nat.le_induction generalizing s with
  | base => exact ⟨s, fun _ => by simp, hinit⟩
  | succ b hle ih =>
      obtain ⟨next, hnext, hP⟩ := hstep b s hle (Nat.lt_succ_self b) hinit
      obtain ⟨last, hlast, hP'⟩ := ih hP fun i state hlo hhi => hstep i state hlo (Nat.lt_succ_of_lt hhi)
      refine ⟨last, fun j => ?_, hP'⟩
      rw [Nat.succ_sub hle, List.range'_concat, List.reverse_append, List.foldlM_append]
      simpa [Nat.add_sub_of_le hle, hnext j] using hlast j

end Loop
