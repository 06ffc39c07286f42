import Mathlib.Data.List.Basic
import Mathlib.Data.List.Induction
import Mathlib.Data.Nat.Init
import Mathlib.Tactic.TypeStar

universe u v w

namespace Fallible

variable {ε : Type u} {α β : Type v}

-- How a computation that may raise an exception goes on.
@[simp] theorem ok_bind (a : α) (f : α → Except ε β) : (Except.ok a >>= f) = f a := rfl

@[simp] theorem error_bind (e : ε) (f : α → Except ε β) : (Except.error e >>= f) = .error e := rfl

@[simp] theorem bind_ok (x : Except ε α) : (x >>= Except.ok) = x := by cases x <;> rfl

@[simp] theorem pure_eq_ok (a : α) : (pure a : Except ε α) = .ok a := rfl

@[simp] theorem throw_eq_error (e : ε) : (throw e : Except ε α) = .error e := rfl

-- A sequence returns when its parts do.
theorem bind_eq_ok {x : Except ε α} {f : α → Except ε β} {b : β} :
    (x >>= f) = .ok b ↔ ∃ a, x = .ok a ∧ f a = .ok b := by
  cases x with
  | error e => simp
  | ok a => simp

section Loops

variable {γ : Type w} {f : β → γ → Except ε β} {s : β}

-- A loop whose passes all return.
theorem foldlM_split (P : List γ → β → Prop) (l : List γ) (hinit : P [] s)
    (hstep : ∀ done x rest state, l = done ++ x :: rest → P done state → ∃ next, f state x = .ok next ∧ P (done ++ [x]) next) :
    ∃ last, l.foldlM f s = .ok last ∧ P l last := by
  induction l using List.reverseRecOn with
  | nil => exact ⟨s, rfl, hinit⟩
  | append_singleton l x ih =>
      obtain ⟨state, hstate, hP⟩ := ih fun done y rest state hl => hstep done y (rest ++ [x]) state (by simp [hl])
      obtain ⟨next, hnext, hP'⟩ := hstep l x [] state rfl hP
      exact ⟨next, by simp [List.foldlM_append, hstate, hnext], hP'⟩

theorem foldlM_spec (P : List γ → β → Prop) (l : List γ) (hinit : P [] s)
    (hstep : ∀ done x state, x ∈ l → P done state → ∃ next, f state x = .ok next ∧ P (done ++ [x]) next) :
    ∃ last, l.foldlM f s = .ok last ∧ P l last :=
  foldlM_split P l hinit fun done x rest state hl => hstep done x state (by simp [hl])

-- The same for the counters `a, ..., b - 1`.
theorem foldlM_up {f : β → ℕ → Except ε β} (P : ℕ → β → Prop) {a b : ℕ} (hle : a ≤ b) (hinit : P a s)
    (hstep : ∀ i state, a ≤ i → i < b → P i state → ∃ next, f state i = .ok next ∧ P (i + 1) next) :
    ∃ last, (List.range' a (b - a)).foldlM f s = .ok last ∧ P b last := by
  induction b, hle using Nat.le_induction with
  | base => exact ⟨s, by simp, hinit⟩
  | succ b hle ih =>
      obtain ⟨state, hstate, hP⟩ := ih fun i state hlo hhi => hstep i state hlo (Nat.lt_succ_of_lt hhi)
      obtain ⟨next, hnext, hP'⟩ := hstep b state hle (Nat.lt_succ_self b) hP
      refine ⟨next, ?_, hP'⟩
      rw [Nat.succ_sub hle, List.range'_concat, List.foldlM_append, hstate]
      simp [Nat.add_sub_of_le hle, hnext]

-- What holds before a loop that returned, and is kept by its passes, holds after it.
theorem foldlM_invariant (P : β → Prop) {l : List γ} {last : β} (hinit : P s)
    (hstep : ∀ x ∈ l, ∀ state next, P state → f state x = .ok next → P next)
    (h : l.foldlM f s = .ok last) : P last := by
  induction l generalizing s with
  | nil =>
      cases h
      exact hinit
  | cons x l ih =>
      rw [List.foldlM_cons, bind_eq_ok] at h
      obtain ⟨next, hnext, hrest⟩ := h
      refine ih (hstep x (by simp) s next hinit hnext) (fun y hy => hstep y (by simp [hy])) hrest

-- A loop that returned made every one of its passes, and the invariant held before each.
theorem exists_pass (P : β → Prop) {l : List γ} {last : β} (hinit : P s)
    (hstep : ∀ x ∈ l, ∀ state next, P state → f state x = .ok next → P next)
    (h : l.foldlM f s = .ok last) {x : γ} (hx : x ∈ l) :
    ∃ state next, P state ∧ f state x = .ok next := by
  induction l generalizing s with
  | nil => simp at hx
  | cons y l ih =>
      rw [List.foldlM_cons, bind_eq_ok] at h
      obtain ⟨next, hnext, hrest⟩ := h
      rcases List.mem_cons.mp hx with rfl | hx
      · exact ⟨s, next, hinit, hnext⟩
      · exact ih (hstep y (by simp) s next hinit hnext) (fun z hz => hstep z (by simp [hz])) hrest hx

end Loops

end Fallible

namespace Refine

variable {ε α β γ : Type*}

-- Two calls agree: both return, with related results, or both raise the same error.
def Agree (R : α → β → Prop) (x : Except ε α) (y : Except ε β) : Prop :=
  match x, y with
  | .ok a, .ok b => R a b
  | .error e, .error e' => e = e'
  | _, _ => False

namespace Agree

variable {R : α → β → Prop} {x : Except ε α} {y : Except ε β}

-- Where the relation fixes the abstract result, the calls are equal after abstraction.
theorem map_eq (h : Agree R x y) {f : α → β} (hR : ∀ a b, R a b → f a = b) : x.map f = y := by
  cases x with
  | ok a =>
      cases y with
      | ok b => exact congrArg Except.ok (hR a b h)
      | error e => exact h.elim
  | error e =>
      cases y with
      | ok b => exact h.elim
      | error e' => exact congrArg Except.error h

theorem of_ok (h : Agree R x y) {a : α} (hx : x = .ok a) : ∃ b, y = .ok b ∧ R a b := by
  subst hx
  cases y with
  | ok b => exact ⟨b, rfl, h⟩
  | error e => exact h.elim

end Agree

end Refine
