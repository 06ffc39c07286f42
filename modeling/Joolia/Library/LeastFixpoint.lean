import Mathlib.Data.List.Basic
import Mathlib.Data.Nat.Find
import Mathlib.Tactic.TypeStar

-- Functions that may never return, as the least solutions of the equations that define them: `none` is what such a
-- function gives where its calls go on for ever.
universe u

namespace LeastFixpoint

variable {α β : Type*} {γ δ : Type u}

def Below (f g : α → Option β) : Prop := ∀ a b, f a = some b → g a = some b

-- `f` returns what the functions of a growing sequence return.
structure IsLimit (s : ℕ → α → Option β) (f : α → Option β) : Prop where
  grows : ∀ n, Below (s n) (s (n + 1))
  iff : ∀ a b, f a = some b ↔ ∃ n, s n a = some b

-- A computation that calls a function finitely often
structure Finitary (C : (α → Option β) → Option γ) : Prop where
  grows : ∀ {s f}, IsLimit s f → ∀ n c, C (s n) = some c → C (s (n + 1)) = some c
  iff : ∀ {s f}, IsLimit s f → ∀ c, C f = some c ↔ ∃ n, C (s n) = some c

namespace Finitary

variable {C : (α → Option β) → Option γ} {s : ℕ → α → Option β} {f g : α → Option β}

theorem grows_le (hC : Finitary C) (h : IsLimit s f) {n m : ℕ} (hle : n ≤ m) {c : γ} (hc : C (s n) = some c) :
    C (s m) = some c := by
  induction m, hle using Nat.le_induction with
  | base => exact hc
  | succ m _ ih => exact hC.grows h m c ih

theorem const (x : Option γ) : Finitary fun _ : α → Option β => x :=
  ⟨fun _ _ _ h => h, fun _ _ => ⟨fun h => ⟨0, h⟩, fun ⟨_, h⟩ => h⟩⟩

theorem call (a : α) : Finitary fun f : α → Option β => f a :=
  ⟨fun h n c hc => h.grows n a c hc, fun h c => h.iff a c⟩

theorem bind {D : γ → (α → Option β) → Option δ} (hC : Finitary C) (hD : ∀ c, Finitary (D c)) :
    Finitary fun f => C f >>= fun c => D c f := by
  constructor
  · intro s f h n d hd
    obtain ⟨c, hc, hd⟩ := Option.bind_eq_some_iff.1 hd
    exact Option.bind_eq_some_iff.2 ⟨c, hC.grows h n c hc, (hD c).grows h n d hd⟩
  · intro s f h d
    constructor
    · intro hd
      obtain ⟨c, hc, hd⟩ := Option.bind_eq_some_iff.1 hd
      obtain ⟨n, hn⟩ := (hC.iff h c).1 hc
      obtain ⟨m, hm⟩ := ((hD c).iff h d).1 hd
      exact ⟨max n m, Option.bind_eq_some_iff.2
        ⟨c, hC.grows_le h (Nat.le_max_left n m) hn, (hD c).grows_le h (Nat.le_max_right n m) hm⟩⟩
    · rintro ⟨n, hn⟩
      obtain ⟨c, hc, hd⟩ := Option.bind_eq_some_iff.1 hn
      exact Option.bind_eq_some_iff.2 ⟨c, (hC.iff h c).2 ⟨n, hc⟩, ((hD c).iff h d).2 ⟨n, hd⟩⟩

theorem foldlM {D : (α → Option β) → δ → γ → Option δ} (hD : ∀ d c, Finitary fun f => D f d c) (l : List γ) (d : δ) :
    Finitary fun f => l.foldlM (D f) d := by
  induction l generalizing d with
  | nil => exact const (some d)
  | cons c l ih => exact (hD d c).bind ih

-- The sequence `f, g, g, ...`
theorem mono (hC : Finitary C) (h : Below f g) {c : γ} (hc : C f = some c) : C g = some c := by
  refine hC.grows (s := fun n => if n = 0 then f else g) (f := g) ⟨?_, ?_⟩ 0 c hc
  · intro n a b hb
    by_cases hn : n = 0
    · rw [if_pos hn] at hb
      exact h a b hb
    · rwa [if_neg hn] at hb
  · intro a b
    constructor
    · exact fun hb => ⟨1, hb⟩
    · rintro ⟨n, hb⟩
      by_cases hn : n = 0
      · rw [if_pos hn] at hb
        exact h a b hb
      · rwa [if_neg hn] at hb

end Finitary

section Least

variable {F : (α → Option β) → α → Option β}

-- The function as far as calls nested `n` deep go
def approx (F : (α → Option β) → α → Option β) : ℕ → α → Option β
  | 0 => fun _ => none
  | n + 1 => F (approx F n)

open Classical in
noncomputable def least (F : (α → Option β) → α → Option β) (a : α) : Option β :=
  if h : ∃ n, (approx F n a).isSome then approx F (Nat.find h) a else none

theorem approx_grows (hF : ∀ a, Finitary fun f => F f a) (n : ℕ) : Below (approx F n) (approx F (n + 1)) := by
  induction n with
  | zero => exact fun _ _ h => nomatch h
  | succ n ih => exact fun a _ h => (hF a).mono ih h

theorem least_eq_some_iff (hF : ∀ a, Finitary fun f => F f a) (a : α) (b : β) : least F a = some b ↔ ∃ n, approx F n a = some b := by
  have hle : ∀ {n m : ℕ}, n ≤ m → Below (approx F n) (approx F m) := fun {n m} hnm => by
    induction m, hnm using Nat.le_induction with
    | base => exact fun _ _ h => h
    | succ m _ ih => exact fun a b h => approx_grows hF m a b (ih a b h)
  rw [least]
  by_cases h : ∃ n, (approx F n a).isSome
  · rw [dif_pos h]
    constructor
    · exact fun hb => ⟨_, hb⟩
    · rintro ⟨n, hn⟩
      obtain ⟨c, hc⟩ := Option.isSome_iff_exists.1 (Nat.find_spec h)
      have hmin : Nat.find h ≤ n := Nat.find_min' h (Option.isSome_iff_exists.2 ⟨b, hn⟩)
      rw [hc, ← hle hmin a c hc, hn]
  · rw [dif_neg h]
    constructor
    · exact fun hb => nomatch hb
    · rintro ⟨n, hn⟩
      exact absurd ⟨n, Option.isSome_iff_exists.2 ⟨b, hn⟩⟩ h

-- The least solution is a solution.
theorem least_eq (hF : ∀ a, Finitary fun f => F f a) (a : α) : least F a = F (least F) a := by
  have hlimit : IsLimit (approx F) (least F) := ⟨approx_grows hF, least_eq_some_iff hF⟩
  refine Option.ext fun b => ?_
  rw [least_eq_some_iff hF, (hF a).iff hlimit]
  constructor
  · rintro ⟨n, hn⟩
    exact ⟨n, approx_grows hF n a b hn⟩
  · rintro ⟨n, hn⟩
    exact ⟨n + 1, hn⟩

end Least

end LeastFixpoint
