import Mathlib.Logic.Function.Iterate

namespace Flow

-- A forest given by parent pointers, `0` above the roots, with the level of every vertex
-- and a relation `Dom d b` that says that `d` is `b` or lies above it.
structure Ancestry (In : ℕ → Prop) (up lv : ℕ → ℕ) (Dom : ℕ → ℕ → Prop) : Prop where
  ne_zero : ∀ b, In b → b ≠ 0
  up_mem : ∀ b, In b → up b = 0 ∨ In (up b)
  lv_root : ∀ b, In b → up b = 0 → lv b = 1
  lv_up : ∀ b, In b → up b ≠ 0 → lv b = lv (up b) + 1
  dom_iff : ∀ b d, In b → d ≠ 0 → (Dom d b ↔ d = b ∨ (up b ≠ 0 ∧ Dom d (up b)))

section Ancestry

variable {In : ℕ → Prop} {up lv : ℕ → ℕ} {Dom : ℕ → ℕ → Prop} (h : Ancestry In up lv Dom)
include h

theorem Ancestry.lv_pos {b : ℕ} (hb : In b) : 0 < lv b := by
  by_cases h0 : up b = 0
  · rw [h.lv_root b hb h0]
    exact Nat.one_pos
  · rw [h.lv_up b hb h0]
    exact Nat.succ_pos _

-- Climbing fewer steps than the level stays in the forest.
theorem Ancestry.climb {b k : ℕ} (hb : In b) (hk : k < lv b) : In (up^[k] b) ∧ lv (up^[k] b) + k = lv b := by
  induction k with
  | zero => exact ⟨hb, rfl⟩
  | succ k ih =>
      obtain ⟨hin, hlv⟩ := ih (by omega)
      rw [Function.iterate_succ_apply']
      by_cases h0 : up (up^[k] b) = 0
      · have := h.lv_root _ hin h0
        omega
      · have := h.lv_up _ hin h0
        exact ⟨(h.up_mem _ hin).resolve_left h0, by omega⟩

theorem Ancestry.dom_iff_climb {b d : ℕ} (hb : In b) (hd : d ≠ 0) : Dom d b ↔ ∃ k, k < lv b ∧ up^[k] b = d := by
  induction hlv : lv b generalizing b with
  | zero =>
      have := h.lv_pos hb
      omega
  | succ m ih =>
      rw [h.dom_iff b d hb hd]
      by_cases h0 : up b = 0
      · have hone := h.lv_root b hb h0
        constructor
        · rintro (rfl | ⟨hne, -⟩)
          · exact ⟨0, Nat.succ_pos m, rfl⟩
          · exact (hne h0).elim
        · rintro ⟨k, hk, rfl⟩
          obtain rfl : k = 0 := by omega
          exact .inl rfl
      · have hup := (h.up_mem b hb).resolve_left h0
        have hm : lv (up b) = m := by
          have := h.lv_up b hb h0
          omega
        rw [ih hup hm]
        constructor
        · rintro (rfl | ⟨-, k, hk, rfl⟩)
          · exact ⟨0, Nat.succ_pos m, rfl⟩
          · exact ⟨k + 1, by omega, rfl⟩
        · rintro ⟨k, hk, rfl⟩
          cases k with
          | zero => exact .inl rfl
          | succ k => exact .inr ⟨h0, k, by omega, rfl⟩

-- Only the vertex itself is above it on its own level.
theorem Ancestry.eq_of_dom {b d : ℕ} (hb : In b) (hd : d ≠ 0) (hdom : Dom d b) (hlv : lv b ≤ lv d) : d = b := by
  obtain ⟨k, hk, rfl⟩ := (h.dom_iff_climb hb hd).1 hdom
  have := (h.climb hb hk).2
  obtain rfl : k = 0 := by omega
  rfl

-- Climbing to a level finds the only vertex above on that level.
theorem Ancestry.dom_iff_level {b d : ℕ} (hb : In b) (hd : In d) : Dom d b ↔ lv d ≤ lv b ∧ up^[lv b - lv d] b = d := by
  have hpos := h.lv_pos hd
  rw [h.dom_iff_climb hb (h.ne_zero d hd)]
  constructor
  · rintro ⟨k, hk, rfl⟩
    have hlv := (h.climb hb hk).2
    refine ⟨by omega, ?_⟩
    rw [show lv b - lv (up^[k] b) = k by omega]
  · rintro ⟨hle, heq⟩
    exact ⟨lv b - lv d, by omega, heq⟩

-- What is above two different vertices of one level is above their parents.
theorem Ancestry.common_iff {a b d : ℕ} (ha : In a) (hb : In b) (hd : d ≠ 0) (hne : a ≠ b) (hlv : lv a = lv b) :
    (Dom d a ∧ Dom d b) ↔ (up a ≠ 0 ∧ up b ≠ 0 ∧ Dom d (up a) ∧ Dom d (up b)) := by
  constructor
  · rintro ⟨hda, hdb⟩
    have hnea : d ≠ a := by
      rintro rfl
      exact hne (h.eq_of_dom hb hd hdb (by omega))
    have hneb : d ≠ b := by
      rintro rfl
      exact hne (h.eq_of_dom ha hd hda (by omega)).symm
    obtain ⟨ha0, hda⟩ := ((h.dom_iff a d ha hd).1 hda).resolve_left hnea
    obtain ⟨hb0, hdb⟩ := ((h.dom_iff b d hb hd).1 hdb).resolve_left hneb
    exact ⟨ha0, hb0, hda, hdb⟩
  · rintro ⟨ha0, hb0, hda, hdb⟩
    exact ⟨(h.dom_iff a d ha hd).2 (.inr ⟨ha0, hda⟩), (h.dom_iff b d hb hd).2 (.inr ⟨hb0, hdb⟩)⟩

end Ancestry

end Flow
