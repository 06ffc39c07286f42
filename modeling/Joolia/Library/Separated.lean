import Mathlib.Data.List.Basic
import Mathlib.Data.List.DropRight

universe u

namespace Separated

variable {α : Type u} [DecidableEq α] (sep : α)

-- The words between separators.
def words (s : List α) : List (List α) := (s.splitOn sep).filter (· ≠ [])

-- What stands behind the last separator.
def lastPart (s : List α) : List α := s.rtakeWhile (· ≠ sep)

variable {sep} {s t w : List α} {ws : List (List α)}

theorem words_nil : words sep [] = [] := by simp [words, List.splitOn_nil]

theorem words_of_notMem (hne : w ≠ []) (h : sep ∉ w) : words sep w = [w] := by
  simp [words, List.splitOn_eq_singleton h, hne]

theorem words_append_cons (s t : List α) : words sep (s ++ sep :: t) = words sep s ++ words sep t := by
  rw [words, List.splitOn_append_cons_self, List.filter_append]
  rfl

theorem words_cons (t : List α) : words sep (sep :: t) = words sep t := by
  have h : words sep ([] ++ sep :: t) = words sep [] ++ words sep t := words_append_cons [] t
  rwa [words_nil, List.nil_append, List.nil_append] at h

theorem words_concat (s : List α) : words sep (s ++ [sep]) = words sep s := by
  rw [words_append_cons, words_nil, List.append_nil]

theorem notMem_of_mem_splitOn (s : List α) : ∀ w ∈ s.splitOn sep, sep ∉ w := by
  induction s with
  | nil => simp [List.splitOn_nil]
  | cons x s ih =>
      rw [List.splitOn_cons_eq_if_modifyHead]
      obtain ⟨w, ws, hws⟩ := List.exists_cons_of_ne_nil (List.splitOn_ne_nil sep s)
      rw [hws] at ih ⊢
      intro v hv
      split_ifs at hv with hx
      · rcases List.mem_cons.1 hv with rfl | hv
        · simp
        · exact ih v hv
      · rcases List.mem_cons.1 hv with rfl | hv
        · have hne : sep ≠ x := fun heq => hx (by simp [heq])
          exact List.not_mem_cons_of_ne_of_not_mem hne (ih w (by simp))
        · exact ih v (by simp [hv])

-- Words are not empty and hold no separator.
theorem of_mem_words (h : w ∈ words sep s) : w ≠ [] ∧ sep ∉ w := by
  obtain ⟨hmem, hne⟩ := List.mem_filter.1 h
  exact ⟨by simpa using hne, notMem_of_mem_splitOn s w hmem⟩

theorem words_intercalate (h : ∀ w ∈ ws, w ≠ [] ∧ sep ∉ w) : words sep ([sep].intercalate ws) = ws := by
  by_cases hws : ws = []
  · subst hws
    rw [List.intercalate_nil, words_nil]
  · rw [words, List.splitOn_intercalate sep (fun w hw => (h w hw).2) hws, List.filter_eq_self]
    exact fun w hw => by simpa using (h w hw).1

theorem lastPart_of_notMem (h : sep ∉ s) : lastPart sep s = s := by
  rw [lastPart, List.rtakeWhile_eq_self_iff]
  exact fun x hx => by simpa using fun heq : x = sep => h (heq ▸ hx)

theorem lastPart_append_cons (h : sep ∉ w) (s : List α) : lastPart sep (s ++ sep :: w) = w := by
  induction w using List.reverseRecOn with
  | nil =>
      rw [lastPart, List.rtakeWhile_concat]
      simp
  | append_singleton w x ih =>
      have hx : x ≠ sep := fun heq => h (by simp [heq])
      have hrec := ih fun hmem => h (by simp [hmem])
      rw [lastPart] at hrec ⊢
      rw [← List.cons_append, ← List.append_assoc, List.rtakeWhile_concat, if_pos (by simpa using hx), hrec]

-- A text without separators, or one with a last separator.
theorem exists_last (sep : α) (s : List α) : sep ∉ s ∨ ∃ t w, s = t ++ sep :: w ∧ sep ∉ w := by
  induction s with
  | nil => exact .inl (by simp)
  | cons x s ih =>
      rcases ih with h | ⟨t, w, rfl, hw⟩
      · by_cases hx : sep = x
        · exact .inr ⟨[], s, by rw [hx, List.nil_append], h⟩
        · exact .inl (List.not_mem_cons_of_ne_of_not_mem hx h)
      · exact .inr ⟨x :: t, w, rfl, hw⟩

end Separated
