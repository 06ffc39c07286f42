import Mathlib.Data.List.Chain
import Mathlib.Data.List.DropRight

universe u

namespace Cancel

variable {α : Type u} [DecidableEq α] (up : α)

-- A word in which `up` takes back the letter before it, and `up` itself is not taken back.
def prepend (x : α) : List α → List α
  | [] => [x]
  | y :: rest => if x ≠ up ∧ y = up then rest else x :: y :: rest

def reduce (l : List α) : List α := l.foldr (prepend up) []

-- Above the root there is nothing to go up to.
def root (l : List α) : List α := (reduce up l).dropWhile (· = up)

def Reduced (l : List α) : Prop := l.IsChain fun x y => y = up → x = up

variable {up} {l m : List α} {x : α}

theorem prepend_up (w : List α) : prepend up up w = up :: w := by
  cases w with
  | nil => rfl
  | cons y w => simp [prepend]

theorem prepend_cancel (hx : x ≠ up) (w : List α) : prepend up x (up :: w) = w := by simp [prepend, hx]

theorem reduce_cons (x : α) (l : List α) : reduce up (x :: l) = prepend up x (reduce up l) := rfl

theorem reduce_cancel (hx : x ≠ up) (l m : List α) : reduce up (l ++ x :: up :: m) = reduce up (l ++ m) := by
  have htail : reduce up (x :: up :: m) = reduce up m := by rw [reduce_cons, reduce_cons, prepend_up, prepend_cancel hx]
  unfold reduce at htail ⊢
  rw [List.foldr_append, htail, List.foldr_append]

theorem reduce_of_reduced (h : Reduced up l) : reduce up l = l := by
  induction l with
  | nil => rfl
  | cons x l ih =>
      cases l with
      | nil => rfl
      | cons y l =>
          obtain ⟨hxy, htail⟩ := List.isChain_cons_cons.1 h
          rw [reduce_cons, ih htail, prepend, if_neg fun hpair => hpair.1 (hxy hpair.2)]

theorem reduced_prepend {w : List α} (h : Reduced up w) : Reduced up (prepend up x w) := by
  cases w with
  | nil => exact List.isChain_singleton x
  | cons y w =>
      rw [prepend]
      split_ifs with hpair
      · exact h.tail
      · refine List.isChain_cons_cons.2 ⟨fun hy => ?_, h⟩
        by_contra hx
        exact hpair ⟨hx, hy⟩

theorem reduced_reduce (l : List α) : Reduced up (reduce up l) := by
  induction l with
  | nil => exact List.isChain_nil
  | cons x l ih => exact reduced_prepend ih

theorem reduce_prepend_append (x : α) (w m : List α) : reduce up (prepend up x w ++ m) = reduce up (x :: (w ++ m)) := by
  cases w with
  | nil => rfl
  | cons y w =>
      rw [prepend]
      split_ifs with hpair
      · obtain ⟨hx, rfl⟩ := hpair
        exact (reduce_cancel hx [] (w ++ m)).symm
      · rfl

-- Reduction is made from the parts.
theorem reduce_append_left (l m : List α) : reduce up (reduce up l ++ m) = reduce up (l ++ m) := by
  induction l with
  | nil => rfl
  | cons x l ih => rw [reduce_cons, reduce_prepend_append, reduce_cons, ih, List.cons_append, reduce_cons]

theorem reduce_append_right (l m : List α) : reduce up (l ++ reduce up m) = reduce up (l ++ m) := by
  have hfix : reduce up (reduce up m) = reduce up m := reduce_of_reduced (reduced_reduce m)
  unfold reduce at hfix ⊢
  rw [List.foldr_append, hfix, List.foldr_append]

theorem reduce_concat (hx : x ≠ up) (l : List α) : reduce up (l ++ [x]) = reduce up l ++ [x] := by
  rw [← reduce_append_left]
  apply reduce_of_reduced
  refine List.isChain_append.2 ⟨reduced_reduce l, List.isChain_singleton x, fun y _ z hz hup => ?_⟩
  obtain rfl : x = z := by simpa using hz
  exact absurd hup hx

-- As many steps up as there are letters take them all back.
theorem reduce_ups (h : up ∉ l) (m : List α) : reduce up (l ++ (List.replicate l.length up ++ m)) = reduce up m := by
  induction l using List.reverseRecOn with
  | nil => rfl
  | append_singleton l x ih =>
      have hx : x ≠ up := fun heq => h (by simp [heq])
      have hlast : l ++ [x] ++ (List.replicate (l ++ [x]).length up ++ m) = l ++ x :: up :: (List.replicate l.length up ++ m) := by
        rw [List.length_append, List.length_singleton, List.replicate_succ]
        simp
      rw [hlast, reduce_cancel hx]
      exact ih fun hmem => h (by simp [hmem])

theorem root_up (l : List α) : root up (up :: l) = root up l := by
  rw [root, reduce_cons, prepend_up, List.dropWhile_cons_of_pos (by simp)]
  rfl

theorem root_replicate_append {k : List α} (hk : ∀ x ∈ k, x = up) (l : List α) : root up (k ++ l) = root up l := by
  induction k with
  | nil => rfl
  | cons x k ih =>
      obtain rfl := hk x (by simp)
      rw [List.cons_append, root_up, ih fun y hy => hk y (by simp [hy])]

theorem root_append_left (l m : List α) : root up (root up l ++ m) = root up (l ++ m) := by
  have hsplit : reduce up l = (reduce up l).takeWhile (· = up) ++ root up l := (List.takeWhile_append_dropWhile).symm
  have hups : ∀ x ∈ (reduce up l).takeWhile (· = up), x = up := fun x hx => by simpa using List.mem_takeWhile_imp hx
  calc root up (root up l ++ m)
      = root up ((reduce up l).takeWhile (· = up) ++ (root up l ++ m)) := (root_replicate_append hups _).symm
    _ = root up (reduce up l ++ m) := by rw [← List.append_assoc, ← hsplit]
    _ = root up (l ++ m) := by rw [root, reduce_append_left, root]

-- Below the root no step up is left.
theorem up_notMem_root (l : List α) : up ∉ root up l := by
  have hreduced : Reduced up (reduce up l) := reduced_reduce l
  unfold root
  generalize reduce up l = w at hreduced ⊢
  induction w with
  | nil => simp
  | cons x w ih =>
      by_cases hx : x = up
      · rw [List.dropWhile_cons_of_pos (by simpa using hx)]
        exact ih hreduced.tail
      · rw [List.dropWhile_cons_of_neg (by simpa using hx)]
        clear ih
        induction w generalizing x with
        | nil => simpa using Ne.symm hx
        | cons y w ih =>
            obtain ⟨hxy, htail⟩ := List.isChain_cons_cons.1 hreduced
            have hy : y ≠ up := fun hy => hx (hxy hy)
            exact List.not_mem_cons_of_ne_of_not_mem (Ne.symm hx) (ih y htail hy)

omit [DecidableEq α] in
theorem reduced_of_notMem (h : up ∉ l) : Reduced up l := by
  induction l with
  | nil => exact List.isChain_nil
  | cons x l ih =>
      cases l with
      | nil => exact List.isChain_singleton x
      | cons y l => exact List.isChain_cons_cons.2 ⟨fun hy => absurd hy fun heq => h (by simp [heq]), ih fun hmem => h (by simp [hmem])⟩

theorem root_of_notMem (h : up ∉ l) : root up l = l := by
  rw [root, reduce_of_reduced (reduced_of_notMem h)]
  cases l with
  | nil => rfl
  | cons x l => exact List.dropWhile_cons_of_neg (by simpa using fun heq => h (by simp [heq]))

-- Nothing new comes in.
theorem mem_of_mem_reduce (h : x ∈ reduce up l) : x ∈ l := by
  induction l with
  | nil => exact h
  | cons y l ih =>
      rw [reduce_cons] at h
      cases hw : reduce up l with
      | nil =>
          rw [hw] at h
          exact List.mem_cons.2 (.inl (List.mem_singleton.1 h))
      | cons z w =>
          rw [hw] at h ih
          rw [prepend] at h
          split_ifs at h
          · exact List.mem_cons_of_mem y (ih (List.mem_cons_of_mem z h))
          · rcases List.mem_cons.1 h with rfl | h
            · exact List.mem_cons_self
            · exact List.mem_cons_of_mem y (ih h)

theorem mem_of_mem_root (h : x ∈ root up l) : x ∈ l := mem_of_mem_reduce ((List.dropWhile_suffix _).subset h)

end Cancel
