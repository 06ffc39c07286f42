import Joolia.Base.Path
import Joolia.Library.Cancel
import Joolia.Library.Separated

namespace Joolia.Path

open Separated

section Indices

variable {testf : UInt8 → Bool} {s t w : Str} {c : UInt8}

theorem slice_append (s t u : Str) : slice (s ++ (t ++ u)) s.length (s.length + t.length - 1) = t := by
  have hstop : ((s.length : ℤ) + t.length - 1 + 1).toNat = s.length + t.length := by omega
  rw [slice, hstop, List.take_append, List.take_of_length_le (Nat.le_add_right _ _), Nat.add_sub_cancel_left, List.take_left, List.drop_left]

theorem slice_zero (s t : Str) : slice (s ++ t) 0 (s.length - 1) = s := by
  have h := slice_append [] s t
  simpa using h

theorem slice_end (s t : Str) : slice (s ++ t) s.length (lastindex (s ++ t)) = t := by
  have h := slice_append s t []
  rwa [List.append_nil, ← Nat.cast_add, ← List.length_append] at h

theorem findnext_none (h : ∀ x ∈ t, testf x = false) : findnext testf (s ++ t) s.length = none := by
  rw [findnext, List.drop_left, List.findIdx?_eq_none_iff.2 h]
  rfl

theorem findnext_some (h : ∀ x ∈ w, testf x = false) (hc : testf c = true) :
    findnext testf (s ++ (w ++ c :: t)) s.length = some (s.length + w.length) := by
  have hidx : (w ++ c :: t).findIdx? testf = some w.length := by
    rw [List.findIdx?_append, List.findIdx?_eq_none_iff.2 h]
    simp [List.findIdx?_cons, hc]
  rw [findnext, List.drop_left, hidx]
  rfl

theorem getD_mem {j : ℕ} (hj : j < s.length) : s.getD j 0 ∈ s := by
  rw [List.getD_eq_getElem?_getD, List.getElem?_eq_getElem hj]
  exact List.getElem_mem hj

theorem findprev_none (h : ∀ x ∈ s, testf x = false) (t : Str) {i : ℕ} (hi : i < s.length) : findprev testf (s ++ t) i = none := by
  have hget : ∀ j < s.length, testf ((s ++ t).getD j 0) = false := fun j hj => by
    have hat : (s ++ t).getD j 0 = s.getD j 0 := by
      rw [List.getD_eq_getElem?_getD, List.getD_eq_getElem?_getD, List.getElem?_append_left hj]
    rw [hat]
    exact h _ (getD_mem hj)
  induction i with
  | zero => rw [findprev, if_neg (by rw [hget 0 hi]; exact Bool.false_ne_true)]
  | succ i ih => rw [findprev, if_neg (by rw [hget _ hi]; exact Bool.false_ne_true), ih (by omega)]

-- From within a run of failures back to the success before it.
theorem findprev_some (hc : testf c = true) (h : ∀ x ∈ w, testf x = false) {i : ℕ} (hi : i ≤ w.length) :
    findprev testf (s ++ c :: (w ++ t)) (s.length + i) = some s.length := by
  induction i with
  | zero =>
      have hget : (s ++ c :: (w ++ t)).getD s.length 0 = c := by simp
      cases hs : s.length with
      | zero =>
          rw [hs] at hget
          rw [Nat.zero_add, findprev, hget, if_pos hc]
      | succ n =>
          rw [hs] at hget
          rw [Nat.add_zero, findprev, hget, if_pos hc]
  | succ i ih =>
      have hget : testf ((s ++ c :: (w ++ t)).getD (s.length + i + 1) 0) = false := by
        have hlt : i < w.length := hi
        have hat : (s ++ c :: (w ++ t)).getD (s.length + i + 1) 0 = w.getD i 0 := by
          rw [List.getD_eq_getElem?_getD, List.getD_eq_getElem?_getD, Nat.add_assoc, List.getElem?_append_right (Nat.le_add_right _ _),
            Nat.add_sub_cancel_left, List.getElem?_cons_succ, List.getElem?_append_left hlt]
        rw [hat]
        exact h _ (getD_mem hlt)
      rw [← Nat.add_assoc, findprev, if_neg (by rw [hget]; exact Bool.false_ne_true)]
      exact ih (by omega)

theorem findlast_none (h : ∀ x ∈ s, testf x = false) : findlast testf s = none := by
  unfold findlast
  split_ifs with hs
  · rfl
  · have hpos := List.length_pos_of_ne_nil hs
    have hfind := findprev_none h [] (i := s.length - 1) (by omega)
    rwa [List.append_nil] at hfind

theorem findlast_some (hc : testf c = true) (h : ∀ x ∈ w, testf x = false) : findlast testf (s ++ c :: w) = some s.length := by
  have hfind := findprev_some (s := s) (t := []) hc h (le_refl w.length)
  rw [List.append_nil] at hfind
  rw [findlast, if_neg (by simp)]
  have hlast : (s ++ c :: w).length - 1 = s.length + w.length := by
    simp only [List.length_append, List.length_cons]
    omega
  rwa [hlast]

end Indices

section Split

variable {s t w p : Str}

theorem isseparator_of_notMem (h : separator ∉ w) : ∀ x ∈ w, isseparator x = false := by
  intro x hx
  simpa [isseparator] using fun heq : x = separator => h (heq ▸ hx)

theorem splitdir_of_notMem (h : separator ∉ p) : splitdir_nodrive p = ([], p) := by
  rw [splitdir_nodrive, findlast_none (isseparator_of_notMem h)]

-- The directory is what stands before the separators in front of the last part, or the root.
theorem splitdir_eq (s : Str) (hw : separator ∉ w) :
    splitdir_nodrive (s ++ separator :: w) =
      (if s.rdropWhile isseparator = [] then path_separator else s.rdropWhile isseparator, w) := by
  have hsep : isseparator separator = true := by decide
  have htail : slice (s ++ separator :: w) (s.length + 1) (lastindex (s ++ separator :: w)) = w := by
    have h := slice_end (s ++ [separator]) w
    rwa [List.append_assoc, List.singleton_append, List.length_append, List.length_singleton] at h
  have hdir : slice (s ++ separator :: w) 0 ((findprev (!isseparator ·) (s ++ separator :: w) s.length).getD 0) =
      if s.rdropWhile isseparator = [] then path_separator else s.rdropWhile isseparator := by
    have hsplit : s = s.rdropWhile isseparator ++ s.rtakeWhile isseparator := (List.rdropWhile_append_rtakeWhile).symm
    have hrun : ∀ x ∈ s.rtakeWhile isseparator ++ [separator], (!isseparator x) = false := fun x hx => by
      rcases List.mem_append.1 hx with hx | hx
      · simpa using List.mem_rtakeWhile_imp hx
      · obtain rfl := List.mem_singleton.1 hx
        rfl
    split_ifs with hnone
    · -- nothing but separators
      have hall : s.rtakeWhile isseparator = s := by rwa [hnone, List.nil_append, eq_comm] at hsplit
      rw [hall] at hrun
      have hfind := findprev_none hrun w (i := s.length) (by simp)
      rw [List.append_assoc, List.singleton_append] at hfind
      rw [hfind]
      cases s with
      | nil => rfl
      | cons c s =>
          have hc : c = separator := by simpa [isseparator] using hrun c (by simp)
          rw [hc]
          rfl
    · obtain ⟨r, c, hr⟩ := (List.eq_nil_or_concat' (s.rdropWhile isseparator)).resolve_left hnone
      have hc : (!isseparator c) = true := by
        have hlast := List.rdropWhile_last_not isseparator s hnone
        simpa [hr] using hlast
      have hpath : s ++ separator :: w = r ++ c :: (s.rtakeWhile isseparator ++ [separator] ++ w) := by
        conv_lhs => rw [hsplit, hr]
        simp
      have hlength : s.length = r.length + (s.rtakeWhile isseparator).length + 1 := by
        conv_lhs => rw [hsplit, hr]
        simp only [List.length_append, List.length_cons, List.length_nil]
        omega
      have hfind := findprev_some (s := r) (t := w) hc hrun (i := (s.rtakeWhile isseparator).length + 1) (by simp)
      rw [← hpath, ← Nat.add_assoc, ← hlength] at hfind
      rw [hfind, Option.getD_some, hpath, hr]
      have hcut := slice_zero (r ++ [c]) (s.rtakeWhile isseparator ++ [separator] ++ w)
      rw [List.length_append, List.length_singleton, Nat.cast_add, Nat.cast_one, Int.add_sub_cancel, List.append_assoc r] at hcut
      exact hcut
  rw [splitdir_nodrive, findlast_some hsep (isseparator_of_notMem hw)]
  dsimp only
  rw [htail, hdir]

theorem tail_eq (p : Str) : (splitdir_nodrive p).2 = lastPart separator p := by
  rcases exists_last separator p with h | ⟨s, w, rfl, hw⟩
  · rw [splitdir_of_notMem h, lastPart_of_notMem h]
  · rw [splitdir_eq s hw, lastPart_append_cons hw]

theorem splitext_append (p : Str) : (splitext p).1 ++ (splitext p).2 = p := by
  have hcut : ∀ k : ℕ, slice p 0 (k - 1) ++ slice p k (lastindex p) = p := fun k => by
    have hstop : ((k : ℤ) - 1 + 1).toNat = k := by omega
    have hend : (lastindex p + 1).toNat = p.length := by
      unfold lastindex
      omega
    rw [slice, slice, hstop, hend, List.take_length, List.drop_zero, List.take_append_drop]
  unfold splitext
  split
  · exact List.append_nil p
  · dsimp only
    split_ifs
    · exact hcut _
    · exact List.append_nil p
    · exact List.append_nil p

end Split

section SplitPath

variable {s w p : Str}

theorem all_separators (h : ∀ x ∈ s, isseparator x = true) : words separator s = [] := by
  induction s with
  | nil => exact words_nil
  | cons x s ih =>
      obtain rfl : x = separator := by simpa [isseparator] using h x (by simp)
      rw [words_cons, ih fun y hy => h y (by simp [hy])]

-- Separators at the end hold no word.
theorem words_rdropWhile (s : Str) : words separator (s.rdropWhile isseparator) = words separator s := by
  induction s using List.reverseRecOn with
  | nil => rfl
  | append_singleton s x ih =>
      by_cases hx : isseparator x
      · obtain rfl : x = separator := by simpa [isseparator] using hx
        rw [List.rdropWhile_concat_pos _ _ _ hx, ih, words_concat]
      · rw [List.rdropWhile_concat_neg _ _ _ hx]

theorem isabspath_append (hs : s ≠ []) (t : Str) : isabspath (s ++ t) = isabspath s := by
  cases s with
  | nil => exact absurd rfl hs
  | cons c s => rfl

theorem isabspath_of_notMem (hw : separator ∉ w) : isabspath w = false := by
  cases w with
  | nil => rfl
  | cons c w => exact isseparator_of_notMem hw c (by simp)

theorem isabspath_separator (p : Str) : isabspath (separator :: p) = true := by
  simp [isabspath, isseparator]

-- The root of an absolute path, then its words.
def pathParts (p : Str) : List Str := (if isabspath p then [path_separator] else []) ++ words separator p

theorem splitpathLoop_eq (fuel : ℕ) (p : Str) (out : List Str) (hfuel : p.length < fuel) (hp : p ≠ []) :
    splitpathLoop fuel p out = pathParts p ++ out := by
  induction fuel generalizing p out with
  | zero => omega
  | succ fuel ih =>
      rw [splitpathLoop, if_neg hp]
      rcases exists_last separator p with h | ⟨s, w, rfl, hw⟩
      · have hstop : splitpathLoop fuel [] (p :: out) = p :: out := by
          cases fuel with
          | zero => exact absurd hfuel (by have := List.length_pos_of_ne_nil hp; omega)
          | succ fuel => rfl
        rw [splitdir_of_notMem h]
        dsimp only
        rw [if_neg (Ne.symm hp), if_pos hp, hstop, pathParts, isabspath_of_notMem h, words_of_notMem hp h]
        rfl
      · rw [splitdir_eq s hw]
        dsimp only
        have hout : (if w ≠ [] then w :: out else out) = words separator w ++ out := by
          split_ifs with hw'
          · rw [words_of_notMem hw' hw]
            rfl
          · obtain rfl := not_not.1 hw'
            rfl
        rw [hout]
        have hsplit : s = s.rdropWhile isseparator ++ s.rtakeWhile isseparator := (List.rdropWhile_append_rtakeWhile).symm
        by_cases hnone : s.rdropWhile isseparator = []
        · have hall : ∀ x ∈ s, isseparator x = true := List.rdropWhile_eq_nil_iff.1 hnone
          have hparts : pathParts (s ++ separator :: w) = path_separator :: words separator w := by
            have habs : isabspath (s ++ separator :: w) = true := by
              cases s with
              | nil => exact isabspath_separator w
              | cons c s => exact hall c (by simp)
            rw [pathParts, habs, words_append_cons, all_separators hall]
            rfl
          rw [if_pos hnone, hparts]
          split_ifs with hroot
          · obtain ⟨rfl, rfl⟩ : s = [] ∧ w = [] := by
              have hlength := congrArg List.length hroot
              simp only [path_separator, List.length_append, List.length_cons, List.length_nil] at hlength
              exact ⟨List.length_eq_zero_iff.1 (by omega), List.length_eq_zero_iff.1 (by omega)⟩
            rfl
          · have hlong : 1 < fuel := by
              by_contra hshort
              apply hroot
              simp only [List.length_append, List.length_cons] at hfuel
              have hs : s = [] := List.length_eq_zero_iff.1 (by omega)
              have hw' : w = [] := List.length_eq_zero_iff.1 (by omega)
              rw [hs, hw']
              rfl
            rw [ih path_separator _ hlong (by decide)]
            rfl
        · have hparts : pathParts (s ++ separator :: w) = pathParts (s.rdropWhile isseparator) ++ words separator w := by
            have habs : isabspath (s ++ separator :: w) = isabspath (s.rdropWhile isseparator) := by
              conv_lhs => rw [hsplit, List.append_assoc]
              exact isabspath_append hnone _
            rw [pathParts, pathParts, habs, words_append_cons, words_rdropWhile, List.append_assoc]
          have hle : (s.rdropWhile isseparator).length ≤ s.length := (List.rdropWhile_prefix isseparator s).length_le
          rw [if_neg hnone, if_neg]
          · rw [ih _ _ ?_ hnone, hparts, List.append_assoc]
            simp only [List.length_append, List.length_cons] at hfuel
            omega
          · intro heq
            have hlength := congrArg List.length heq
            simp only [List.length_append, List.length_cons] at hlength
            omega

theorem splitpath_eq (hp : p ≠ []) : splitpath p = pathParts p := by
  rw [splitpath, if_neg hp, splitpathLoop_eq _ p [] (Nat.lt_succ_self _) hp, List.append_nil]

theorem join_cons_cons (w v : Str) (ws : List Str) : join (w :: v :: ws) = w ++ (path_separator ++ join (v :: ws)) := by
  rw [join, List.intercalate_cons_cons, join, List.append_assoc]

theorem getLast_of_notMem (hne : w ≠ []) (h : separator ∉ w) (s : Str) : (s ++ w).getLast? ≠ some separator := by
  rw [List.getLast?_append_of_ne_nil _ hne]
  intro hlast
  exact h (List.mem_of_getLast? hlast)

-- Relative words are joined to what does not end in a separator.
theorem foldl_joinNext {ws : List Str} (hws : ∀ v ∈ ws, v ≠ [] ∧ separator ∉ v) (s : Str) (hne : w ≠ []) (h : separator ∉ w) :
    ws.foldl joinNext (s ++ w) = s ++ join (w :: ws) := by
  induction ws generalizing s w with
  | nil => rw [join, List.intercalate_singleton, List.foldl_nil]
  | cons v ws ih =>
      obtain ⟨hvne, hv⟩ := hws v (by simp)
      have hnext : joinNext (s ++ w) v = s ++ w ++ path_separator ++ v := by
        rw [joinNext, isabspath_of_notMem hv, if_neg Bool.false_ne_true, if_neg]
        · rw [List.append_assoc (s ++ w)]
        · exact not_or.2 ⟨by simp [hne], getLast_of_notMem hne h s⟩
      rw [List.foldl_cons, hnext, ih (fun u hu => hws u (by simp [hu])) _ hvne hv, join_cons_cons]
      simp only [List.append_assoc]

-- A text that begins with anything but a separator has a first word.
theorem exists_word (habs : isabspath p = false) (hp : p ≠ []) :
    ∃ w ws, words separator p = w :: ws ∧ p.head? = w.head? ∧ w ≠ [] ∧ separator ∉ w := by
  by_cases hmem : separator ∈ p
  · obtain ⟨w, t, rfl, hw⟩ := List.eq_append_cons_of_mem hmem
    have hne : w ≠ [] := by
      rintro rfl
      exact absurd habs (by rw [List.nil_append, isabspath_separator]; decide)
    refine ⟨w, words separator t, ?_, List.head?_append_of_ne_nil _ hne, hne, hw⟩
    rw [words_append_cons, words_of_notMem hne hw]
    rfl
  · exact ⟨p, [], words_of_notMem hp hmem, rfl, hp, hmem⟩

theorem joinpath_splitpath (hp : p ≠ []) :
    joinpath (splitpath p) = .ok ((if isabspath p then path_separator else []) ++ join (words separator p)) := by
  have hwords : ∀ v ∈ words separator p, v ≠ [] ∧ separator ∉ v := fun v hv => of_mem_words hv
  rw [splitpath_eq hp, pathParts]
  cases habs : isabspath p with
  | false =>
      obtain ⟨w, ws, hws, -, hne, hw⟩ := exists_word habs hp
      rw [hws] at hwords ⊢
      have hfold := foldl_joinNext (fun v (hv : v ∈ ws) => hwords v (by simp [hv])) [] hne hw
      rw [List.nil_append, List.nil_append] at hfold
      exact congrArg Except.ok hfold
  | true =>
      cases hws : words separator p with
      | nil => rfl
      | cons w ws =>
          rw [hws] at hwords
          obtain ⟨hne, hw⟩ := hwords w (by simp)
          have hnext : joinNext path_separator w = path_separator ++ w := by
            rw [joinNext, isabspath_of_notMem hw, if_neg Bool.false_ne_true, if_pos (.inr rfl)]
          refine congrArg Except.ok ?_
          show (w :: ws).foldl joinNext path_separator = path_separator ++ join (w :: ws)
          rw [List.foldl_cons, hnext]
          exact foldl_joinNext (fun v hv => hwords v (by simp [hv])) path_separator hne hw

-- Runs of separators as one separator
def collapsed : Str → Str
  | c :: d :: rest => if isseparator c && isseparator d then collapsed (d :: rest) else c :: collapsed (d :: rest)
  | s => s

-- Without the separators at the end, but for the root
def trimmed (s : Str) : Str := if s = path_separator then s else s.rdropWhile isseparator

theorem collapsed_separator (t : Str) : collapsed (separator :: t) = separator :: collapsed (t.dropWhile isseparator) := by
  induction t with
  | nil => rfl
  | cons c t ih =>
      by_cases hc : isseparator c
      · obtain rfl : c = separator := by simpa [isseparator] using hc
        rw [List.dropWhile_cons_of_pos hc, ← ih, collapsed, if_pos (by decide)]
      · rw [List.dropWhile_cons_of_neg hc, collapsed, if_neg (by simp [hc])]

theorem collapsed_append (hw : separator ∉ w) (t : Str) : collapsed (w ++ t) = w ++ collapsed t := by
  induction w with
  | nil => rfl
  | cons c w ih =>
      have hrec := ih fun hmem => hw (by simp [hmem])
      have hc : isseparator c = false := isseparator_of_notMem hw c (by simp)
      cases hl : w ++ t with
      | nil =>
          rw [hl] at hrec
          rw [List.cons_append, hl, List.cons_append, ← hrec]
          rfl
      | cons d l =>
          rw [hl] at hrec
          rw [List.cons_append, hl, collapsed, if_neg (by simp [hc]), hrec, List.cons_append]

theorem words_dropWhile (t : Str) : words separator (t.dropWhile isseparator) = words separator t := by
  induction t with
  | nil => rfl
  | cons c t ih =>
      by_cases hc : isseparator c
      · obtain rfl : c = separator := by simpa [isseparator] using hc
        rw [List.dropWhile_cons_of_pos hc, ih, words_cons]
      · rw [List.dropWhile_cons_of_neg hc]

theorem isabspath_dropWhile (t : Str) : isabspath (t.dropWhile isseparator) = false := by
  induction t with
  | nil => rfl
  | cons c t ih =>
      by_cases hc : isseparator c
      · rwa [List.dropWhile_cons_of_pos hc]
      · rw [List.dropWhile_cons_of_neg hc]
        simpa [isabspath] using hc

theorem dropWhile_eq_nil {t : Str} (hws : words separator t = []) : t.dropWhile isseparator = [] := by
  by_contra hne
  obtain ⟨v, vs, hvs, -⟩ := exists_word (isabspath_dropWhile t) hne
  rw [words_dropWhile, hws] at hvs
  exact List.cons_ne_nil v vs hvs.symm

-- A relative path: its words, and one separator if it ends in any.
theorem exists_collapsed (p : Str) (habs : isabspath p = false) :
    ∃ k, collapsed p = join (words separator p) ++ k ∧ (k = [] ∨ k = path_separator) ∧ (p = [] → k = []) := by
  induction hn : p.length using Nat.strong_induction_on generalizing p with
  | _ n ih =>
    subst hn
    by_cases hmem : separator ∈ p
    · obtain ⟨w, t, rfl, hw⟩ := List.eq_append_cons_of_mem hmem
      have hne : w ≠ [] := by
        rintro rfl
        exact absurd habs (by rw [List.nil_append, isabspath_separator]; decide)
      have hshort : (t.dropWhile isseparator).length < (w ++ separator :: t).length := by
        have hle := (List.dropWhile_suffix isseparator (l := t)).length_le
        simp only [List.length_append, List.length_cons]
        omega
      obtain ⟨k, hk, hcases, hnil⟩ := ih _ hshort _ (isabspath_dropWhile t) rfl
      rw [collapsed_append hw, collapsed_separator, hk, words_append_cons, words_of_notMem hne hw, words_dropWhile]
      cases hws : words separator t with
      | nil =>
          have hend := dropWhile_eq_nil hws
          refine ⟨separator :: k, by simp [join], .inr ?_, by simp⟩
          rw [hnil hend]
          rfl
      | cons v ws =>
          refine ⟨k, ?_, hcases, by simp⟩
          rw [List.singleton_append, join_cons_cons]
          simp [path_separator]
    · refine ⟨[], ?_, .inl rfl, fun _ => rfl⟩
      have h := collapsed_append hmem []
      rw [List.append_nil] at h
      by_cases hp : p = []
      · subst hp
        rfl
      · rw [h, words_of_notMem hp hmem, join, List.intercalate_singleton]
        rfl

theorem exists_join_cons (w : Str) (ws : List Str) : ∃ t, join (w :: ws) = w ++ t := by
  cases ws with
  | nil => exact ⟨[], by rw [join, List.intercalate_singleton, List.append_nil]⟩
  | cons v ws => exact ⟨_, join_cons_cons w v ws⟩

theorem isabspath_join (hne : w ≠ []) (hw : separator ∉ w) (ws : List Str) (k : Str) : isabspath (join (w :: ws) ++ k) = false := by
  obtain ⟨t, ht⟩ := exists_join_cons w ws
  rw [ht, List.append_assoc, isabspath_append hne, isabspath_of_notMem hw]

theorem join_concat {ws : List Str} (hne : ws ≠ []) (v : Str) : join (ws ++ [v]) = join ws ++ (path_separator ++ v) := by
  induction ws with
  | nil => exact absurd rfl hne
  | cons w ws ih =>
      cases ws with
      | nil => rw [List.singleton_append, join_cons_cons, join, List.intercalate_singleton, join, List.intercalate_singleton]
      | cons u ws =>
          have hrec := ih (List.cons_ne_nil u ws)
          rw [List.cons_append] at hrec
          rw [List.cons_append, List.cons_append, join_cons_cons, hrec, join_cons_cons]
          simp only [List.append_assoc]

-- The last word of a joined path.
theorem exists_lastWord {ws : List Str} (hne : ws ≠ []) (hws : ∀ v ∈ ws, v ≠ [] ∧ separator ∉ v) :
    ∃ s v, join ws = s ++ v ∧ ws.getLast? = some v ∧ v ≠ [] ∧ separator ∉ v ∧ (s = [] ∨ ∃ s', s = s' ++ path_separator) := by
  obtain ⟨us, v, rfl⟩ := (List.eq_nil_or_concat' ws).resolve_left hne
  obtain ⟨hv, hsep⟩ := hws v (by simp)
  by_cases hus : us = []
  · subst hus
    exact ⟨[], v, by rw [List.nil_append, join, List.intercalate_singleton, List.nil_append], by simp, hv, hsep, .inl rfl⟩
  · refine ⟨join us ++ path_separator, v, ?_, by simp, hv, hsep, .inr ⟨join us, rfl⟩⟩
    rw [join_concat hus, List.append_assoc]

theorem rdropWhile_join {ws : List Str} (hne : ws ≠ []) (hws : ∀ v ∈ ws, v ≠ [] ∧ separator ∉ v) (t : Str) {k : Str}
    (hk : k = [] ∨ k = path_separator) : (t ++ (join ws ++ k)).rdropWhile isseparator = t ++ join ws := by
  obtain ⟨s, v, hjoin, -, hv, hsep, -⟩ := exists_lastWord hne hws
  obtain ⟨v', c, rfl⟩ := (List.eq_nil_or_concat' v).resolve_left hv
  have hc : ¬isseparator c = true := by
    rw [isseparator_of_notMem hsep c (by simp)]
    exact Bool.false_ne_true
  have hlast : (t ++ join ws).rdropWhile isseparator = t ++ join ws := by
    rw [hjoin, ← List.append_assoc, ← List.append_assoc, List.rdropWhile_concat_neg _ _ _ hc]
  rcases hk with rfl | rfl
  · rw [List.append_nil, hlast]
  · rw [← List.append_assoc, path_separator, List.rdropWhile_concat_pos _ _ _ (by decide), hlast]

theorem joinpath_splitpath_eq (p : Str) : joinpath (splitpath p) = .ok (trimmed (collapsed p)) := by
  by_cases hp : p = []
  · subst hp
    rfl
  have hwords : ∀ v ∈ words separator p, v ≠ [] ∧ separator ∉ v := fun v hv => of_mem_words hv
  rw [joinpath_splitpath hp]
  refine congrArg Except.ok ?_
  cases habs : isabspath p with
  | false =>
      obtain ⟨w, ws, hws, hhead, hne, hw⟩ := exists_word habs hp
      obtain ⟨k, hk, hcases, -⟩ := exists_collapsed p habs
      have hroot : collapsed p ≠ path_separator := fun heq => by
        have hrel := isabspath_join hne hw ws k
        rw [← hws, ← hk, heq] at hrel
        exact absurd hrel (by decide)
      rw [trimmed, if_neg hroot, hk]
      exact (rdropWhile_join (by rw [hws]; exact List.cons_ne_nil w ws) hwords [] hcases).symm
  | true =>
      obtain ⟨t, rfl⟩ : ∃ t, p = separator :: t := by
        cases p with
        | nil => exact absurd rfl hp
        | cons c t => exact ⟨t, by simpa [isabspath, isseparator] using habs⟩
      obtain ⟨k, hk, hcases, hnil⟩ := exists_collapsed (t.dropWhile isseparator) (isabspath_dropWhile t)
      rw [words_dropWhile] at hk
      rw [words_cons] at hwords ⊢
      rw [collapsed_separator, hk]
      by_cases hws : words separator t = []
      · rw [hnil (dropWhile_eq_nil hws), hws]
        rfl
      · have hne : join (words separator t) ≠ [] := by
          obtain ⟨s, v, hjoin, -, hv, -⟩ := exists_lastWord hws hwords
          rw [hjoin]
          exact List.append_ne_nil_of_right_ne_nil s hv
        have hroot : separator :: (join (words separator t) ++ k) ≠ path_separator := fun heq =>
          hne (List.append_eq_nil_iff.1 (List.cons.inj heq).2).1
        rw [trimmed, if_neg hroot]
        exact (rdropWhile_join hws hwords path_separator hcases).symm

end SplitPath

section Pieces

variable {path t w : Str} {keepempty : Bool}

theorem splitLoop_last (pre : Str) (ht : separator ∉ t) (fuel : ℕ) :
    splitAtSeparatorsLoop (pre ++ t) keepempty (fuel + 1) pre.length = if keepempty || t ≠ [] then [t] else [] := by
  rw [splitAtSeparatorsLoop, findnext_none (isseparator_of_notMem ht)]
  dsimp only
  rw [slice_end]

theorem splitLoop_next (keepempty : Bool) (pre : Str) (hw : separator ∉ w) (t : Str) (fuel : ℕ) :
    ∃ pre', pre ++ (w ++ separator :: t) = pre' ++ t.dropWhile isseparator ∧
      splitAtSeparatorsLoop (pre ++ (w ++ separator :: t)) keepempty (fuel + 1) pre.length =
        if keepempty || w ≠ [] then
          w :: splitAtSeparatorsLoop (pre' ++ t.dropWhile isseparator) keepempty fuel pre'.length
        else splitAtSeparatorsLoop (pre' ++ t.dropWhile isseparator) keepempty fuel pre'.length := by
  have hpath : pre ++ (w ++ separator :: t) = pre ++ (w ++ (separator :: t.takeWhile isseparator)) ++ t.dropWhile isseparator := by
    simp
  refine ⟨pre ++ (w ++ (separator :: t.takeWhile isseparator)), hpath, ?_⟩
  have hnext := findnext_some (s := pre) (t := t) (isseparator_of_notMem hw) (by decide : isseparator separator = true)
  have hstart : (findnext (!isseparator ·) (pre ++ (w ++ separator :: t)) (pre.length + w.length + 1)).getD (pre ++ (w ++ separator :: t)).length =
      (pre ++ (w ++ (separator :: t.takeWhile isseparator))).length := by
    have hrun : ∀ x ∈ t.takeWhile isseparator, (!isseparator x) = false := fun x hx => by
      simpa using List.mem_takeWhile_imp hx
    have hlen : (pre ++ (w ++ [separator])).length = pre.length + w.length + 1 := by
      simp only [List.length_append, List.length_singleton, Nat.add_assoc]
    have hwhole : pre ++ (w ++ separator :: t) = pre ++ (w ++ [separator]) ++ t := by simp
    have hbehind : (pre ++ (w ++ separator :: t.takeWhile isseparator)).length =
        (pre ++ (w ++ [separator])).length + (t.takeWhile isseparator).length := by
      simp only [List.length_append, List.length_cons, List.length_nil]
      omega
    rw [← hlen, hwhole, hbehind]
    cases hrest : t.dropWhile isseparator with
    | nil =>
        have ht : t.takeWhile isseparator = t := by
          have hsplit := List.takeWhile_append_dropWhile (p := isseparator) (l := t)
          rwa [hrest, List.append_nil] at hsplit
        rw [ht] at hrun ⊢
        rw [findnext_none hrun, Option.getD_none, List.length_append]
    | cons c r =>
        have hc : (!isseparator c) = true := by
          have hrel := isabspath_dropWhile t
          rw [hrest] at hrel
          simpa [isabspath] using hrel
        have hsplit : t = t.takeWhile isseparator ++ c :: r := by
          rw [← hrest, List.takeWhile_append_dropWhile]
        have hfind := findnext_some (s := pre ++ (w ++ [separator])) (t := r) hrun hc
        rw [← hsplit] at hfind
        rw [hfind, Option.getD_some]
  rw [splitAtSeparatorsLoop, hnext]
  dsimp only
  rw [hstart, ← hpath]
  have hcut := slice_append pre w (separator :: t)
  simp only [Nat.cast_add, hcut]

theorem split_words (fuel : ℕ) (pre t : Str) (hfuel : t.length < fuel) :
    splitAtSeparatorsLoop (pre ++ t) false fuel pre.length = words separator t := by
  induction fuel generalizing pre t with
  | zero => omega
  | succ fuel ih =>
      by_cases hmem : separator ∈ t
      · obtain ⟨w, t, rfl, hw⟩ := List.eq_append_cons_of_mem hmem
        obtain ⟨pre', hpath, hloop⟩ := splitLoop_next false pre hw t fuel
        have hshort : (t.dropWhile isseparator).length < fuel := by
          have hle := (List.dropWhile_suffix isseparator (l := t)).length_le
          simp only [List.length_append, List.length_cons] at hfuel
          omega
        rw [hloop, ih pre' _ hshort, words_dropWhile, words_append_cons]
        by_cases hne : w = []
        · subst hne
          rfl
        · rw [if_pos (by simpa using hne), words_of_notMem hne hw]
          rfl
      · rw [splitLoop_last pre hmem]
        by_cases hne : t = []
        · subst hne
          rfl
        · rw [if_pos (by simpa using hne), words_of_notMem hne hmem]

theorem getLast_run {s : Str} (h : ∀ x ∈ s, isseparator x = true) : (separator :: s).getLast? = some separator := by
  induction s with
  | nil => rfl
  | cons c s ih =>
      obtain rfl : c = separator := by simpa [isseparator] using h c (by simp)
      rw [List.getLast?_cons_cons]
      exact ih fun x hx => h x (by simp [hx])

-- Whether a text ends in a separator, seen behind the separators that follow the first one.
theorem ends_iff (s t : Str) : (t.dropWhile isseparator = [] ∨ (t.dropWhile isseparator).getLast? = some separator) ↔
    (s ++ separator :: t).getLast? = some separator := by
  have hsplit : s ++ separator :: t = s ++ (separator :: t.takeWhile isseparator) ++ t.dropWhile isseparator := by simp
  rw [hsplit]
  by_cases hrest : t.dropWhile isseparator = []
  · have hlast : (s ++ separator :: t.takeWhile isseparator).getLast? = some separator := by
      rw [List.getLast?_append_of_ne_nil _ (List.cons_ne_nil _ _)]
      exact getLast_run fun x hx => by simpa using List.mem_takeWhile_imp hx
    rw [hrest, List.append_nil]
    simp [hlast]
  · rw [List.getLast?_append_of_ne_nil _ hrest]
    simp [hrest]

-- With the empty parts kept, a separator at the end leaves one.
theorem split_kept (fuel : ℕ) (pre t : Str) (hrel : isabspath t = false) (hfuel : t.length < fuel) :
    splitAtSeparatorsLoop (pre ++ t) true fuel pre.length =
      words separator t ++ if t = [] ∨ t.getLast? = some separator then [[]] else [] := by
  induction fuel generalizing pre t with
  | zero => omega
  | succ fuel ih =>
      by_cases hmem : separator ∈ t
      · obtain ⟨w, t, rfl, hw⟩ := List.eq_append_cons_of_mem hmem
        have hne : w ≠ [] := by
          rintro rfl
          exact absurd hrel (by rw [List.nil_append, isabspath_separator]; decide)
        obtain ⟨pre', hpath, hloop⟩ := splitLoop_next true pre hw t fuel
        have hshort : (t.dropWhile isseparator).length < fuel := by
          have hle := (List.dropWhile_suffix isseparator (l := t)).length_le
          simp only [List.length_append, List.length_cons] at hfuel
          omega
        rw [hloop, ih pre' _ (isabspath_dropWhile t) hshort, words_dropWhile, words_append_cons, words_of_notMem hne hw]
        have hnil : w ++ separator :: t ≠ [] := List.append_ne_nil_of_left_ne_nil hne _
        simp only [ends_iff w t, hnil, false_or, Bool.true_or, if_true, List.cons_append, List.nil_append]
      · rw [splitLoop_last pre hmem]
        by_cases hne : t = []
        · subst hne
          rfl
        · have hlast : t.getLast? ≠ some separator := getLast_of_notMem hne hmem []
          rw [Bool.true_or, if_pos rfl, words_of_notMem hne hmem, if_neg (not_or.2 ⟨hne, hlast⟩), List.append_nil]

theorem split_at_separators_words (path : Str) : split_at_separators path false = words separator path :=
  split_words (path.length + 1) [] path (Nat.lt_succ_self _)

theorem split_at_separators_abs (t : Str) :
    split_at_separators (separator :: t) true =
      [] :: (words separator t ++ if (separator :: t).getLast? = some separator then [[]] else []) := by
  obtain ⟨pre', hpath, hloop⟩ := splitLoop_next true [] (List.not_mem_nil (a := separator)) t (separator :: t).length
  have hshort : (t.dropWhile isseparator).length < (separator :: t).length := by
    have hle := (List.dropWhile_suffix isseparator (l := t)).length_le
    simp only [List.length_cons]
    omega
  rw [List.nil_append, List.nil_append] at hloop
  have hsplit := split_kept (separator :: t).length pre' (t.dropWhile isseparator) (isabspath_dropWhile t) hshort
  have hiff := ends_iff [] t
  rw [List.nil_append] at hiff
  rw [split_at_separators]
  refine hloop.trans ?_
  rw [hsplit, words_dropWhile]
  simp only [hiff, Bool.true_or, if_true]

end Pieces

section Normal

open Cancel

theorem deletePair_spec (parts : List Str) :
    (deletePair parts = none ∧ Reduced pardir parts) ∨
      ∃ pre x post, x ≠ pardir ∧ parts = pre ++ x :: pardir :: post ∧ deletePair parts = some (pre ++ post) := by
  induction parts with
  | nil => exact .inl ⟨rfl, List.isChain_nil⟩
  | cons x parts ih =>
      cases parts with
      | nil => exact .inl ⟨rfl, List.isChain_singleton x⟩
      | cons y parts =>
          by_cases hpair : x ≠ pardir ∧ y = pardir
          · exact .inr ⟨[], x, parts, hpair.1, by rw [hpair.2, List.nil_append], by rw [deletePair, if_pos hpair, List.nil_append]⟩
          · rcases ih with ⟨hnone, hreduced⟩ | ⟨pre, z, post, hz, hparts, hsome⟩
            · refine .inl ⟨by rw [deletePair, if_neg hpair, hnone]; rfl, List.isChain_cons_cons.2 ⟨fun hy => ?_, hreduced⟩⟩
              by_contra hx
              exact hpair ⟨hx, hy⟩
            · exact .inr ⟨x :: pre, z, post, hz, by rw [hparts, List.cons_append], by rw [deletePair, if_neg hpair, hsome]; rfl⟩

theorem deletePairs_eq (fuel : ℕ) (parts : List Str) (hfuel : parts.length ≤ fuel) : deletePairs fuel parts = reduce pardir parts := by
  induction fuel generalizing parts with
  | zero =>
      obtain rfl : parts = [] := List.length_eq_zero_iff.1 (by omega)
      rfl
  | succ fuel ih =>
      rcases deletePair_spec parts with ⟨hnone, hreduced⟩ | ⟨pre, x, post, hx, rfl, hsome⟩
      · rw [deletePairs, hnone, reduce_of_reduced hreduced]
      · have hshort : (pre ++ post).length ≤ fuel := by
          simp only [List.length_append, List.length_cons] at hfuel ⊢
          omega
        rw [deletePairs, hsome, reduce_cancel hx]
        exact ih (pre ++ post) hshort

-- The words of a path but for the ones that stay where they are
def names (p : Str) : List Str := (words separator p).filter (· ≠ curdir)

-- The words of its normal form
def parts (p : Str) : List Str :=
  if isabspath p then root pardir (names p)
  else if reduce pardir (names p) = [] then [curdir] else reduce pardir (names p)

-- The normal form without the separator at its end
def shown (isabs : Bool) (parts : List Str) : Str := (if isabs then path_separator else []) ++ join parts

theorem normpath_eq (p : Str) :
    normpath p = if isdirpath p && !isdirpath (shown (isabspath p) (parts p)) then shown (isabspath p) (parts p) ++ path_separator
      else shown (isabspath p) (parts p) := by
  have hparts : deletePairs (names p).length (names p) = reduce pardir (names p) := deletePairs_eq _ _ (le_refl _)
  unfold normpath shown parts root
  rw [split_at_separators_words]
  dsimp only
  rw [← names, hparts]
  cases isabspath p <;> rfl

theorem of_mem_names {v p : Str} (h : v ∈ names p) : (v ≠ [] ∧ separator ∉ v) ∧ v ≠ curdir := by
  obtain ⟨hmem, hne⟩ := List.mem_filter.1 h
  exact ⟨of_mem_words hmem, by simpa using hne⟩

theorem parts_valid {v p : Str} (h : v ∈ parts p) : v ≠ [] ∧ separator ∉ v := by
  unfold parts at h
  split_ifs at h
  · exact (of_mem_names (mem_of_mem_root h)).1
  · obtain rfl := List.mem_singleton.1 h
    exact ⟨by decide, by decide⟩
  · exact (of_mem_names (mem_of_mem_reduce h)).1

theorem parts_ne_nil {p : Str} (h : isabspath p = false) : parts p ≠ [] := by
  unfold parts
  rw [h, if_neg Bool.false_ne_true]
  split_ifs with hnil
  · exact List.cons_ne_nil _ _
  · exact hnil

theorem curdir_mem_parts {p : Str} (h : curdir ∈ parts p) : parts p = [curdir] ∧ isabspath p = false := by
  unfold parts at h ⊢
  split_ifs at h ⊢ with habs hnil
  · exact absurd rfl (of_mem_names (mem_of_mem_root h)).2
  · exact ⟨rfl, by simpa using habs⟩
  · exact absurd rfl (of_mem_names (mem_of_mem_reduce h)).2

theorem isabspath_shown (p k : Str) : isabspath (shown (isabspath p) (parts p) ++ k) = isabspath p := by
  unfold shown
  cases habs : isabspath p with
  | true => exact isabspath_separator _
  | false =>
      obtain ⟨w, ws, hws⟩ := List.exists_cons_of_ne_nil (parts_ne_nil habs)
      obtain ⟨hne, hw⟩ := parts_valid (v := w) (p := p) (by simp [hws])
      rw [hws]
      exact isabspath_join hne hw ws k

theorem isabspath_normpath (p : Str) : isabspath (normpath p) = isabspath p := by
  rw [normpath_eq]
  split_ifs
  · exact isabspath_shown p path_separator
  · have h := isabspath_shown p []
    rwa [List.append_nil] at h

theorem words_shown (p k : Str) (hk : k = [] ∨ k = path_separator) : words separator (shown (isabspath p) (parts p) ++ k) = parts p := by
  have hjoin : words separator (join (parts p)) = parts p := words_intercalate fun v hv => parts_valid hv
  have hstart : words separator (shown (isabspath p) (parts p)) = parts p := by
    unfold shown
    cases isabspath p with
    | true => exact (words_cons _).trans hjoin
    | false => exact hjoin
  rcases hk with rfl | rfl
  · rwa [List.append_nil]
  · exact (words_concat _).trans hstart

theorem words_normpath (p : Str) : words separator (normpath p) = parts p := by
  rw [normpath_eq]
  split_ifs
  · exact words_shown p path_separator (.inr rfl)
  · have h := words_shown p [] (.inl rfl)
    rwa [List.append_nil] at h

theorem isdirpath_eq (p : Str) : isdirpath p = [[], curdir, pardir].contains (lastPart separator p) := by
  rw [isdirpath, tail_eq]

theorem isdirpath_concat (p : Str) : isdirpath (p ++ path_separator) = true := by
  rw [isdirpath_eq, path_separator, lastPart_append_cons (List.not_mem_nil (a := separator))]
  rfl

theorem dropWhile_concat {w : Str} (hw : w ≠ pardir) (l : List Str) :
    (l ++ [w]).dropWhile (· = pardir) = l.dropWhile (· = pardir) ++ [w] := by
  induction l with
  | nil => exact List.dropWhile_cons_of_neg (by simpa using hw)
  | cons x l ih =>
      by_cases hx : x = pardir
      · rw [List.cons_append, List.dropWhile_cons_of_pos (by simpa using hx), ih, List.dropWhile_cons_of_pos (by simpa using hx)]
      · rw [List.cons_append, List.dropWhile_cons_of_neg (by simpa using hx), List.dropWhile_cons_of_neg (by simpa using hx)]
        rfl

-- The last part of a path that names no directory is its last word, which no step takes back.
theorem exists_last_part {p : Str} (h : isdirpath p = false) :
    ∃ us w, parts p = us ++ [w] ∧ separator ∉ w ∧ w ∉ [[], curdir, pardir] := by
  rw [isdirpath_eq] at h
  have hlast : lastPart separator p ∉ [[], curdir, pardir] := fun hmem => by
    rw [List.contains_iff_mem.2 hmem] at h
    exact absurd h (by decide)
  obtain ⟨ws, hws, hsep⟩ : ∃ ws, words separator p = ws ++ [lastPart separator p] ∧ separator ∉ lastPart separator p := by
    rcases exists_last separator p with hp | ⟨s, w, rfl, hw⟩
    · rw [lastPart_of_notMem hp] at hlast ⊢
      exact ⟨[], words_of_notMem (fun hnil => hlast (by simp [hnil])) hp, hp⟩
    · rw [lastPart_append_cons hw] at hlast ⊢
      exact ⟨words separator s, by rw [words_append_cons, words_of_notMem (fun hnil => hlast (by simp [hnil])) hw], hw⟩
  generalize lastPart separator p = w at hlast hws hsep
  simp only [List.mem_cons, List.not_mem_nil, or_false, not_or] at hlast
  have hnames : names p = ws.filter (· ≠ curdir) ++ [w] := by
    rw [names, hws, List.filter_append, List.filter_cons_of_pos (by simpa using hlast.2.1), List.filter_nil]
  have hreduce := reduce_concat hlast.2.2 (ws.filter (· ≠ curdir))
  unfold parts root
  rw [hnames, hreduce, dropWhile_concat hlast.2.2]
  split_ifs with habs hnil
  · exact ⟨_, w, rfl, hsep, by simpa using hlast⟩
  · exact absurd hnil (List.append_ne_nil_of_right_ne_nil _ (List.cons_ne_nil w []))
  · exact ⟨_, w, rfl, hsep, by simpa using hlast⟩

theorem isdirpath_shown {p : Str} (h : isdirpath p = false) : isdirpath (shown (isabspath p) (parts p)) = false := by
  obtain ⟨us, w, hparts, hsep, hw⟩ := exists_last_part h
  have hlast : lastPart separator (shown (isabspath p) (parts p)) = w := by
    rw [hparts, shown]
    by_cases hus : us = []
    · subst hus
      rw [List.nil_append, join, List.intercalate_singleton]
      cases isabspath p with
      | true => exact lastPart_append_cons hsep []
      | false => exact lastPart_of_notMem hsep
    · rw [join_concat hus, ← List.append_assoc]
      exact lastPart_append_cons hsep _
  rw [isdirpath_eq, hlast]
  exact Bool.eq_false_iff.2 fun hmem => hw (List.contains_iff_mem.1 hmem)

theorem isdirpath_normpath (p : Str) : isdirpath (normpath p) = isdirpath p := by
  rw [normpath_eq]
  cases hdir : isdirpath p with
  | false => exact isdirpath_shown hdir
  | true =>
      cases hshown : isdirpath (shown (isabspath p) (parts p)) with
      | true => exact hshown
      | false => exact isdirpath_concat _

-- The words of a normal form are their own normal form.
theorem parts_normpath (p : Str) : parts (normpath p) = parts p := by
  by_cases hcur : curdir ∈ parts p
  · obtain ⟨hparts, habs⟩ := curdir_mem_parts hcur
    have hnames : names (normpath p) = [] := by
      rw [names, words_normpath, hparts]
      rfl
    rw [hparts, parts, isabspath_normpath, habs, hnames]
    rfl
  · have hnames : names (normpath p) = parts p := by
      rw [names, words_normpath, List.filter_eq_self]
      exact fun v hv => by simpa using fun heq : v = curdir => hcur (heq ▸ hv)
    cases habs : isabspath p with
    | true =>
        have hroot : parts p = root pardir (names p) := by rw [parts, habs, if_pos rfl]
        rw [parts, isabspath_normpath, habs, if_pos rfl, hnames, hroot]
        exact root_of_notMem (up_notMem_root _)
    | false =>
        have hne := parts_ne_nil habs
        have hreduce : parts p = reduce pardir (names p) := by
          unfold parts at hcur ⊢
          rw [habs, if_neg Bool.false_ne_true] at hcur ⊢
          split_ifs at hcur ⊢
          · exact absurd (List.mem_singleton.2 rfl) hcur
          · rfl
        have hfix : reduce pardir (parts p) = parts p := by
          rw [hreduce]
          exact reduce_of_reduced (reduced_reduce _)
        rw [parts, isabspath_normpath, habs, if_neg Bool.false_ne_true, hnames, hfix, if_neg hne]

theorem normpath_idempotent (p : Str) : normpath (normpath p) = normpath p := by
  rw [normpath_eq (normpath p), isdirpath_normpath, isabspath_normpath, parts_normpath, ← normpath_eq]

theorem reduced_parts (p : Str) : Reduced pardir (parts p) := by
  unfold parts
  split_ifs
  · exact reduced_of_notMem (up_notMem_root _)
  · exact List.isChain_singleton _
  · exact reduced_reduce _

theorem pardir_notMem_parts {p : Str} (habs : isabspath p = true) : pardir ∉ parts p := by
  rw [parts, habs, if_pos rfl]
  exact up_notMem_root _

theorem normpath_curdir {p : Str} (h : curdir ∈ words separator (normpath p)) : normpath p = curdir := by
  rw [words_normpath] at h
  obtain ⟨hparts, habs⟩ := curdir_mem_parts h
  rw [normpath_eq, hparts, habs]
  cases isdirpath p <;> rfl

end Normal

end Joolia.Path
