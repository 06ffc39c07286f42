import Joolia.Base.Path.Theorems

namespace Joolia.Path

open Separated Cancel

section Common

variable {l m c l' m' : List Str}

-- Nothing more in common
def Apart (l m : List Str) : Prop := l = [] ∨ m = [] ∨ l.head? ≠ m.head?

theorem exists_common (l m : List Str) : ∃ c l' m', l = c ++ l' ∧ m = c ++ m' ∧ Apart l' m' := by
  induction l generalizing m with
  | nil => exact ⟨[], [], m, rfl, rfl, .inl rfl⟩
  | cons x l ih =>
      cases m with
      | nil => exact ⟨[], x :: l, [], rfl, rfl, .inr (.inl rfl)⟩
      | cons y m =>
          by_cases hxy : x = y
          · subst hxy
            obtain ⟨c, l', m', rfl, rfl, happart⟩ := ih m
            exact ⟨x :: c, l', m', rfl, rfl, happart⟩
          · exact ⟨[], x :: l, y :: m, rfl, rfl, .inr (.inr (by simpa using hxy))⟩

-- Equal lists have everything in common.
theorem Apart.eq_nil (h : Apart l l) : l = [] := by
  rcases h with h | h | h
  · exact h
  · exact h
  · exact absurd rfl h

theorem commonIndex_apart (h : Apart l m) (c : List Str) :
    commonIndex (c ++ l) (c ++ m) (min l.length m.length) (c.length - 1) = c.length - 1 := by
  cases l with
  | nil => rw [List.length_nil, Nat.zero_min, commonIndex]
  | cons x l =>
      cases m with
      | nil => rw [List.length_nil, Nat.min_zero, commonIndex]
      | cons y m =>
          have hxy : x ≠ y := by
            rcases h with h | h | h
            · exact absurd h (List.cons_ne_nil x l)
            · exact absurd h (List.cons_ne_nil y m)
            · exact fun heq => h (by rw [heq]; rfl)
          have hat : ((c.length : ℤ) - 1 + 1).toNat = c.length := by omega
          have hne : (c ++ x :: l)[c.length]? ≠ (c ++ y :: m)[c.length]? := by
            simpa using hxy
          rw [List.length_cons, List.length_cons, Nat.add_min_add_right, commonIndex, hat, if_pos hne]
          omega

-- The loop stops at the last position of what the two lists have in common.
theorem commonIndex_from (h : Apart l m) (pre c : List Str) :
    commonIndex (pre ++ (c ++ l)) (pre ++ (c ++ m)) (min (c ++ l).length (c ++ m).length) (pre.length - 1) =
      (pre ++ c).length - 1 := by
  induction c generalizing pre with
  | nil =>
      rw [List.append_nil]
      exact commonIndex_apart h pre
  | cons x c ih =>
      have hat : ((pre.length : ℤ) - 1 + 1).toNat = pre.length := by omega
      have heq : (pre ++ (x :: c ++ l))[pre.length]? = (pre ++ (x :: c ++ m))[pre.length]? := by simp
      have hrec := ih (pre ++ [x])
      have hlen : ((pre ++ [x]).length : ℤ) - 1 = pre.length - 1 + 1 := by
        rw [List.length_append, List.length_singleton]
        omega
      rw [hlen, List.append_assoc, List.append_assoc, List.singleton_append, List.singleton_append, List.append_assoc,
        List.singleton_append] at hrec
      rw [List.cons_append, List.cons_append, List.length_cons, List.length_cons, Nat.add_min_add_right, commonIndex, hat]
      rw [List.cons_append, List.cons_append] at heq
      rw [if_neg (not_not.2 heq)]
      exact hrec

theorem commonIndex_eq (h : Apart l m) (c : List Str) :
    commonIndex (c ++ l) (c ++ m) (min (c ++ l).length (c ++ m).length) (-1) = c.length - 1 :=
  commonIndex_from h [] c

theorem lastNonempty_eq (hl : ∀ w ∈ l, w ≠ []) (m : List Str) (hm : ∀ w ∈ m, w = []) :
    lastNonempty ([] :: (l ++ m)) = if l = [] then -1 else (l.length : ℤ) := by
  have hdrop : ([] :: (l ++ m)).rdropWhile (· = []) = ([] :: l).rdropWhile (· = []) := by
    induction m using List.reverseRecOn with
    | nil => rw [List.append_nil]
    | append_singleton m w ih =>
        have hw : w = [] := hm w (by simp)
        have hcat : [] :: (l ++ (m ++ [w])) = ([] :: (l ++ m)) ++ [w] := by simp
        rw [hcat, List.rdropWhile_concat_pos _ _ _ (by simpa using hw)]
        exact ih fun v hv => hm v (by simp [hv])
  rw [lastNonempty, hdrop]
  split_ifs with hnil
  · rw [hnil]
    rfl
  · obtain ⟨l, w, rfl⟩ := (List.eq_nil_or_concat' l).resolve_left hnil
    have hw : w ≠ [] := hl w (by simp)
    rw [← List.cons_append, List.rdropWhile_concat_neg _ _ _ (by simpa using hw)]
    simp only [List.cons_append, List.length_cons]
    omega

end Common

section Steps

variable {cwd a b : Str}

-- Up from one directory to what it shares with the other path, then down.
def steps (up down : List Str) : List Str := List.replicate up.length pardir ++ down

theorem repeated_succ (s : Str) (n : ℕ) : repeated s (n + 1 : ℕ) = s ++ repeated s n := by
  simp [repeated, List.replicate_succ]

theorem join_steps (n : ℕ) {down : List Str} (hdown : ∀ w ∈ down, w ≠ []) :
    (if join down = [] then repeated (pardir ++ path_separator) n ++ pardir
      else repeated (pardir ++ path_separator) n ++ (pardir ++ (path_separator ++ join down))) =
      join (List.replicate (n + 1) pardir ++ down) := by
  induction n with
  | zero =>
      cases down with
      | nil => rfl
      | cons w down =>
          obtain ⟨t, ht⟩ := exists_join_cons w down
          have hne : join (w :: down) ≠ [] := by
            rw [ht]
            exact List.append_ne_nil_of_left_ne_nil (hdown w (by simp)) t
          rw [if_neg hne, List.replicate_succ, List.replicate_zero, List.cons_append, List.nil_append, join_cons_cons]
          rfl
  | succ n ih =>
      have hhead : List.replicate (n + 1) pardir ++ down = pardir :: (List.replicate n pardir ++ down) := by
        rw [List.replicate_succ, List.cons_append]
      rw [hhead] at ih
      rw [List.replicate_succ, List.cons_append, hhead, join_cons_cons, ← ih, repeated_succ]
      split_ifs <;> simp only [List.append_assoc]

-- What the arrays of an absolute path hold.
theorem exists_tail (cwd : Str) (habs : isabspath a = true) :
    ∃ tail, split_at_separators (abspath cwd a) true = [] :: (parts a ++ tail) ∧ (tail = [] ∨ tail = [[]]) := by
  rw [abspath, if_pos habs]
  have hnorm : isabspath (normpath a) = true := by rw [isabspath_normpath, habs]
  obtain ⟨t, ht⟩ : ∃ t, normpath a = separator :: t := by
    cases hn : normpath a with
    | nil =>
        rw [hn] at hnorm
        exact absurd hnorm Bool.false_ne_true
    | cons c t =>
        rw [hn] at hnorm
        exact ⟨t, by simpa [isabspath, isseparator] using hnorm⟩
  have hwords : words separator t = parts a := by rw [← words_normpath, ht, words_cons]
  rw [ht, split_at_separators_abs, hwords]
  refine ⟨_, rfl, ?_⟩
  split_ifs
  · exact .inr rfl
  · exact .inl rfl

-- The empty part behind a separator at the end is common only if nothing else is left.
theorem apart_tails {up down : List Str} (happart : Apart down up) (hdown : ∀ w ∈ down, w ≠ []) (hup : ∀ w ∈ up, w ≠ []) {tb ta : List Str}
    (htb : tb = [] ∨ tb = [[]]) (hta : ta = [] ∨ ta = [[]]) :
    Apart (down ++ tb) (up ++ ta) ∨ (down = [] ∧ up = [] ∧ tb = [[]] ∧ ta = [[]]) := by
  cases down with
  | nil =>
      rcases htb with rfl | rfl
      · exact .inl (.inl rfl)
      · cases up with
        | nil =>
            rcases hta with rfl | rfl
            · exact .inl (.inr (.inl rfl))
            · exact .inr ⟨rfl, rfl, rfl, rfl⟩
        | cons y up =>
            have hy : y ≠ [] := hup y (by simp)
            exact .inl (.inr (.inr (by simpa using Ne.symm hy)))
  | cons x down =>
      cases up with
      | nil =>
          have hx : x ≠ [] := hdown x (by simp)
          rcases hta with rfl | rfl
          · exact .inl (.inr (.inl rfl))
          · exact .inl (.inr (.inr (by simpa using hx)))
      | cons y up =>
          refine .inl (.inr (.inr ?_))
          rcases happart with h | h | h
          · exact absurd h (List.cons_ne_nil x down)
          · exact absurd h (List.cons_ne_nil y up)
          · simpa using h

theorem commonIndex_tails {c up down : List Str} (happart : Apart down up) (hdown : ∀ w ∈ down, w ≠ []) (hup : ∀ w ∈ up, w ≠ [])
    {tb ta : List Str} (htb : tb = [] ∨ tb = [[]]) (hta : ta = [] ∨ ta = [[]]) {path_arr start_arr : List Str}
    (hpath : path_arr = [] :: (c ++ down ++ tb)) (hstart : start_arr = [] :: (c ++ up ++ ta)) :
    ∃ i : ℤ, commonIndex path_arr start_arr (min path_arr.length start_arr.length) (-1) = i ∧
      (i = c.length ∨ (down = [] ∧ up = [] ∧ i = c.length + 1)) := by
  rcases apart_tails happart hdown hup htb hta with h | ⟨rfl, rfl, rfl, rfl⟩
  · refine ⟨_, rfl, .inl ?_⟩
    have hindex := commonIndex_eq h ([] :: c)
    rw [hpath, hstart, List.append_assoc, List.append_assoc]
    refine hindex.trans ?_
    rw [List.length_cons, Nat.cast_succ, Int.add_sub_cancel]
  · refine ⟨_, rfl, .inr ⟨rfl, rfl, ?_⟩⟩
    have hindex := commonIndex_eq (.inl rfl : Apart [] []) ([] :: (c ++ [[]]))
    rw [List.append_nil] at hindex
    rw [hpath, hstart, List.append_nil]
    refine hindex.trans ?_
    rw [List.length_cons, Nat.cast_succ, Int.add_sub_cancel, List.length_append, List.length_singleton, Nat.cast_succ]

-- The slice behind the common positions
theorem pathpart_eq {c down tb : List Str} (hne : ∀ w ∈ c ++ down, w ≠ []) (htb : ∀ w ∈ tb, w = []) {i : ℤ}
    (hi : i = c.length ∨ (down = [] ∧ i = c.length + 1)) {path_arr : List Str} (hpath : path_arr = [] :: (c ++ down ++ tb)) :
    (path_arr.take (lastNonempty path_arr + 1).toNat).drop (i + 1).toNat = down := by
  subst hpath
  rw [lastNonempty_eq hne tb htb]
  have hdrop : ([] :: (c ++ down)).drop (i + 1).toNat = down := by
    rcases hi with rfl | ⟨rfl, rfl⟩
    · have hat : ((c.length : ℤ) + 1).toNat = c.length + 1 := by omega
      rw [hat, List.drop_succ_cons, List.drop_left]
    · have hat : ((c.length : ℤ) + 1 + 1).toNat = c.length + 1 + 1 := by omega
      rw [hat, List.append_nil, List.drop_succ_cons, List.drop_of_length_le (Nat.le_succ _)]
  split_ifs with hnil
  · obtain ⟨-, rfl⟩ := List.append_eq_nil_iff.1 hnil
    exact List.drop_nil
  · have hat : (((c ++ down).length : ℤ) + 1).toNat = (c ++ down).length + 1 := by omega
    rw [hat, List.take_succ_cons, List.take_left, hdrop]

theorem prefix_num_eq {c up ta : List Str} (hne : ∀ w ∈ c ++ up, w ≠ []) (hta : ∀ w ∈ ta, w = []) {i : ℤ}
    (hi : i = c.length ∨ (up = [] ∧ i = c.length + 1)) {start_arr : List Str} (hstart : start_arr = [] :: (c ++ up ++ ta)) :
    (up = [] ∧ lastNonempty start_arr - i - 1 < 0) ∨ (up ≠ [] ∧ lastNonempty start_arr - i - 1 = (up.length : ℤ) - 1) := by
  subst hstart
  rw [lastNonempty_eq hne ta hta]
  by_cases hup : up = []
  · subst hup
    refine .inl ⟨rfl, ?_⟩
    rw [List.append_nil]
    split_ifs <;> omega
  · have hcat : c ++ up ≠ [] := List.append_ne_nil_of_right_ne_nil c hup
    obtain rfl : i = c.length := hi.resolve_right fun h => hup h.1
    refine .inr ⟨hup, ?_⟩
    rw [if_neg hcat, List.length_append, Nat.cast_add]
    omega

theorem relpath_eq (cwd : Str) (hpath : isabspath b = true) (hstart : isabspath a = true) {c up down : List Str} (hup : parts a = c ++ up)
    (hdown : parts b = c ++ down) (happart : Apart down up) :
    relpath cwd b a = .ok (if steps up down = [] then curdir else join (steps up down)) := by
  have hne : ∀ {p : Str}, isabspath p = true → p ≠ [] := fun habs hnil => by
    rw [hnil] at habs
    exact absurd habs Bool.false_ne_true
  rw [relpath, if_neg (hne hpath), if_neg (hne hstart)]
  by_cases hsame : b = a
  · subst hsame
    obtain rfl : up = down := List.append_cancel_left (hup.symm.trans hdown)
    rw [happart.eq_nil, if_pos rfl, if_pos]
    rfl
  obtain ⟨tb, hb, htb⟩ := exists_tail cwd hpath
  obtain ⟨ta, ha, hta⟩ := exists_tail cwd hstart
  rw [hdown] at hb
  rw [hup] at ha
  have hnonempty : ∀ {p : Str}, ∀ w ∈ parts p, w ≠ [] := fun w hw => (parts_valid hw).1
  have hbs : ∀ w ∈ c ++ down, w ≠ [] := hdown ▸ hnonempty
  have has : ∀ w ∈ c ++ up, w ≠ [] := hup ▸ hnonempty
  have hdowns : ∀ w ∈ down, w ≠ [] := fun w hw => hbs w (by simp [hw])
  have hups : ∀ w ∈ up, w ≠ [] := fun w hw => has w (by simp [hw])
  have hblank : ∀ {t : List Str}, t = [] ∨ t = [[]] → ∀ w ∈ t, w = [] := by
    rintro t (rfl | rfl) w hw
    · exact absurd hw List.not_mem_nil
    · exact List.mem_singleton.1 hw
  obtain ⟨i, hindex, hi⟩ := commonIndex_tails happart hdowns hups htb hta hb ha
  have hpart := pathpart_eq hbs (hblank htb) (hi.imp_right fun h => ⟨h.1, h.2.2⟩) hb
  have hnum := prefix_num_eq has (hblank hta) (hi.imp_right fun h => ⟨h.2.1, h.2.2⟩) ha
  rw [if_neg hsame]
  dsimp only
  rw [hindex, hpart]
  refine congrArg Except.ok ?_
  have hjoin : (if lastNonempty (split_at_separators (abspath cwd a) true) - i - 1 ≥ 0 then
      if join down = [] then
        repeated (pardir ++ path_separator) (lastNonempty (split_at_separators (abspath cwd a) true) - i - 1) ++ pardir
      else repeated (pardir ++ path_separator) (lastNonempty (split_at_separators (abspath cwd a) true) - i - 1) ++
        (pardir ++ (path_separator ++ join down))
      else join down) = join (steps up down) := by
    rcases hnum with ⟨rfl, hneg⟩ | ⟨hne, hnum⟩
    · rw [if_neg (by omega)]
      rfl
    · obtain ⟨n, hn⟩ := Nat.exists_eq_succ_of_ne_zero (mt List.length_eq_zero_iff.1 hne)
      have hcount : (up.length : ℤ) - 1 = n := by omega
      rw [hnum, hcount, if_pos (Int.natCast_nonneg n), join_steps n hdowns, steps, hn]
  rw [hjoin]
  have hsteps : ∀ w ∈ steps up down, w ≠ [] := by
    intro w hw
    rcases List.mem_append.1 hw with hw | hw
    · rw [List.eq_of_mem_replicate hw]
      exact List.cons_ne_nil _ _
    · exact hdowns w hw
  cases hlist : steps up down with
  | nil => rfl
  | cons w ws =>
      obtain ⟨t, ht⟩ := exists_join_cons w ws
      have hw : w ≠ [] := hsteps w (by rw [hlist]; simp)
      rw [if_neg, if_neg (List.cons_ne_nil w ws)]
      rw [ht]
      exact List.append_ne_nil_of_left_ne_nil hw t

end Steps

section RoundTrip

variable {cwd a b p r : Str}

-- What is joined to a path adds its words.
theorem words_joinNext (hr : isabspath r = false) (p : Str) : words separator (joinNext p r) = words separator p ++ words separator r := by
  rw [joinNext, hr, if_neg Bool.false_ne_true]
  split_ifs with hend
  · rcases hend with rfl | hend
    · rw [List.nil_append, words_nil, List.nil_append]
    · obtain ⟨s, rfl⟩ := List.getLast?_eq_some_iff.1 hend
      rw [List.append_assoc, List.singleton_append, words_append_cons, words_concat]
  · exact words_append_cons p r

theorem isabspath_joinNext (hp : isabspath p = true) (r : Str) : isabspath (joinNext p r) = true := by
  have hne : p ≠ [] := fun hnil => by
    rw [hnil] at hp
    exact absurd hp Bool.false_ne_true
  unfold joinNext
  split_ifs with hr hend
  · exact hr
  · rw [isabspath_append hne, hp]
  · rw [isabspath_append hne, hp]

-- Equal up to a separator at the end
def SameUpToSeparator (s t : Str) : Prop := s = t ∨ s = t ++ path_separator ∨ t = s ++ path_separator

theorem same_of_parts (ha : isabspath a = isabspath b) (hparts : parts a = parts b) : SameUpToSeparator (normpath a) (normpath b) := by
  rw [normpath_eq, normpath_eq, ha, hparts]
  split_ifs
  · exact .inl rfl
  · exact .inr (.inl rfl)
  · exact .inr (.inr rfl)
  · exact .inl rfl

theorem steps_mem {up down : List Str} {w : Str} (h : w ∈ steps up down) : w = pardir ∨ w ∈ down := by
  rcases List.mem_append.1 h with h | h
  · exact .inl (List.eq_of_mem_replicate h)
  · exact .inr h

-- Down from the one directory is back up, and then to the other.
theorem root_steps {k c up down : List Str} (hk : root pardir k = c ++ up) (hup : pardir ∉ up) (hdown : pardir ∉ c ++ down) :
    root pardir (k ++ steps up down) = c ++ down := by
  have hcancel : reduce pardir (up ++ steps up down) = reduce pardir down := reduce_ups hup down
  calc root pardir (k ++ steps up down) = root pardir (c ++ up ++ steps up down) := by rw [← hk, root_append_left]
    _ = root pardir (c ++ (up ++ steps up down)) := by rw [List.append_assoc]
    _ = root pardir (c ++ down) := by
        unfold root
        rw [← reduce_append_right, hcancel, reduce_append_right]
    _ = c ++ down := root_of_notMem hdown

theorem relpath_roundtrip (cwd : Str) (ha : isabspath a = true) (hb : isabspath b = true) :
    ∃ r path, relpath cwd b a = .ok r ∧ joinpath [a, r] = .ok path ∧ SameUpToSeparator (normpath path) (normpath b) := by
  obtain ⟨c, down, up, hdown, hup, happart⟩ := exists_common (parts b) (parts a)
  have hpardir : pardir ∉ c ++ down := hdown ▸ pardir_notMem_parts hb
  have hpardirs : pardir ∉ up := fun hmem => pardir_notMem_parts ha (by rw [hup]; exact List.mem_append_right c hmem)
  have hwords : ∀ w ∈ steps up down, (w ≠ [] ∧ separator ∉ w) ∧ w ≠ curdir := by
    intro w hw
    rcases steps_mem hw with rfl | hw
    · exact ⟨⟨by decide, by decide⟩, by decide⟩
    · have hmem : w ∈ parts b := by
        rw [hdown]
        exact List.mem_append_right c hw
      refine ⟨parts_valid hmem, fun hcur => ?_⟩
      have habs := (curdir_mem_parts (hcur ▸ hmem)).2
      rw [hb] at habs
      exact absurd habs.symm Bool.false_ne_true
  have hrel := relpath_eq cwd hb ha hup hdown happart
  refine ⟨_, _, hrel, rfl, same_of_parts ?_ ?_⟩
  · rw [hb]
    exact isabspath_joinNext ha _
  · have hr : isabspath (if steps up down = [] then curdir else join (steps up down)) = false := by
      cases hlist : steps up down with
      | nil => rfl
      | cons w ws =>
          obtain ⟨hw, -⟩ := hwords w (by rw [hlist]; simp)
          have hstart := isabspath_join hw.1 hw.2 ws []
          rwa [List.append_nil] at hstart
    have hnamed : names (joinNext a (if steps up down = [] then curdir else join (steps up down))) = names a ++ steps up down := by
      rw [names, words_joinNext hr, List.filter_append]
      refine congrArg (names a ++ ·) ?_
      split_ifs with hnil
      · rw [hnil]
        rfl
      · have hjoin : words separator (join (steps up down)) = steps up down := words_intercalate fun w hw => (hwords w hw).1
        rw [hjoin, List.filter_eq_self]
        exact fun w hw => by simpa using (hwords w hw).2
    have habs : isabspath (joinNext a (if steps up down = [] then curdir else join (steps up down))) = true := isabspath_joinNext ha _
    have hroot : root pardir (names a) = c ++ up := by
      rw [← hup, parts, if_pos ha]
    show parts (joinNext a _) = parts b
    rw [parts, if_pos habs, hnamed, root_steps hroot hpardirs hpardir, hdown]

theorem path_functions_agree :
    (∀ p, (splitext p).1 ++ (splitext p).2 = p) ∧
    (∀ p, joinpath (splitpath p) = .ok (trimmed (collapsed p))) ∧
    (∀ p, normpath (normpath p) = normpath p ∧
      (curdir ∈ words separator (normpath p) → normpath p = curdir ∨ normpath p = curdir ++ path_separator) ∧
      (words separator (normpath p)).IsChain (fun x y => y = pardir → x = pardir) ∧
      (isabspath p = true → pardir ∉ words separator (normpath p))) ∧
    ∀ cwd a b, isabspath a = true → isabspath b = true →
      ∃ r path, relpath cwd b a = .ok r ∧ joinpath [a, r] = .ok path ∧ SameUpToSeparator (normpath path) (normpath b) := by
  refine ⟨splitext_append, joinpath_splitpath_eq, fun p => ⟨normpath_idempotent p, fun h => .inl (normpath_curdir h), ?_, fun habs => ?_⟩,
    fun cwd a b ha hb => relpath_roundtrip cwd ha hb⟩
  · rw [words_normpath]
    exact reduced_parts p
  · rw [words_normpath]
    exact pardir_notMem_parts habs

-- From `/x/y` to `/x/z`
theorem path_functions_agree_sibling :
    isabspath [separator, 120, separator, 121] = true ∧ isabspath [separator, 120, separator, 122] = true ∧
      ∃ r path, relpath [separator] [separator, 120, separator, 122] [separator, 120, separator, 121] = .ok r ∧
        joinpath [[separator, 120, separator, 121], r] = .ok path ∧
        SameUpToSeparator (normpath path) (normpath [separator, 120, separator, 122]) :=
  ⟨by decide, by decide, path_functions_agree.2.2.2 _ _ _ (by decide) (by decide)⟩

end RoundTrip

end Joolia.Path
