import Joolia.Base.Version.Order

namespace Joolia.Version

open Regex

section Languages

theorem mem_lang_char {c : Char} {w : List Char} : w ∈ lang (char c) ↔ w = [c] := by
  constructor
  · rintro ⟨d, hd, rfl⟩
    rw [beq_iff_eq.mp hd]
  · rintro rfl
    exact ⟨c, by simp, rfl⟩

theorem dottedWords_ne_nil {w : List Char} (h : w ∈ lang dottedWords) : w ≠ [] := by
  obtain ⟨x, -, y, hy, rfl⟩ := Language.mem_mul.mp h
  have hne := (mem_lang_plus_chars.mp hy).1
  simp [hne]

-- A pre-release begins with a letter, or with a dash and something behind it.
theorem prerelease_head {w : List Char} (h : w ∈ lang prereleaseRegex) :
    ∃ c w', w = c :: w' ∧ (isLetter c = true ∨ (c = '-' ∧ w' ≠ [])) := by
  rcases h with h | h
  · obtain ⟨x, ⟨c, hc, rfl⟩, y, -, rfl⟩ := Language.mem_mul.mp h
    exact ⟨c, y, rfl, .inl hc⟩
  · obtain ⟨x, hx, y, hy, rfl⟩ := Language.mem_mul.mp h
    rw [mem_lang_char.mp hx]
    exact ⟨'-', y, rfl, .inr ⟨rfl, dottedWords_ne_nil hy⟩⟩

theorem over_dottedWords : Over (fun c => isWord c = true ∨ c = '.') dottedWords := by
  have hword : ∀ c, isWord c = true → isWord c = true ∨ c = '.' := fun c hc => .inl hc
  have hdot : ∀ c : Char, (c == '.') = true → isWord c = true ∨ c = '.' := fun c hc => .inr (beq_iff_eq.mp hc)
  exact ⟨⟨⟨hword, hword⟩, hdot⟩, hword, hword⟩

theorem over_prerelease : Over (fun c => isWord c = true ∨ c = '.') prereleaseRegex := by
  have hword : ∀ c, isWord c = true → isWord c = true ∨ c = '.' := fun c hc => .inl hc
  have hdot : ∀ c : Char, (c == '.') = true → isWord c = true ∨ c = '.' := fun c hc => .inr (beq_iff_eq.mp hc)
  have hletter : ∀ c, isLetter c = true → isWord c = true ∨ c = '.' := by
    intro c hc
    rw [isWord, isLetterOrDash, hc]
    simp
  have hdash : ∀ c : Char, (c == '-') = true → isWord c = true ∨ c = '.' := by
    intro c hc
    rw [beq_iff_eq.mp hc]
    exact .inl (by decide)
  exact ⟨⟨hletter, hword, hdot, hword, hword⟩, hdash, over_dottedWords⟩

theorem ne_of_letters {c : Char} (h : isWord c = true ∨ c = '.') : c ≠ '+' ∧ c ≠ '\n' := by
  rcases h with h | rfl
  · exact (isWord_cases h).2
  · decide

end Languages

section Tail

variable {s t : Point}

-- How the end of the expression can match.
theorem tail_cases (h : t ∈ run tailRegex s) : (t.rest = [] ∨ t.rest = ['\n']) ∧
    ((s.rest = '-' :: t.rest ∧ t.groups = (4, ['-']) :: s.groups) ∨
      ∃ w r gs, ((w = [] ∧ gs = s.groups) ∨ (w ∈ lang prereleaseRegex ∧ gs = (5, w) :: s.groups)) ∧
        s.rest = w ++ r ∧
        ((r = '+' :: t.rest ∧ t.groups = (6, ['+']) :: gs) ∨
          (∃ w' ∈ lang dottedWords, r = '+' :: (w' ++ t.rest) ∧ t.groups = (7, w') :: gs) ∨
          (r = t.rest ∧ t.groups = gs))) := by
  have hplain : Plain prereleaseRegex := by simp [prereleaseRegex, dottedWords, plus, letter, word, char, Plain]
  have hwords : Plain dottedWords := by simp [dottedWords, plus, word, char, Plain]
  have hmark : ∀ c, Plain (char c) := fun c => trivial
  obtain ⟨u, hu, hstop⟩ := mem_run_seq.mp h
  obtain ⟨rfl, hend⟩ := mem_run_stop.mp hstop
  refine ⟨hend, ?_⟩
  rcases mem_run_alt.mp hu with hu | hu
  · obtain ⟨w, hw, hrest, -, hgroups⟩ := (mem_run_group (hmark _)).mp hu
    rw [mem_lang_char.mp hw] at hrest hgroups
    exact .inl ⟨hrest, hgroups⟩
  · obtain ⟨x, hx, hbuild⟩ := mem_run_seq.mp hu
    refine .inr ?_
    obtain ⟨w, hw, hrest⟩ : ∃ w, ((w = [] ∧ x.groups = s.groups) ∨
        (w ∈ lang prereleaseRegex ∧ x.groups = (5, w) :: s.groups)) ∧ s.rest = w ++ x.rest := by
      rcases mem_run_opt.mp hx with hx | rfl
      · obtain ⟨w, hw, hrest, -, hgroups⟩ := (mem_run_group hplain).mp hx
        exact ⟨w, .inr ⟨hw, hgroups⟩, hrest⟩
      · exact ⟨[], .inl ⟨rfl, rfl⟩, rfl⟩
    refine ⟨w, x.rest, x.groups, hw, hrest, ?_⟩
    rcases mem_run_alt.mp hbuild with hplus | hbuild
    · obtain ⟨v, hv, hrest', -, hgroups⟩ := (mem_run_group (hmark _)).mp hplus
      rw [mem_lang_char.mp hv] at hrest' hgroups
      exact .inl ⟨hrest', hgroups⟩
    · rcases mem_run_opt.mp hbuild with hbuild | rfl
      · obtain ⟨y, hy, hgroup⟩ := mem_run_seq.mp hbuild
        obtain ⟨c, hc, hrest', -, hgroups⟩ := mem_run_chars.mp hy
        obtain ⟨v, hv, hrest'', -, hgroups'⟩ := (mem_run_group hwords).mp hgroup
        rw [beq_iff_eq.mp hc] at hrest'
        exact .inr (.inl ⟨v, hv, by rw [hrest', hrest''], by rw [hgroups', hgroups]⟩)
      · exact .inr (.inr ⟨rfl, rfl⟩)

-- A character that no part begins with.
def Stuck (c : Char) : Prop := c ≠ '-' ∧ c ≠ '+' ∧ isLetter c = false ∧ c ≠ '\n'

theorem tail_stuck {c : Char} {r : List Char} (hrest : s.rest = c :: r) (hc : Stuck c) : t ∉ run tailRegex s := by
  obtain ⟨hdash, hplus, hletter, hnewline⟩ := hc
  intro h
  obtain ⟨hend, ⟨hfirst, -⟩ | ⟨w, r', gs, hw, hsplit, hbuild⟩⟩ := tail_cases h
  · rw [hrest] at hfirst
    exact hdash (List.cons.inj hfirst).1
  · have hw' : w = [] := by
      rcases hw with ⟨hw, -⟩ | ⟨hw, -⟩
      · exact hw
      · obtain ⟨d, w', rfl, hd⟩ := prerelease_head hw
        rw [hrest, List.cons_append] at hsplit
        obtain ⟨rfl, -⟩ := List.cons.inj hsplit
        rcases hd with hd | ⟨hd, -⟩
        · rw [hletter] at hd
          cases hd
        · exact absurd hd hdash
    subst hw'
    rw [hrest, List.nil_append] at hsplit
    rcases hbuild with ⟨hr, -⟩ | ⟨w', -, hr, -⟩ | ⟨hr, -⟩
    · rw [hr] at hsplit
      exact hplus (List.cons.inj hsplit).1
    · rw [hr] at hsplit
      exact hplus (List.cons.inj hsplit).1
    · rw [hr] at hsplit
      rcases hend with hend | hend
      · rw [hend] at hsplit
        cases hsplit
      · rw [hend] at hsplit
        exact hnewline (List.cons.inj hsplit).1

end Tail

section Parts

-- A part behind its mark.
def partText (mark : Char) (idents : List Ident) : List Char := if idents.isEmpty then [] else mark :: joined idents

theorem printPart_eq (mem : ℕ → UInt8) (mark : Char) (idents : List Ident) :
    printPart mem mark idents = .ok (partText mark idents) := by
  rw [printPart, partText, joinIdents_eq]
  split_ifs with h
  · rfl
  · rfl

-- The group that a part sets: its mark alone, or its words.
def partGroups (k : ℕ) (mark : Char) (words : List Char) (idents : List Ident) : List (ℕ × List Char) :=
  if idents = [] then [] else if idents = [.str []] then [(k, [mark])] else [(k + 1, words)]

-- The parts that are read back.
structure Readable (pre bld : List Ident) : Prop where
  pre : pre = [] ∨ (pre = [.str []] ∧ bld = []) ∨ (pre ≠ [] ∧ ∀ a ∈ pre, IsWordText (identText a))
  bld : bld = [] ∨ bld = [.str []] ∨ (bld ≠ [] ∧ ∀ a ∈ bld, IsWordText (identText a))

theorem ne_empty_of_words {idents : List Ident} (h : ∀ a ∈ idents, IsWordText (identText a)) :
    idents ≠ [.str []] := by
  rintro rfl
  exact (h (.str []) (by simp)).1 rfl

theorem joined_empty : joined [.str []] = [] := rfl

variable {pre bld : List Ident}

theorem Readable.pre_letters (h : Readable pre bld) : ∀ c ∈ partText '-' pre, c ≠ '+' ∧ c ≠ '\n' := by
  rcases h.pre with rfl | ⟨rfl, -⟩ | ⟨hne, hwords⟩
  · simp [partText]
  · simp [partText, joined_empty]
  · intro c hc
    rw [partText, if_neg (by simpa using hne)] at hc
    rcases List.mem_cons.mp hc with rfl | hc
    · decide
    · exact ne_of_letters (joined_letters hwords c hc)

theorem Readable.bld_letters (h : Readable pre bld) : ∀ c ∈ partText '+' bld, c ≠ '\n' := by
  rcases h.bld with rfl | rfl | ⟨hne, hwords⟩
  · simp [partText]
  · simp [partText, joined_empty]
  · intro c hc
    rw [partText, if_neg (by simpa using hne)] at hc
    rcases List.mem_cons.mp hc with rfl | hc
    · decide
    · exact (ne_of_letters (joined_letters hwords c hc)).2

-- A plus sign marks the place where one part ends and the other begins.
theorem split_at_plus {w r x y : List Char} (h : w ++ r = x ++ y) (hw : ∀ c ∈ w, c ≠ '+') (hx : ∀ c ∈ x, c ≠ '+')
    (hr : r = [] ∨ ∃ r', r = '+' :: r') (hy : y = [] ∨ ∃ y', y = '+' :: y') : w = x ∧ r = y := by
  induction w generalizing x with
  | nil =>
      cases x with
      | nil => exact ⟨rfl, h⟩
      | cons d x =>
          rcases hr with rfl | ⟨r', rfl⟩
          · simp at h
          · rw [List.nil_append, List.cons_append] at h
            exact absurd (List.cons.inj h).1.symm (hx d (by simp))
  | cons c w ih =>
      cases x with
      | nil =>
          rcases hy with rfl | ⟨y', rfl⟩
          · simp at h
          · rw [List.nil_append, List.cons_append] at h
            exact absurd (List.cons.inj h).1 (hw c (by simp))
      | cons d x =>
          rw [List.cons_append, List.cons_append] at h
          obtain ⟨rfl, htail⟩ := List.cons.inj h
          obtain ⟨rfl, rfl⟩ := ih htail (fun e he => hw e (by simp [he])) (fun e he => hx e (by simp [he]))
          exact ⟨rfl, rfl⟩

theorem partText_plus (bld : List Ident) : partText '+' bld = [] ∨ ∃ y, partText '+' bld = '+' :: y := by
  rw [partText]
  split_ifs
  · exact .inl rfl
  · exact .inr ⟨_, rfl⟩

-- The groups of a pre-release that was matched up to its end.
theorem preGroups_unique (h : Readable pre bld) {w : List Char} {gs gs' : List (ℕ × List Char)}
    (hw : (w = [] ∧ gs' = gs) ∨ (w ∈ lang prereleaseRegex ∧ gs' = (5, w) :: gs)) (heq : w = partText '-' pre) :
    gs' = partGroups 4 '-' (partText '-' pre) pre ++ gs := by
  rcases h.pre with rfl | ⟨rfl, -⟩ | ⟨hne, hwords⟩
  · rcases hw with ⟨-, rfl⟩ | ⟨hw, -⟩
    · rfl
    · obtain ⟨c, w', rfl, -⟩ := prerelease_head hw
      simp [partText] at heq
  · rcases hw with ⟨rfl, -⟩ | ⟨hw, -⟩
    · simp [partText] at heq
    · obtain ⟨c, w', rfl, hc⟩ := prerelease_head hw
      simp only [partText, joined_empty, List.isEmpty_cons, Bool.false_eq_true, if_false, List.cons.injEq] at heq
      obtain ⟨rfl, rfl⟩ := heq
      rcases hc with hc | ⟨-, hc⟩
      · exact absurd hc (by decide)
      · exact absurd rfl hc
  · rcases hw with ⟨rfl, -⟩ | ⟨-, rfl⟩
    · rw [partText, if_neg (by simpa using hne)] at heq
      cases heq
    · rw [partGroups, if_neg hne, if_neg (ne_empty_of_words hwords), heq]
      rfl

-- The groups of a build that was matched up to its end.
theorem bldGroups_unique (h : Readable pre bld) {r : List Char} {gs gs' : List (ℕ × List Char)}
    (hr : (r = ['+'] ∧ gs' = (6, ['+']) :: gs) ∨ (∃ w ∈ lang dottedWords, r = '+' :: w ∧ gs' = (7, w) :: gs) ∨
      (r = [] ∧ gs' = gs)) (heq : r = partText '+' bld) :
    gs' = partGroups 6 '+' (joined bld) bld ++ gs := by
  rcases h.bld with rfl | rfl | ⟨hne, hwords⟩
  · rcases hr with ⟨rfl, -⟩ | ⟨w, -, rfl, -⟩ | ⟨-, rfl⟩
    · simp [partText] at heq
    · simp [partText] at heq
    · rfl
  · rcases hr with ⟨-, rfl⟩ | ⟨w, hw, rfl, -⟩ | ⟨rfl, -⟩
    · rfl
    · simp only [partText, joined_empty, List.isEmpty_cons, Bool.false_eq_true, if_false, List.cons.injEq,
        true_and] at heq
      exact absurd heq (dottedWords_ne_nil hw)
    · simp [partText] at heq
  · have htext : partText '+' bld = '+' :: joined bld := if_neg (by simpa using hne)
    rw [htext] at heq
    rcases hr with ⟨rfl, -⟩ | ⟨w, -, rfl, rfl⟩ | ⟨rfl, -⟩
    · exact absurd (List.cons.inj heq).2.symm (dottedWords_ne_nil (mem_dottedWords hne hwords))
    · rw [partGroups, if_neg hne, if_neg (ne_empty_of_words hwords), (List.cons.inj heq).2]
      rfl
    · cases heq

-- There is one way to match the two parts.
theorem tail_unique (h : Readable pre bld) {s t : Point} (hrest : s.rest = partText '-' pre ++ partText '+' bld)
    (ht : t ∈ run tailRegex s) :
    t.groups = partGroups 6 '+' (joined bld) bld ++ (partGroups 4 '-' (partText '-' pre) pre ++ s.groups) := by
  obtain ⟨hend, hcases⟩ := tail_cases ht
  have hclean : ∀ c ∈ s.rest, c ≠ '\n' := by
    intro c hc
    rw [hrest] at hc
    rcases List.mem_append.mp hc with hc | hc
    · exact (h.pre_letters c hc).2
    · exact h.bld_letters c hc
  -- the newline that may end the text is not there
  have hdone : ∀ x, s.rest = x ++ t.rest → t.rest = [] := by
    intro x hx
    refine hend.resolve_right ?_
    intro hnewline
    exact hclean '\n' (by rw [hx, hnewline]; simp) rfl
  rcases hcases with ⟨hfirst, hgroups⟩ | ⟨w, r, gs, hw, hsplit, hbuild⟩
  · have hempty := hdone ['-'] hfirst
    rw [hempty, hrest] at hfirst
    rcases h.pre with rfl | ⟨rfl, rfl⟩ | ⟨hne, hwords⟩
    · have hnil : partText '-' [] = [] := rfl
      rw [hnil, List.nil_append] at hfirst
      rcases partText_plus bld with hbld | ⟨y, hbld⟩
      · rw [hbld] at hfirst
        cases hfirst
      · rw [hbld] at hfirst
        exact absurd (List.cons.inj hfirst).1 (by decide)
    · exact hgroups
    · rw [partText, if_neg (by simpa using hne), List.cons_append] at hfirst
      have hnil := (List.append_eq_nil_iff.mp (List.cons.inj hfirst).2).1
      exact absurd hnil (dottedWords_ne_nil (mem_dottedWords hne hwords))
  · have hempty : t.rest = [] := by
      rcases hbuild with ⟨hr, -⟩ | ⟨w', -, hr, -⟩ | ⟨hr, -⟩
      · exact hdone (w ++ ['+']) (by rw [hsplit, hr]; simp)
      · exact hdone (w ++ '+' :: w') (by rw [hsplit, hr]; simp)
      · exact hdone w (by rw [hsplit, hr])
    rw [hempty] at hbuild
    have hw' : ∀ c ∈ w, c ≠ '+' := by
      rcases hw with ⟨rfl, -⟩ | ⟨hw, -⟩
      · simp
      · exact fun c hc => (ne_of_letters (forall_of_mem_lang over_prerelease hw c hc)).1
    have hr' : r = [] ∨ ∃ r', r = '+' :: r' := by
      rcases hbuild with ⟨hr, -⟩ | ⟨w', -, hr, -⟩ | ⟨hr, -⟩
      · exact .inr ⟨_, hr⟩
      · exact .inr ⟨_, hr⟩
      · exact .inl hr
    obtain ⟨hpre, hbld⟩ := split_at_plus (hsplit.symm.trans hrest) hw' (fun c hc => (h.pre_letters c hc).1) hr'
      (partText_plus bld)
    rw [← preGroups_unique h hw hpre]
    refine bldGroups_unique h ?_ hbld
    simpa using hbuild

theorem pre_exists (hpre : pre = [] ∨ (pre ≠ [] ∧ ∀ a ∈ pre, IsWordText (identText a))) {s : Point} {r : List Char}
    (hrest : s.rest = partText '-' pre ++ r) : ∃ x ∈ run (opt (.group 5 prereleaseRegex)) s, x.rest = r := by
  have hplain : Plain prereleaseRegex := by simp [prereleaseRegex, dottedWords, plus, letter, word, char, Plain]
  rcases hpre with rfl | ⟨hne, hwords⟩
  · exact ⟨s, mem_run_opt.mpr (.inr rfl), hrest⟩
  · have hmem : partText '-' pre ∈ lang prereleaseRegex := by
      rw [partText, if_neg (by simpa using hne)]
      exact .inr (Language.mem_mul.mpr ⟨['-'], mem_lang_char.mpr rfl, _, mem_dottedWords hne hwords, rfl⟩)
    refine ⟨⟨s.pos + (partText '-' pre).length, r, (5, partText '-' pre) :: s.groups⟩, ?_, rfl⟩
    exact mem_run_opt.mpr (.inl ((mem_run_group hplain).mpr ⟨_, hmem, hrest, rfl, rfl⟩))

theorem bld_exists (h : Readable pre bld) {x : Point} (hrest : x.rest = partText '+' bld) :
    ∃ t ∈ run (.alt (.group 6 (char '+')) (opt (.seq (char '+') (.group 7 dottedWords)))) x, t.rest = [] := by
  have hwords : Plain dottedWords := by simp [dottedWords, plus, word, char, Plain]
  have hmark : Plain (char '+') := trivial
  rcases h.bld with rfl | rfl | ⟨hne, hbld⟩
  · exact ⟨x, mem_run_alt.mpr (.inr (mem_run_opt.mpr (.inr rfl))), hrest⟩
  · refine ⟨⟨x.pos + 1, [], (6, ['+']) :: x.groups⟩, mem_run_alt.mpr (.inl ?_), rfl⟩
    exact (mem_run_group hmark).mpr ⟨['+'], mem_lang_char.mpr rfl, hrest, rfl, rfl⟩
  · rw [partText, if_neg (by simpa using hne)] at hrest
    refine ⟨⟨x.pos + 1 + (joined bld).length, [], (7, joined bld) :: x.groups⟩,
      mem_run_alt.mpr (.inr (mem_run_opt.mpr (.inl ?_))), rfl⟩
    refine mem_run_seq.mpr ⟨⟨x.pos + 1, joined bld, x.groups⟩, mem_run_chars.mpr ⟨'+', by simp, hrest, rfl, rfl⟩, ?_⟩
    exact (mem_run_group hwords).mpr ⟨_, mem_dottedWords hne hbld, by simp, rfl, rfl⟩

theorem tail_exists (h : Readable pre bld) {s : Point} (hrest : s.rest = partText '-' pre ++ partText '+' bld) :
    ∃ t, t ∈ run tailRegex s := by
  have hmark : Plain (char '-') := trivial
  have hends : ∀ t ∈ run (.alt (.group 4 (char '-')) (.seq (opt (.group 5 prereleaseRegex))
      (.alt (.group 6 (char '+')) (opt (.seq (char '+') (.group 7 dottedWords)))))) s, t.rest = [] →
      ∃ t, t ∈ run tailRegex s := fun t ht hend => ⟨t, mem_run_seq.mpr ⟨t, ht, mem_run_stop.mpr ⟨rfl, .inl hend⟩⟩⟩
  by_cases hmarkOnly : pre = [.str []] ∧ bld = []
  · obtain ⟨rfl, rfl⟩ := hmarkOnly
    refine hends ⟨s.pos + 1, [], (4, ['-']) :: s.groups⟩ (mem_run_alt.mpr (.inl ?_)) rfl
    exact (mem_run_group hmark).mpr ⟨['-'], mem_lang_char.mpr rfl, hrest, rfl, rfl⟩
  · have hpre : pre = [] ∨ (pre ≠ [] ∧ ∀ a ∈ pre, IsWordText (identText a)) := by
      rcases h.pre with h | h | h
      · exact .inl h
      · exact absurd h hmarkOnly
      · exact .inr h
    obtain ⟨x, hx, hxrest⟩ := pre_exists hpre hrest
    obtain ⟨t, ht, hend⟩ := bld_exists h hxrest
    exact hends t (mem_run_alt.mpr (.inr (mem_run_seq.mpr ⟨x, hx, ht⟩))) hend

end Parts

section Numbers

variable (pcre : Pcre)

-- Digits that no digit follows.
structure Digits (D X : List Char) : Prop where
  nonempty : D ≠ []
  digit : ∀ c ∈ D, pcre.digit c = true ∧ Stuck c ∧ c ≠ '.'
  ends : ∀ c X', X = c :: X' → pcre.digit c = false

variable {pcre} {D X : List Char} {u u' : Point} {k : ℕ}

-- A number matches all the digits, or leaves one of them behind.
theorem number_cases (hD : Digits pcre D X) (hrest : u.rest = D ++ X) (h : u' ∈ run (.group k (digits pcre)) u) :
    (∃ d r, u'.rest = d :: r ∧ Stuck d ∧ d ≠ '.') ∨ (u'.rest = X ∧ u'.groups = (k, D) :: u.groups) := by
  have hplain : Plain (digits pcre) := ⟨trivial, trivial⟩
  obtain ⟨w, hw, hsplit, -, hgroups⟩ := (mem_run_group hplain).mp h
  have hall := (mem_lang_plus_chars.mp hw).2
  rw [hrest] at hsplit
  rcases List.append_eq_append_iff.mp hsplit with ⟨m, hm, hX⟩ | ⟨m, hm, hX⟩
  · cases m with
    | nil =>
        rw [List.append_nil] at hm
        exact .inr ⟨hX.symm, by rw [hgroups, hm]⟩
    | cons c m =>
        have hdigit := hall c (by rw [hm]; simp)
        rw [hD.ends c _ hX] at hdigit
        cases hdigit
  · cases m with
    | nil =>
        rw [List.append_nil] at hm
        exact .inr ⟨hX, by rw [hgroups, hm]⟩
    | cons c m =>
        obtain ⟨-, hstuck, hdot⟩ := hD.digit c (by rw [hm]; simp)
        exact .inl ⟨c, m ++ X, hX, hstuck, hdot⟩

-- Where no dot follows there is no number.
theorem dottedNumber_skip {d : Char} {r : List Char} (hrest : u.rest = d :: r) (hd : d ≠ '.')
    (h : u' ∈ run (dottedNumber pcre k) u) : u' = u := by
  rcases mem_run_opt.mp h with h | h
  · obtain ⟨x, hx, -⟩ := mem_run_seq.mp h
    obtain ⟨c, hc, hrest', -⟩ := mem_run_chars.mp hx
    rw [hrest, beq_iff_eq.mp hc] at hrest'
    exact absurd (List.cons.inj hrest').1 hd
  · exact h

theorem dottedNumber_cases (hD : Digits pcre D X) (hrest : u.rest = '.' :: (D ++ X))
    (h : u' ∈ run (dottedNumber pcre k) u) :
    u' = u ∨ (∃ d r, u'.rest = d :: r ∧ Stuck d ∧ d ≠ '.') ∨ (u'.rest = X ∧ u'.groups = (k, D) :: u.groups) := by
  rcases mem_run_opt.mp h with h | h
  · obtain ⟨x, hx, hgroup⟩ := mem_run_seq.mp h
    obtain ⟨c, -, hrest', -, hgroups⟩ := mem_run_chars.mp hx
    rw [hrest] at hrest'
    have hxrest : x.rest = D ++ X := (List.cons.inj hrest').2.symm
    rw [← hgroups]
    exact .inr (number_cases hD hxrest hgroup)
  · exact .inl h

theorem stuck_dot : Stuck '.' := by
  refine ⟨by decide, by decide, by decide, by decide⟩

-- Behind a digit that was left the rest of the expression does not match.
theorem dead_of_digit {d : Char} {r : List Char} (hrest : u.rest = d :: r) (hd : Stuck d) (hdot : d ≠ '.') {t : Point} :
    t ∉ run (.seq (dottedNumber pcre k) tailRegex) u := by
  intro h
  obtain ⟨x, hx, ht⟩ := mem_run_seq.mp h
  rw [dottedNumber_skip hrest hdot hx] at ht
  exact tail_stuck hrest hd ht

theorem number_exists (hD : Digits pcre D X) (k : ℕ) (hrest : u.rest = D ++ X) :
    ∃ u' ∈ run (.group k (digits pcre)) u, u'.rest = X := by
  have hplain : Plain (digits pcre) := ⟨trivial, trivial⟩
  refine ⟨⟨u.pos + D.length, X, (k, D) :: u.groups⟩, (mem_run_group hplain).mpr ⟨D, ?_, hrest, rfl, rfl⟩, rfl⟩
  exact mem_lang_plus_chars.mpr ⟨hD.nonempty, fun c hc => (hD.digit c hc).1⟩

theorem dottedNumber_exists (hD : Digits pcre D X) (k : ℕ) (hrest : u.rest = '.' :: (D ++ X)) :
    ∃ u' ∈ run (dottedNumber pcre k) u, u'.rest = X := by
  obtain ⟨x, hx, hend⟩ := @number_exists _ _ _ ⟨u.pos + 1, D ++ X, u.groups⟩ hD k rfl
  refine ⟨x, mem_run_opt.mpr (.inl (mem_run_seq.mpr ⟨⟨u.pos + 1, D ++ X, u.groups⟩, ?_, hx⟩)), hend⟩
  exact mem_run_chars.mpr ⟨'.', by simp, hrest, rfl, rfl⟩

end Numbers

section Versions

variable {pcre : Pcre} {D1 D2 D3 : List Char} {pre bld : List Ident}

-- The printed form of a version, in its pieces.
def pieces (D1 D2 D3 : List Char) (pre bld : List Ident) : List Char :=
  D1 ++ '.' :: (D2 ++ '.' :: (D3 ++ (partText '-' pre ++ partText '+' bld)))

structure Printed (pcre : Pcre) (D1 D2 D3 : List Char) (pre bld : List Ident) : Prop where
  major : Digits pcre D1 ('.' :: (D2 ++ '.' :: (D3 ++ (partText '-' pre ++ partText '+' bld))))
  minor : Digits pcre D2 ('.' :: (D3 ++ (partText '-' pre ++ partText '+' bld)))
  patch : Digits pcre D3 (partText '-' pre ++ partText '+' bld)
  parts : Readable pre bld

-- There is one way to match a printed version.
theorem version_unique (h : Printed pcre D1 D2 D3 pre bld) {t : Point}
    (ht : t ∈ run (.seq (opt (.chars fun c => c == 'v' || c == 'V')) (.seq (.group 1 (digits pcre))
      (.seq (dottedNumber pcre 2) (.seq (dottedNumber pcre 3) tailRegex)))) ⟨0, pieces D1 D2 D3 pre bld, []⟩) :
    t.groups = partGroups 6 '+' (joined bld) bld ++ (partGroups 4 '-' (partText '-' pre) pre ++
      [(3, D3), (2, D2), (1, D1)]) := by
  obtain ⟨u0, h0, ht⟩ := mem_run_seq.mp ht
  have hstart : u0 = ⟨0, pieces D1 D2 D3 pre bld, []⟩ := by
    refine (mem_run_opt.mp h0).resolve_left ?_
    intro hv
    obtain ⟨c, hc, hrest, -⟩ := mem_run_chars.mp hv
    obtain ⟨d, D, hD⟩ := List.exists_cons_of_ne_nil h.major.nonempty
    obtain ⟨-, ⟨-, -, hletter, -⟩, -⟩ := h.major.digit d (by rw [hD]; simp)
    dsimp only at hrest
    rw [pieces, hD, List.cons_append] at hrest
    rw [(List.cons.inj hrest).1] at hletter
    simp only [Bool.or_eq_true, beq_iff_eq] at hc
    rcases hc with rfl | rfl
    · exact absurd hletter (by decide)
    · exact absurd hletter (by decide)
  subst hstart
  obtain ⟨u1, h1, ht1⟩ := mem_run_seq.mp ht
  rcases number_cases h.major rfl h1 with ⟨d, r, hrest, hd, hdot⟩ | ⟨hrest1, hgroups1⟩
  · obtain ⟨u2, h2, ht2⟩ := mem_run_seq.mp ht1
    rw [dottedNumber_skip hrest hdot h2] at ht2
    exact absurd ht2 (dead_of_digit hrest hd hdot)
  obtain ⟨u2, h2, ht2⟩ := mem_run_seq.mp ht1
  obtain ⟨u3, h3, ht3⟩ := mem_run_seq.mp ht2
  rcases dottedNumber_cases h.minor hrest1 h2 with heq | ⟨d, r, hrest, hd, hdot⟩ | ⟨hrest2, hgroups2⟩
  · -- the number behind the first dot would be the patch, and the second dot remains
    rw [heq] at h3
    rcases dottedNumber_cases h.minor hrest1 h3 with rfl | ⟨d, r, hrest, hd, hdot⟩ | ⟨hrest3, -⟩
    · exact absurd ht3 (tail_stuck hrest1 stuck_dot)
    · exact absurd ht3 (tail_stuck hrest hd)
    · exact absurd ht3 (tail_stuck hrest3 stuck_dot)
  · exact absurd ht2 (dead_of_digit hrest hd hdot)
  · rcases dottedNumber_cases h.patch hrest2 h3 with rfl | ⟨d, r, hrest, hd, hdot⟩ | ⟨hrest3, hgroups3⟩
    · exact absurd ht3 (tail_stuck hrest2 stuck_dot)
    · exact absurd ht3 (tail_stuck hrest hd)
    · rw [tail_unique h.parts hrest3 ht3, hgroups3, hgroups2, hgroups1]

theorem version_exists (h : Printed pcre D1 D2 D3 pre bld) :
    ∃ t, t ∈ run (.seq (opt (.chars fun c => c == 'v' || c == 'V')) (.seq (.group 1 (digits pcre))
      (.seq (dottedNumber pcre 2) (.seq (dottedNumber pcre 3) tailRegex)))) ⟨0, pieces D1 D2 D3 pre bld, []⟩ := by
  obtain ⟨u1, h1, hrest1⟩ := @number_exists _ _ _ ⟨0, pieces D1 D2 D3 pre bld, []⟩ h.major 1 rfl
  obtain ⟨u2, h2, hrest2⟩ := dottedNumber_exists h.minor 2 hrest1
  obtain ⟨u3, h3, hrest3⟩ := dottedNumber_exists h.patch 3 hrest2
  obtain ⟨t, ht⟩ := tail_exists h.parts hrest3
  exact ⟨t, mem_run_seq.mpr ⟨_, mem_run_opt.mpr (.inr rfl), mem_run_seq.mpr ⟨u1, h1, mem_run_seq.mpr ⟨u2, h2,
    mem_run_seq.mpr ⟨u3, h3, ht⟩⟩⟩⟩⟩

theorem find_version (h : Printed pcre D1 D2 D3 pre bld) :
    ∃ t, Regex.find (versionRegex pcre) (pieces D1 D2 D3 pre bld) = some t ∧
      t.groups = partGroups 6 '+' (joined bld) bld ++ (partGroups 4 '-' (partText '-' pre) pre ++
        [(3, D3), (2, D2), (1, D1)]) :=
  Regex.find_eq_some (fun _ ht => version_unique h ht) (version_exists h)

end Versions

end Joolia.Version
