import Joolia.Base.Version.Match

namespace Joolia.Version

open Regex Fallible

section Constructor

theorem forM_eq_ok {ε α : Type} {f : α → Except ε Unit} {l : List α} :
    l.forM f = .ok () ↔ ∀ a ∈ l, f a = .ok () := by
  induction l with
  | nil => simp [List.forM]
  | cons a l ih =>
      change (f a >>= fun _ => l.forM f) = .ok () ↔ _
      rw [bind_eq_ok]
      constructor
      · rintro ⟨_, ha, hl⟩ b hb
        rcases List.mem_cons.mp hb with rfl | hb
        · exact ha
        · exact ih.mp hl b hb
      · intro h
        exact ⟨(), h a (by simp), ih.mpr fun b hb => h b (by simp [hb])⟩

-- The version is one that the constructor lets through.
def Accepted (v : VersionNumber) : Prop :=
  VersionNumber.new v.major v.minor v.patch v.prerelease v.build = .ok v

theorem accepted_iff (v : VersionNumber) : Accepted v ↔
    (∀ a ∈ v.prerelease, checkPrerelease v.prerelease v.build a = .ok ()) ∧
      ∀ a ∈ v.build, checkBuild v.build a = .ok () := by
  rw [Accepted, VersionNumber.new, bind_eq_ok, ← forM_eq_ok, ← forM_eq_ok]
  constructor
  · rintro ⟨_, hpre, hrest⟩
    obtain ⟨_, hbld, -⟩ := bind_eq_ok.mp hrest
    exact ⟨hpre, hbld⟩
  · rintro ⟨hpre, hbld⟩
    exact ⟨(), hpre, by rw [hbld]; rfl⟩

-- No identifier ends in a newline.
def NoNewline (v : VersionNumber) : Prop :=
  ∀ s, .str s ∈ v.prerelease ++ v.build → s.getLast? ≠ some '\n'

section Words

variable {v : VersionNumber} (h : Accepted v) (hclean : NoNewline v)

include h

theorem accepted_prerelease {s : List Char} (hs : .str s ∈ v.prerelease) : Regex.occursin identRegex s = true ∧
    (s = [] → v.prerelease = [.str []] ∧ v.build = []) := by
  have hcheck := ((accepted_iff v).mp h).1 _ hs
  rw [checkPrerelease] at hcheck
  split_ifs at hcheck with hbad
  simp only [Bool.or_eq_true, Bool.and_eq_true, not_or, not_and, Bool.not_eq_true', Bool.not_eq_false,
    decide_eq_true_eq] at hbad
  refine ⟨hbad.1, ?_⟩
  rintro rfl
  obtain ⟨hlen, hbld⟩ : v.prerelease.length = 1 ∧ v.build.isEmpty = true := by simpa using hbad.2 rfl
  obtain ⟨a, ha⟩ := List.length_eq_one_iff.mp hlen
  rw [ha, List.mem_singleton] at hs
  exact ⟨by rw [ha, ← hs], by simpa using hbld⟩

theorem accepted_build {s : List Char} (hs : .str s ∈ v.build) : Regex.occursin identRegex s = true ∧
    (s = [] → v.build = [.str []]) := by
  have hcheck := ((accepted_iff v).mp h).2 _ hs
  rw [checkBuild] at hcheck
  split_ifs at hcheck with hbad
  simp only [Bool.or_eq_true, Bool.and_eq_true, not_or, not_and, Bool.not_eq_true', Bool.not_eq_false,
    decide_eq_true_eq] at hbad
  refine ⟨hbad.1, ?_⟩
  rintro rfl
  have hlen : v.build.length = 1 := by simpa using hbad.2 rfl
  obtain ⟨a, ha⟩ := List.length_eq_one_iff.mp hlen
  rw [ha, List.mem_singleton] at hs
  rw [ha, ← hs]

include hclean

-- A part without empty strings consists of words that are read as they were.
theorem words_of_accepted (pcre : Pcre) {a : Ident} (ha : a ∈ v.prerelease ++ v.build) (hne : a ≠ .str []) :
    IsWordText (identText a) ∧ splitIdent pcre (identText a) = .ok a := by
  cases a with
  | int i => exact ⟨isWordText_decimal _, splitIdent_int pcre i⟩
  | str s =>
      have hoccurs : Regex.occursin identRegex s = true := by
        rcases List.mem_append.mp ha with ha | ha
        · exact (accepted_prerelease h ha).1
        · exact (accepted_build h ha).1
      obtain ⟨hword, c, hc, hletter⟩ := occursin_identRegex hoccurs (fun hs => hne (by rw [hs])) (hclean s ha)
      exact ⟨hword, splitIdent_str pcre hc hletter⟩

theorem readable_of_accepted (pcre : Pcre) : Readable v.prerelease v.build := by
  constructor
  · by_cases hempty : v.prerelease = []
    · exact .inl hempty
    · by_cases hmark : .str [] ∈ v.prerelease
      · exact .inr (.inl ((accepted_prerelease h hmark).2 rfl))
      · refine .inr (.inr ⟨hempty, ?_⟩)
        intro a ha
        refine (words_of_accepted h hclean pcre (List.mem_append_left _ ha) ?_).1
        rintro rfl
        exact hmark ha
  · by_cases hempty : v.build = []
    · exact .inl hempty
    · by_cases hmark : .str [] ∈ v.build
      · exact .inr (.inl ((accepted_build h hmark).2 rfl))
      · refine .inr (.inr ⟨hempty, ?_⟩)
        intro a ha
        refine (words_of_accepted h hclean pcre (List.mem_append_right _ ha) ?_).1
        rintro rfl
        exact hmark ha

end Words

end Constructor

section Printed

theorem print_eq (mem : ℕ → UInt8) {v : VersionNumber} (hv : v ≠ typemax) : print mem v = .ok
    (pieces (decimal v.major.toNat) (decimal v.minor.toNat) (decimal v.patch.toNat) v.prerelease v.build) := by
  have hequal : equal v typemax = false := by
    rw [← Bool.not_eq_true, equal_iff]
    exact hv
  have hnumber : ∀ x : UInt32, printInt mem (machine32 x) = .ok (decimal x.toNat) := fun x =>
    printInt_eq mem (machine32 x) (Int.natCast_nonneg _)
  simp only [print, hequal, Bool.false_eq_true, if_false, hnumber, printPart_eq, ok_bind]
  rfl

theorem print_typemax (mem : ℕ → UInt8) : print mem typemax = .ok ['∞'] := by
  have hequal : equal typemax typemax = true := (equal_iff _ _).mpr rfl
  simp only [print, hequal, if_true]
  rfl

theorem stuck_of_isDigit {c : Char} (h : c.isDigit = true ∧ c.toNat < 128) : Stuck c ∧ c ≠ '.' := by
  have hrange := Char.isDigit_iff_toNat.mp h.1
  have h0 : '0'.toNat = 48 := rfl
  have h9 : '9'.toNat = 57 := rfl
  have hne : ∀ d : Char, d.toNat < 48 → c ≠ d := by
    rintro d hd rfl
    omega
  refine ⟨⟨hne _ (by decide), hne _ (by decide), ?_, hne _ (by decide)⟩, hne _ (by decide)⟩
  rw [isLetter, decide_eq_false_iff_not]
  omega

theorem digits_decimal (pcre : Pcre) (x : ℕ) {X : List Char} (hX : ∀ c X', X = c :: X' → c = '.' ∨ c = '-' ∨ c = '+') :
    Digits pcre (decimal x) X := by
  refine ⟨decimal_ne_nil x, ?_, ?_⟩
  · intro c hc
    have hdigit := isDigit_of_mem_decimal hc
    exact ⟨digit_of_isDigit pcre hdigit, stuck_of_isDigit hdigit⟩
  · intro c X' hcX
    rcases hX c X' hcX with rfl | rfl | rfl
    · rw [pcre.digit_ascii _ (by decide)]
      rfl
    · rw [pcre.digit_ascii _ (by decide)]
      rfl
    · rw [pcre.digit_ascii _ (by decide)]
      rfl

theorem tail_head {pre bld : List Ident} {c : Char} {X : List Char}
    (h : partText '-' pre ++ partText '+' bld = c :: X) : c = '.' ∨ c = '-' ∨ c = '+' := by
  simp only [partText] at h
  split_ifs at h with hpre hbld
  · cases h
  · exact .inr (.inr (List.cons.inj h).1.symm)
  · exact .inr (.inl (List.cons.inj h).1.symm)
  · exact .inr (.inl (List.cons.inj h).1.symm)

theorem printed_decimal (pcre : Pcre) (x y z : ℕ) {pre bld : List Ident} (h : Readable pre bld) :
    Printed pcre (decimal x) (decimal y) (decimal z) pre bld := by
  refine ⟨digits_decimal pcre x ?_, digits_decimal pcre y ?_, digits_decimal pcre z ?_, h⟩
  · intro c X' hcX
    exact .inl (List.cons.inj hcX).1.symm
  · intro c X' hcX
    exact .inl (List.cons.inj hcX).1.symm
  · intro c X' hcX
    exact tail_head hcX

theorem optionalNumber_decimal (x : UInt32) : optionalNumber (some (decimal x.toNat)) = .ok x := by
  have hnumber := @parseNumber_decimal ⟨false, .w32⟩ x.toNat (machine32 x).le_max
  simp only [optionalNumber, hnumber, ok_bind, pure_eq_ok, Int.toNat_natCast, UInt32.ofNat_toNat]

end Printed

section RoundTrip

variable (pcre : Pcre)

-- The groups give the identifiers back.
theorem identsOf_groups (k : ℕ) (mark : Char) {words : List Char} {idents : List Ident} (hwords : idents ≠ [] →
    idents ≠ [.str []] → splitIdents pcre words = .ok idents) :
    identsOf pcre ((partGroups k mark words idents).lookup (k + 1)) ((partGroups k mark words idents).lookup k) =
      .ok idents := by
  rw [partGroups]
  split_ifs with hempty hmark
  · rw [hempty]
    rfl
  · rw [hmark]
    have hne : ((k + 1) == k) = false := by simp
    simp [identsOf, List.lookup_cons, hne]
  · have hne : (k == (k + 1)) = false := by simp
    simp [identsOf, List.lookup_cons, hwords hempty hmark]

theorem lookup_mark (k : ℕ) (mark : Char) (words words' : List Char) (idents : List Ident) :
    (partGroups k mark words idents).lookup k = (partGroups k mark words' idents).lookup k := by
  have hne : (k == (k + 1)) = false := by simp
  simp only [partGroups]
  split_ifs
  · rfl
  · rfl
  · simp [List.lookup_cons, hne]

-- A part sets no other groups.
theorem lookup_partGroups_none {mark : Char} {words : List Char} {idents : List Ident} {j k : ℕ} (hj : j ≠ k)
    (hj' : j ≠ k + 1) : (partGroups k mark words idents).lookup j = none := by
  rw [partGroups]
  split_ifs
  · rfl
  · simp [List.lookup_cons, beq_false_of_ne hj]
  · simp [List.lookup_cons, beq_false_of_ne hj']

theorem stripDash_lookup (pre : List Ident) : ((partGroups 4 '-' (partText '-' pre) pre).lookup 5).map stripDash =
    (partGroups 4 '-' (joined pre) pre).lookup 5 := by
  simp only [partGroups]
  split_ifs with hempty hmark
  · rfl
  · rfl
  · have htext : partText '-' pre = '-' :: joined pre := if_neg (by simpa using hempty)
    simp [htext, stripDash]

section Words

variable {v : VersionNumber} (h : Accepted v) (hclean : NoNewline v)

include h hclean

theorem splitIdents_prerelease (hne : v.prerelease ≠ []) (hmark : v.prerelease ≠ [.str []]) :
    splitIdents pcre (joined v.prerelease) = .ok v.prerelease := by
  have hwords : ∀ a ∈ v.prerelease, IsWordText (identText a) ∧ splitIdent pcre (identText a) = .ok a := by
    intro a ha
    refine words_of_accepted h hclean pcre (List.mem_append_left _ ha) ?_
    rintro rfl
    exact hmark ((accepted_prerelease h ha).2 rfl).1
  exact splitIdents_joined pcre hne (fun a ha => (hwords a ha).1) (fun a ha => (hwords a ha).2)

theorem splitIdents_build (hne : v.build ≠ []) (hmark : v.build ≠ [.str []]) :
    splitIdents pcre (joined v.build) = .ok v.build := by
  have hwords : ∀ a ∈ v.build, IsWordText (identText a) ∧ splitIdent pcre (identText a) = .ok a := by
    intro a ha
    refine words_of_accepted h hclean pcre (List.mem_append_right _ ha) ?_
    rintro rfl
    exact hmark ((accepted_build h ha).2 rfl)
  exact splitIdents_joined pcre hne (fun a ha => (hwords a ha).1) (fun a ha => (hwords a ha).2)

-- What was printed is read back.
theorem parseVersion_print (mem : ℕ → UInt8) : ∃ text, print mem v = .ok text ∧ parseVersion pcre text = .ok v := by
  by_cases hv : v = typemax
  · subst hv
    exact ⟨_, print_typemax mem, by simp [parseVersion, tryparse]⟩
  have hreadable := readable_of_accepted h hclean pcre
  obtain ⟨t, hfind, hgroups⟩ := find_version
    (printed_decimal pcre v.major.toNat v.minor.toNat v.patch.toNat hreadable)
  refine ⟨_, print_eq mem hv, ?_⟩
  have hinfinity : pieces (decimal v.major.toNat) (decimal v.minor.toNat) (decimal v.patch.toNat) v.prerelease v.build ≠
      ['∞'] := by
    intro heq
    have hlen := congrArg List.length heq
    simp only [pieces, List.length_append, List.length_cons, List.length_nil] at hlen
    omega
  have hcaptured : ∀ j, t.captured j = ((partGroups 6 '+' (joined v.build) v.build).lookup j).or
      (((partGroups 4 '-' (partText '-' v.prerelease) v.prerelease).lookup j).or
        (([(3, decimal v.patch.toNat), (2, decimal v.minor.toNat),
          (1, decimal v.major.toNat)] : List (ℕ × List Char)).lookup j)) := by
    intro j
    rw [Point.captured, hgroups, List.lookup_append, List.lookup_append]
  have hnumbers : t.captured 1 = some (decimal v.major.toNat) ∧ t.captured 2 = some (decimal v.minor.toNat) ∧
      t.captured 3 = some (decimal v.patch.toNat) := by
    refine ⟨?_, ?_, ?_⟩
    all_goals
      rw [hcaptured, lookup_partGroups_none (by omega) (by omega), lookup_partGroups_none (by omega) (by omega)]
      rfl
  have hpre : identsOf pcre ((t.captured 5).map stripDash) (t.captured 4) = .ok v.prerelease := by
    have hlookup : ∀ j, j = 4 ∨ j = 5 → t.captured j =
        (partGroups 4 '-' (partText '-' v.prerelease) v.prerelease).lookup j := by
      intro j hj
      have hrest : ([(3, decimal v.patch.toNat), (2, decimal v.minor.toNat),
          (1, decimal v.major.toNat)] : List (ℕ × List Char)).lookup j = none := by
        rcases hj with rfl | rfl <;> rfl
      rw [hcaptured, lookup_partGroups_none (by omega) (by omega), hrest, Option.none_or, Option.or_none]
    rw [hlookup 4 (.inl rfl), hlookup 5 (.inr rfl), stripDash_lookup, lookup_mark 4 '-' _ (joined v.prerelease)]
    exact identsOf_groups pcre 4 '-' (splitIdents_prerelease pcre h hclean)
  have hbld : identsOf pcre (t.captured 7) (t.captured 6) = .ok v.build := by
    have hlookup : ∀ j, j = 6 ∨ j = 7 → t.captured j = (partGroups 6 '+' (joined v.build) v.build).lookup j := by
      intro j hj
      have hrest : ([(3, decimal v.patch.toNat), (2, decimal v.minor.toNat),
          (1, decimal v.major.toNat)] : List (ℕ × List Char)).lookup j = none := by
        rcases hj with rfl | rfl <;> rfl
      rw [hcaptured, @lookup_partGroups_none '-' _ _ j 4 (by omega) (by omega), hrest, Option.or_none, Option.or_none]
    rw [hlookup 6 (.inl rfl), hlookup 7 (.inr rfl)]
    exact identsOf_groups pcre 6 '+' (splitIdents_build pcre h hclean)
  have hnew : VersionNumber.new v.major v.minor v.patch v.prerelease v.build = .ok v := h
  rw [parseVersion, tryparse, if_neg hinfinity, hfind]
  dsimp only
  rw [hnumbers.1, hnumbers.2.1, hnumbers.2.2, optionalNumber_decimal, optionalNumber_decimal, optionalNumber_decimal,
    hpre, hbld]
  simp only [ok_bind, hnew]
  rfl

end Words

end RoundTrip

section Letters

variable {pcre : Pcre}

-- The numbers set the first three groups only.
def LowGroups (u : Point) : Prop := ∀ j, 4 ≤ j → u.groups.lookup j = none

theorem lowGroups_cons {u u' : Point} {k : ℕ} {w : List Char} (h : LowGroups u) (hk : k < 4)
    (hgroups : u'.groups = (k, w) :: u.groups) : LowGroups u' := by
  intro j hj
  have hne : (j == k) = false := beq_false_of_ne (by omega)
  rw [hgroups, List.lookup_cons, hne]
  exact h j hj

theorem lowGroups_number {u u' : Point} {k : ℕ} (h : LowGroups u) (hk : k < 4)
    (hu : u' ∈ run (.group k (digits pcre)) u) : LowGroups u' := by
  have hplain : Plain (digits pcre) := ⟨trivial, trivial⟩
  obtain ⟨w, -, -, -, hgroups⟩ := (mem_run_group hplain).mp hu
  exact lowGroups_cons h hk hgroups

theorem lowGroups_dotted {u u' : Point} {k : ℕ} (h : LowGroups u) (hk : k < 4)
    (hu : u' ∈ run (dottedNumber pcre k) u) : LowGroups u' := by
  rcases mem_run_opt.mp hu with hu | rfl
  · obtain ⟨x, hx, hgroup⟩ := mem_run_seq.mp hu
    obtain ⟨c, -, -, -, hgroups⟩ := mem_run_chars.mp hx
    have hx' : LowGroups x := by
      intro j hj
      rw [hgroups]
      exact h j hj
    exact lowGroups_number hx' hk hgroup
  · exact h

-- What the groups of the two parts can hold.
theorem tail_groups {s t : Point} (h : LowGroups s) (ht : t ∈ run tailRegex s) :
    (∀ w, t.captured 5 = some w → w ∈ lang prereleaseRegex) ∧ ∀ w, t.captured 7 = some w → w ∈ lang dottedWords := by
  have h5 := h 5 (by omega)
  have h7 := h 7 (by omega)
  obtain ⟨-, ⟨-, hgroups⟩ | ⟨w, r, gs, hw, -, hbuild⟩⟩ := tail_cases ht
  · simp [Point.captured, hgroups, List.lookup_cons, h5, h7]
  · have hgs5 : ∀ x, gs.lookup 5 = some x → x ∈ lang prereleaseRegex := by
      rcases hw with ⟨-, rfl⟩ | ⟨hw, rfl⟩
      · simp [h5]
      · simpa [List.lookup_cons] using hw
    have hgs7 : gs.lookup 7 = none := by
      rcases hw with ⟨-, rfl⟩ | ⟨-, rfl⟩
      · exact h7
      · simpa [List.lookup_cons] using h7
    rcases hbuild with ⟨-, hgroups⟩ | ⟨w', hw', -, hgroups⟩ | ⟨-, hgroups⟩
    · simpa [Point.captured, hgroups, List.lookup_cons, hgs7] using hgs5
    · refine ⟨by simpa [Point.captured, hgroups, List.lookup_cons] using hgs5, ?_⟩
      simpa [Point.captured, hgroups, List.lookup_cons] using hw'
    · simpa [Point.captured, hgroups, hgs7] using hgs5

theorem find_groups {text : List Char} {t : Point} (h : Regex.find (versionRegex pcre) text = some t) :
    (∀ w, t.captured 5 = some w → w ∈ lang prereleaseRegex) ∧ ∀ w, t.captured 7 = some w → w ∈ lang dottedWords := by
  obtain ⟨u0, h0, ht0⟩ := mem_run_seq.mp (Regex.mem_of_find h)
  obtain ⟨u1, h1, ht1⟩ := mem_run_seq.mp ht0
  obtain ⟨u2, h2, ht2⟩ := mem_run_seq.mp ht1
  obtain ⟨u3, h3, ht3⟩ := mem_run_seq.mp ht2
  have hlow0 : LowGroups u0 := by
    have hgroups : u0.groups = [] := by
      rcases mem_run_opt.mp h0 with h0 | rfl
      · obtain ⟨c, -, -, -, hgroups⟩ := mem_run_chars.mp h0
        exact hgroups
      · rfl
    intro j _
    rw [hgroups]
    rfl
  exact tail_groups (lowGroups_dotted (lowGroups_dotted (lowGroups_number hlow0 (by omega) h1) (by omega) h2)
    (by omega) h3) ht3

-- A string has only letters from the text that was split.
def LettersFrom (q : Char → Prop) (idents : List Ident) : Prop := ∀ s, .str s ∈ idents → ∀ c ∈ s, q c

theorem mem_intersperse {α : Type} {sep x : α} {l : List α} (h : x ∈ l) : x ∈ l.intersperse sep := by
  induction l with
  | nil => exact h
  | cons a l ih =>
      cases l with
      | nil => exact h
      | cons b l =>
          rw [List.intersperse_cons_cons]
          rcases List.mem_cons.mp h with rfl | h
          · simp
          · simp [ih h]

theorem mem_of_mem_splitOn {s x : List Char} {c : Char} (hx : x ∈ s.splitOn '.') (hc : c ∈ x) : c ∈ s := by
  rw [← @List.intercalate_splitOn _ s _ _ '.', List.intercalate]
  exact List.mem_flatten.mpr ⟨x, mem_intersperse hx, hc⟩

theorem splitIdents_letters {s : List Char} {idents : List Ident} (h : splitIdents pcre s = .ok idents) :
    LettersFrom (· ∈ s) idents := by
  have hpieces : ∀ (l : List (List Char)) (out : List Ident), l.mapM (splitIdent pcre) = .ok out →
      ∀ x, .str x ∈ out → x ∈ l := by
    intro l
    induction l with
    | nil =>
        intro out hout x hx
        cases hout
        simp at hx
    | cons y l ih =>
        intro out hout x hx
        rw [List.mapM_cons, bind_eq_ok] at hout
        obtain ⟨a, ha, hrest⟩ := hout
        obtain ⟨as, has, hcons⟩ := bind_eq_ok.mp hrest
        cases hcons
        rcases List.mem_cons.mp hx with rfl | hx
        · rw [splitIdent] at ha
          split_ifs at ha
          · obtain ⟨n, -, hn⟩ := bind_eq_ok.mp ha
            cases hn
          · cases ha
            simp
        · exact List.mem_cons_of_mem _ (ih as has x hx)
  intro x hx c hc
  exact mem_of_mem_splitOn (hpieces _ _ h x hx) hc

-- No string of a part holds a newline, whatever the text was.
theorem identsOf_clean {text mark : Option (List Char)} {idents : List Ident} (h : identsOf pcre text mark = .ok idents)
    (htext : ∀ w, text = some w → ∀ c ∈ w, c ≠ '\n') : LettersFrom (· ≠ '\n') idents := by
  cases text with
  | some w =>
      intro x hx c hc
      exact htext w rfl c (splitIdents_letters h x hx c hc)
  | none =>
      cases mark with
      | some m =>
          cases h
          intro x hx c hc
          obtain rfl : x = [] := by simpa using hx
          simp at hc
      | none =>
          cases h
          intro x hx
          simp at hx

theorem stripDash_letters {w : List Char} {c : Char} (h : c ∈ stripDash w) : c ∈ w := by
  unfold stripDash at h
  split at h
  · exact List.mem_cons_of_mem _ h
  · exact h

-- Whatever is read, none of its identifiers holds a newline.
theorem parseVersion_clean {text : List Char} {w : VersionNumber} (h : parseVersion pcre text = .ok w) :
    LettersFrom (· ≠ '\n') (w.prerelease ++ w.build) := by
  rw [parseVersion, bind_eq_ok] at h
  obtain ⟨o, ho, hw⟩ := h
  cases o with
  | none => cases hw
  | some w' =>
      cases hw
      rw [tryparse] at ho
      split_ifs at ho with hinfinity
      · cases ho
        intro x hx c hc
        obtain rfl : x = [] := by simpa [typemax] using hx
        simp at hc
      · cases hfind : Regex.find (versionRegex pcre) text with
        | none =>
            rw [hfind] at ho
            cases ho
        | some t =>
            obtain ⟨h5, h7⟩ := find_groups hfind
            rw [hfind] at ho
            dsimp only at ho
            obtain ⟨major, -, ho⟩ := bind_eq_ok.mp ho
            obtain ⟨minor, -, ho⟩ := bind_eq_ok.mp ho
            obtain ⟨patch, -, ho⟩ := bind_eq_ok.mp ho
            obtain ⟨pre, hpre, ho⟩ := bind_eq_ok.mp ho
            obtain ⟨bld, hbld, ho⟩ := bind_eq_ok.mp ho
            obtain ⟨v, hv, ho⟩ := bind_eq_ok.mp ho
            obtain rfl : v = w := by simpa using ho
            have hfields : v.prerelease = pre ∧ v.build = bld := by
              rw [VersionNumber.new] at hv
              obtain ⟨_, -, hv⟩ := bind_eq_ok.mp hv
              obtain ⟨_, -, hv⟩ := bind_eq_ok.mp hv
              cases hv
              exact ⟨rfl, rfl⟩
            have hcleanPre := identsOf_clean hpre (by
              intro x hx c hc
              obtain ⟨y, hy, rfl⟩ := Option.map_eq_some_iff.mp hx
              exact (ne_of_letters (forall_of_mem_lang over_prerelease (h5 y hy) c (stripDash_letters hc))).2)
            have hcleanBld := identsOf_clean hbld (by
              intro x hx c hc
              exact (ne_of_letters (forall_of_mem_lang over_dottedWords (h7 x hx) c hc)).2)
            rw [hfields.1, hfields.2]
            intro x hx
            rcases List.mem_append.mp hx with hx | hx
            · exact hcleanPre x hx
            · exact hcleanBld x hx

end Letters

section Extremes

theorem then_ne_lt {c d : Ordering} (hc : c ≠ .lt) (hd : c = .eq → d ≠ .lt) : c.then d ≠ .lt := by
  cases c with
  | lt => exact absurd rfl hc
  | eq => exact hd rfl
  | gt => simp

theorem compare_ne_lt {x y : ℕ} (h : y ≤ x) : compare x y ≠ .lt := by
  intro hlt
  exact absurd (Nat.compare_eq_lt.mp hlt) (by omega)

theorem not_isless_typemin (v : VersionNumber) : isless v typemin = false := by
  rw [← Bool.not_eq_true, isless_iff]
  refine then_ne_lt (compare_ne_lt (Nat.zero_le _)) fun _ => then_ne_lt (compare_ne_lt (Nat.zero_le _)) fun _ =>
    then_ne_lt (compare_ne_lt (Nat.zero_le _)) fun _ => then_ne_lt (compare_ne_lt (Nat.zero_le _)) fun hrank => ?_
  have hpre : v.prerelease ≠ [] := by
    intro hpre
    simp [preRank, typemin, hpre] at hrank
  refine then_ne_lt (identsCmp_empty_ne_lt hpre) fun _ => then_ne_lt (compare_ne_lt (Nat.zero_le _)) fun _ => ?_
  change identsCmp v.build [] ≠ .lt
  cases v.build with
  | nil => simp [identsCmp]
  | cons a as => simp [identsCmp]

theorem not_isless_typemax (v : VersionNumber) : isless typemax v = false := by
  have hword : ∀ x : UInt32, x.toNat ≤ 4294967295 := fun x => Nat.le_of_lt_succ x.toNat_lt
  rw [← Bool.not_eq_true, isless_iff]
  refine then_ne_lt (compare_ne_lt (hword _)) fun _ => then_ne_lt (compare_ne_lt (hword _)) fun _ =>
    then_ne_lt (compare_ne_lt (hword _)) fun _ => then_ne_lt (compare_ne_lt ?_) fun hrank => ?_
  · rw [preRank]
    split_ifs <;> simp [preRank, typemax]
  · have hpre : v.prerelease = [] := by
      by_contra hpre
      have hempty : v.prerelease.isEmpty = false := by simpa using hpre
      simp [preRank, typemax, hempty] at hrank
    rw [hpre]
    refine then_ne_lt (by simp [typemax, identsCmp]) fun _ => then_ne_lt (compare_ne_lt ?_) fun hrank => ?_
    · rw [buildRank]
      split_ifs <;> simp [buildRank, issupbuild, typemax, Ident.isEmpty]
    · -- only a single empty build has the rank of the largest version
      have hsup : issupbuild v = true := by
        by_contra hsup
        have hlargest : buildRank typemax = 1 := rfl
        have hother : buildRank v = 0 := if_neg hsup
        rw [hlargest, hother] at hrank
        cases hrank
      have hbuild : v.build = [.str []] := by
        rw [issupbuild] at hsup
        split at hsup
        · rename_i ident hv
          rw [hv]
          cases ident with
          | int i => cases hsup
          | str s => rw [List.isEmpty_iff.mp hsup]
        · cases hsup
      rw [hbuild]
      decide

end Extremes

-- The order is total and agrees with equality, its extremes are typemin and typemax, and a version
-- that the constructor accepts is read back from its text exactly when none of its identifiers ends
-- in a newline.
theorem versions_ordered_and_printed (pcre : Pcre) (mem : ℕ → UInt8) :
    (∀ a b : VersionNumber,
      (isless a b = true ∧ equal a b = false ∧ isless b a = false) ∨
      (isless a b = false ∧ equal a b = true ∧ isless b a = false) ∨
      (isless a b = false ∧ equal a b = false ∧ isless b a = true)) ∧
    (∀ a b c : VersionNumber, isless a b = true → isless b c = true → isless a c = true) ∧
    (∀ v : VersionNumber, isless v typemin = false ∧ isless typemax v = false) ∧
    ∀ v : VersionNumber, Accepted v →
      ((∃ text w, print mem v = .ok text ∧ parseVersion pcre text = .ok w ∧ equal w v = true) ↔ NoNewline v) := by
  refine ⟨?_, fun a b c => isless_trans, fun v => ⟨not_isless_typemin v, not_isless_typemax v⟩, ?_⟩
  · intro a b
    have hless := isless_iff a b
    have hswap := isless_swap a b
    have hequal := (equal_iff a b).trans (versionCmp_eq_iff a b).symm
    cases hcmp : versionCmp a b with
    | lt => simp_all
    | eq => simp_all
    | gt => simp_all
  · intro v h
    constructor
    · rintro ⟨text, w, -, hw, heq⟩ s hs hlast
      rw [(equal_iff w v).mp heq] at hw
      exact parseVersion_clean hw s hs '\n' (List.mem_of_getLast? hlast) rfl
    · intro hclean
      obtain ⟨text, htext, hback⟩ := parseVersion_print pcre h hclean mem
      exact ⟨text, v, htext, hback, (equal_iff v v).mpr rfl⟩

-- PCRE as far as ASCII goes.
def asciiPcre : Pcre where
  digit c := c.isDigit
  digit_ascii _ _ := rfl
  digit_long_s := by decide
  digit_kelvin := by decide

-- 1.2.3-rc.1+x is read back.
theorem versions_ordered_and_printed_sample : ∃ text w,
    print (fun _ => 0) ⟨1, 2, 3, [.str ['r', 'c'], .int 1], [.str ['x']]⟩ = .ok text ∧
      parseVersion asciiPcre text = .ok w ∧ equal w ⟨1, 2, 3, [.str ['r', 'c'], .int 1], [.str ['x']]⟩ = true := by
  refine ((versions_ordered_and_printed asciiPcre fun _ => 0).2.2.2 _ ?_).mpr ?_
  · rw [Accepted]
    decide
  · intro s hs
    rcases List.mem_append.mp hs with hs | hs
    · obtain rfl : s = ['r', 'c'] := by simpa using hs
      decide
    · obtain rfl : s = ['x'] := by simpa using hs
      decide

-- The identifier "a" followed by a newline is accepted, and read back without it.
theorem newline_is_lost : Accepted ⟨1, 2, 3, [.str ['a', '\n']], []⟩ ∧
    print (fun _ => 0) ⟨1, 2, 3, [.str ['a', '\n']], []⟩ = .ok ['1', '.', '2', '.', '3', '-', 'a', '\n'] ∧
    parseVersion asciiPcre ['1', '.', '2', '.', '3', '-', 'a', '\n'] = .ok ⟨1, 2, 3, [.str ['a']], []⟩ ∧
    equal ⟨1, 2, 3, [.str ['a']], []⟩ ⟨1, 2, 3, [.str ['a', '\n']], []⟩ = false := by
  rw [Accepted]
  decide

end Joolia.Version
