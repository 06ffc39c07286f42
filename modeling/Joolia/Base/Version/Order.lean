import Joolia.Base.Version
import Mathlib.Order.Basic

namespace Joolia.Version

open Std

section Idents

-- Characters are compared by their code points, and strings like lists of characters.
def charCmp (c d : Char) : Ordering := compare c.toNat d.toNat

theorem cmpText_eq (a b : List Char) : cmpText a b = List.compareLex charCmp a b := by
  induction a generalizing b with
  | nil =>
      cases b with
      | nil => rfl
      | cons d b => rfl
  | cons c a ih =>
      cases b with
      | nil => rfl
      | cons d b =>
          rw [cmpText, List.compareLex_cons_cons, ih, charCmp]
          change (if c.toNat < d.toNat then _ else if d.toNat < c.toNat then _ else _) = _
          rcases Nat.lt_trichotomy c.toNat d.toNat with h | h | h
          · rw [if_pos h, Nat.compare_eq_lt.mpr h]
            rfl
          · rw [if_neg (by omega), if_neg (by omega), Nat.compare_eq_eq.mpr h]
            rfl
          · rw [if_neg (by omega), if_pos h, Nat.compare_eq_gt.mpr h]
            rfl

theorem identsCmp_eq (a b : List Ident) : identsCmp a b = List.compareLex identCmp a b := by
  induction a generalizing b with
  | nil =>
      cases b with
      | nil => rfl
      | cons d b => rfl
  | cons c a ih =>
      cases b with
      | nil => rfl
      | cons d b =>
          rw [identsCmp, List.compareLex_cons_cons, ih]
          cases identCmp c d <;> rfl

-- The rank of an identifier: the empty one, the numbers, the other strings.
def Ident.rank : Ident → ℕ
  | .int _ => 1
  | .str [] => 0
  | .str (_ :: _) => 2

def Ident.number : Ident → ℕ
  | .int i => i.toNat
  | .str _ => 0

def Ident.text : Ident → List Char
  | .int _ => []
  | .str s => s

theorem identCmp_eq (a b : Ident) : identCmp a b =
    (compare a.rank b.rank).then ((compare a.number b.number).then (List.compareLex charCmp a.text b.text)) := by
  cases a with
  | int i =>
      cases b with
      | int j =>
          simp only [identCmp, Ident.rank, Ident.number, Ident.text, UInt64.lt_iff_toNat_lt]
          rcases Nat.lt_trichotomy i.toNat j.toNat with h | h | h
          · rw [if_pos h, Nat.compare_eq_lt.mpr h]
            rfl
          · rw [if_neg (by omega), if_neg (by omega), Nat.compare_eq_eq.mpr h]
            rfl
          · rw [if_neg (by omega), if_pos h, Nat.compare_eq_gt.mpr h]
            rfl
      | str s =>
          cases s with
          | nil => rfl
          | cons c s => rfl
  | str s =>
      cases b with
      | int j =>
          cases s with
          | nil => rfl
          | cons c s => rfl
      | str t =>
          rw [identCmp, cmpText_eq]
          cases s with
          | nil =>
              cases t with
              | nil => rfl
              | cons d t => rfl
          | cons c s =>
              cases t with
              | nil => rfl
              | cons d t => rfl

end Idents

section Orders

-- A comparison of images.
theorem transCmp_comap {α β : Type} (f : α → β) {cmp : β → β → Ordering} (h : TransCmp cmp) :
    TransCmp fun a b => cmp (f a) (f b) where
  eq_swap := OrientedCmp.eq_swap
  isLE_trans := TransCmp.isLE_trans

theorem transCmp_then {α : Type} {c d : α → α → Ordering} (hc : TransCmp c) (hd : TransCmp d) :
    TransCmp fun a b => (c a b).then (d a b) := (inferInstance : TransCmp (compareLex c d))

theorem transCmp_nat : TransCmp (compare : ℕ → ℕ → Ordering) := inferInstance

theorem transCmp_lists {α : Type} {cmp : α → α → Ordering} (h : TransCmp cmp) : TransCmp (List.compareLex cmp) :=
  inferInstance

theorem transCmp_identCmp : TransCmp identCmp := by
  have hchars : TransCmp charCmp := transCmp_comap Char.toNat transCmp_nat
  have h := transCmp_then (transCmp_comap Ident.rank transCmp_nat) (transCmp_then
    (transCmp_comap Ident.number transCmp_nat) (transCmp_comap Ident.text (transCmp_lists hchars)))
  rwa [← funext fun a => funext (identCmp_eq a)] at h

theorem lawful_charCmp : LawfulEqCmp charCmp where
  compare_self := Nat.compare_eq_eq.mpr rfl
  eq_of_compare h := Char.toNat_inj.mp (Nat.compare_eq_eq.mp h)

theorem lawful_lists {α : Type} {cmp : α → α → Ordering} (h : LawfulEqCmp cmp) : LawfulEqCmp (List.compareLex cmp) :=
  inferInstance

theorem lawful_identCmp : LawfulEqCmp identCmp where
  compare_self {a} := by
    have h := transCmp_identCmp
    exact @ReflCmp.compare_self _ identCmp _ a
  eq_of_compare {a b} h := by
    have htexts := lawful_lists lawful_charCmp
    rw [identCmp_eq, Ordering.then_eq_eq, Ordering.then_eq_eq, Nat.compare_eq_eq, Nat.compare_eq_eq] at h
    obtain ⟨hrank, hnumber, htext⟩ := h
    have htext := LawfulEqCmp.eq_of_compare htext
    cases a with
    | int i =>
        cases b with
        | int j => exact congrArg Ident.int (UInt64.toNat_inj.mp hnumber)
        | str t =>
            cases t with
            | nil => simp [Ident.rank] at hrank
            | cons d t => simp [Ident.rank] at hrank
    | str s =>
        cases b with
        | int j =>
            cases s with
            | nil => simp [Ident.rank] at hrank
            | cons c s => simp [Ident.rank] at hrank
        | str t => exact congrArg Ident.str htext

theorem transCmp_identsCmp : TransCmp identsCmp := by
  have h := transCmp_lists transCmp_identCmp
  rwa [← funext fun a => funext (identsCmp_eq a)] at h

theorem identsCmp_eq_iff (a b : List Ident) : identsCmp a b = .eq ↔ a = b := by
  have h := lawful_lists lawful_identCmp
  rw [identsCmp_eq]
  constructor
  · exact LawfulEqCmp.eq_of_compare
  · rintro rfl
    exact @ReflCmp.compare_self _ (List.compareLex identCmp) _ a

end Orders

section Versions

-- What isless compares, one after the other: an empty pre-release comes after the others, and so does
-- a single empty build.
def preRank (v : VersionNumber) : ℕ := if v.prerelease.isEmpty then 1 else 0

def buildRank (v : VersionNumber) : ℕ := if issupbuild v then 1 else 0

def versionCmp (a b : VersionNumber) : Ordering :=
  (compare a.major.toNat b.major.toNat).then ((compare a.minor.toNat b.minor.toNat).then
    ((compare a.patch.toNat b.patch.toNat).then ((compare (preRank a) (preRank b)).then
      ((identsCmp a.prerelease b.prerelease).then ((compare (buildRank a) (buildRank b)).then
        (identsCmp a.build b.build))))))

theorem transCmp_versionCmp : TransCmp versionCmp :=
  transCmp_then (transCmp_comap (fun v : VersionNumber => v.major.toNat) transCmp_nat) (transCmp_then
    (transCmp_comap (fun v : VersionNumber => v.minor.toNat) transCmp_nat) (transCmp_then
      (transCmp_comap (fun v : VersionNumber => v.patch.toNat) transCmp_nat) (transCmp_then (transCmp_comap preRank transCmp_nat)
        (transCmp_then (transCmp_comap VersionNumber.prerelease transCmp_identsCmp)
          (transCmp_then (transCmp_comap buildRank transCmp_nat)
            (transCmp_comap VersionNumber.build transCmp_identsCmp))))))

-- One stage of a comparison of numbers.
theorem stage_lt {x y : UInt32} {rest : Bool} {o : Ordering} (h : rest = true ↔ o = .lt) :
    (if x < y then true else if y < x then false else rest) = true ↔ (compare x.toNat y.toNat).then o = .lt := by
  simp only [UInt32.lt_iff_toNat_lt]
  rcases Nat.lt_trichotomy x.toNat y.toNat with hlt | heq | hgt
  · simp [hlt, Nat.compare_eq_lt.mpr hlt]
  · rw [if_neg (by omega), if_neg (by omega), Nat.compare_eq_eq.mpr heq, h]
    rfl
  · rw [if_neg (by omega), if_pos hgt, Nat.compare_eq_gt.mpr hgt]
    simp

theorem isless_iff (a b : VersionNumber) : isless a b = true ↔ versionCmp a b = .lt := by
  rw [isless, versionCmp]
  refine stage_lt (stage_lt (stage_lt ?_))
  rw [preRank, preRank, buildRank, buildRank]
  cases ha : a.prerelease.isEmpty <;> cases hb : b.prerelease.isEmpty <;>
    cases identsCmp a.prerelease b.prerelease <;> cases issupbuild a <;> cases issupbuild b <;>
    cases identsCmp a.build b.build <;> decide

theorem equal_iff (a b : VersionNumber) : equal a b = true ↔ a = b := by
  cases a
  cases b
  simp only [equal, ne_eq, ite_not, identsCmp_eq_iff, VersionNumber.mk.injEq]
  split_ifs with hmajor hminor hpatch hpre hbuild <;> simp_all

theorem versionCmp_eq_iff (a b : VersionNumber) : versionCmp a b = .eq ↔ a = b := by
  constructor
  · intro h
    simp only [versionCmp, Ordering.then_eq_eq, Nat.compare_eq_eq, identsCmp_eq_iff, UInt32.toNat_inj] at h
    obtain ⟨hmajor, hminor, hpatch, -, hpre, -, hbuild⟩ := h
    cases a
    cases b
    simp_all
  · rintro rfl
    have h := transCmp_versionCmp
    exact @ReflCmp.compare_self _ versionCmp _ a

theorem isless_swap (a b : VersionNumber) : isless b a = true ↔ versionCmp a b = .gt := by
  have h := transCmp_versionCmp
  rw [isless_iff, @OrientedCmp.eq_swap _ versionCmp _ b a, Ordering.swap_eq_lt]

theorem isless_trans {a b c : VersionNumber} (hab : isless a b = true) (hbc : isless b c = true) :
    isless a c = true := by
  have h := transCmp_versionCmp
  rw [isless_iff] at *
  exact TransCmp.lt_trans hab hbc

-- Nothing comes before an identifier list with a single empty string, except the empty list.
theorem identsCmp_empty_ne_lt {pre : List Ident} (h : pre ≠ []) : identsCmp pre [.str []] ≠ .lt := by
  obtain ⟨a, as, rfl⟩ := List.exists_cons_of_ne_nil h
  cases as with
  | nil =>
      cases a with
      | int i => simp [identsCmp, identCmp]
      | str s => cases s <;> simp [identsCmp, identCmp, cmpText]
  | cons b bs =>
      cases a with
      | int i => simp [identsCmp, identCmp]
      | str s => cases s <;> simp [identsCmp, identCmp, cmpText]

end Versions

end Joolia.Version

namespace Joolia.Version

open IntFuncs Parse Positional Regex

section Numbers

-- The decimal digits of a number, at least one.
def decimal (x : ℕ) : List Char :=
  (lastDigits 10 x (max 1 ((Nat.digits 10 x).length : ℤ)).toNat).map (digitChar 10)

variable {T : IntType}

theorem printInt_eq (mem : ℕ → UInt8) (n : MachineInt T) (hn : 0 ≤ n.val) :
    printInt mem n = .ok (decimal n.val.natAbs) := by
  obtain ⟨text, htext, heq⟩ := string_ok mem n (by omega : 2 ≤ 10) (by omega) 1 (by omega)
  rw [Nat.cast_ofNat] at htext
  have hds : ∀ d ∈ lastDigits 10 n.val.natAbs (max 1 ((Nat.digits 10 n.val.natAbs).length : ℤ)).toNat, d < 10 :=
    fun d hd => mem_lastDigits (by omega) hd
  rw [printInt, htext]
  dsimp only
  rw [heq, decide_eq_false (by omega), signed, if_neg Bool.false_ne_true, List.nil_append]
  exact congrArg Except.ok (characters_digits (by omega) hds)

theorem digits_table : ∀ d < 10, (digitChar 10 d).isDigit = true ∧ (digitChar 10 d).toNat < 128 := by decide

theorem isDigit_of_mem_decimal {x : ℕ} {c : Char} (hc : c ∈ decimal x) : c.isDigit = true ∧ c.toNat < 128 := by
  obtain ⟨d, hd, rfl⟩ := List.mem_map.mp hc
  exact digits_table d (mem_lastDigits (by omega) hd)

theorem decimal_ne_nil (x : ℕ) : decimal x ≠ [] := by
  rw [← List.length_pos_iff, decimal, List.length_map, length_lastDigits]
  omega

theorem parseNumber_decimal {x : ℕ} (hx : (x : ℤ) ≤ T.typemax) : parseNumber T (decimal x) = .ok (x : ℤ) := by
  have hds : ∀ d ∈ lastDigits 10 x (max 1 ((Nat.digits 10 x).length : ℤ)).toNat, d < 10 :=
    fun d hd => mem_lastDigits (by omega) hd
  have hvalue := value_lastDigits (by omega : 2 ≤ 10) 1 x
  have hne : lastDigits 10 x (max 1 ((Nat.digits 10 x).length : ℤ)).toNat ≠ [] := by
    rw [← List.length_pos_iff, length_lastDigits]
    omega
  have h := parse_decimal (T := T) hne hds (by rwa [hvalue])
  rw [hvalue] at h
  rw [parseNumber, decimal, h]

end Numbers

section Letters

theorem digit_of_isDigit (pcre : Pcre) {c : Char} (h : c.isDigit = true ∧ c.toNat < 128) : pcre.digit c = true := by
  rw [pcre.digit_ascii c h.2, h.1]

-- Neither a letter nor a dash is a digit.
theorem digit_of_letterOrDash (pcre : Pcre) {c : Char} (h : isLetterOrDash c = true) : pcre.digit c = false := by
  rw [isLetterOrDash, Bool.or_eq_true, beq_iff_eq] at h
  rcases h with h | rfl
  · rw [isLetter, decide_eq_true_eq] at h
    have hascii : c.toNat < 128 → ¬ (48 ≤ c.toNat ∧ c.toNat ≤ 57) → pcre.digit c = false := by
      intro hlt hnot
      rw [pcre.digit_ascii c hlt, ← Bool.not_eq_true, Char.isDigit_iff_toNat]
      exact hnot
    rcases h with h | h | h | h
    · exact hascii (by omega) (by omega)
    · exact hascii (by omega) (by omega)
    · have hc : c = Char.ofNat 0x17f := Char.toNat_inj.mp (by rw [h]; rfl)
      rw [hc, pcre.digit_long_s]
    · have hc : c = Char.ofNat 0x212a := Char.toNat_inj.mp (by rw [h]; rfl)
      rw [hc, pcre.digit_kelvin]
  · rw [pcre.digit_ascii _ (by decide)]
    rfl

-- A text that the expressions can tell apart from the marks around it.
def IsWordText (s : List Char) : Prop := s ≠ [] ∧ ∀ c ∈ s, isWord c = true

theorem isWord_cases {c : Char} (h : isWord c = true) : c ≠ '.' ∧ c ≠ '+' ∧ c ≠ '\n' := by
  refine ⟨?_, ?_, ?_⟩
  · rintro rfl
    exact absurd h (by decide)
  · rintro rfl
    exact absurd h (by decide)
  · rintro rfl
    exact absurd h (by decide)

theorem isWordText_decimal (x : ℕ) : IsWordText (decimal x) := by
  refine ⟨decimal_ne_nil x, ?_⟩
  intro c hc
  rw [isWord, (isDigit_of_mem_decimal hc).1, Bool.true_or]

end Letters

section Idents

def identText : Ident → List Char
  | .int i => decimal i.toNat
  | .str s => s

theorem printIdent_eq (mem : ℕ → UInt8) (ident : Ident) : printIdent mem ident = .ok (identText ident) := by
  cases ident with
  | int i => exact printInt_eq mem (machine64 i) (Int.natCast_nonneg _)
  | str s => rfl

-- What the constructor lets through ends in a newline, is empty, or has a letter or a dash.
theorem occursin_identRegex {s : List Char} (h : Regex.occursin identRegex s = true) (hne : s ≠ [])
    (hlast : s.getLast? ≠ some '\n') : IsWordText s ∧ ∃ c ∈ s, isLetterOrDash c = true := by
  obtain ⟨t, ht⟩ := Regex.occursin_iff.mp h
  obtain ⟨u, hu, hstop⟩ := mem_run_seq.mp ht
  obtain ⟨-, hend⟩ := mem_run_stop.mp hstop
  have hplain : Plain (.seq (.star word) (.seq letterOrDash (.star word))) := ⟨trivial, trivial, trivial⟩
  rcases mem_run_alt.mp hu with hu | hu
  · simp only [run, List.mem_singleton] at hu
    subst hu
    rcases hend with hend | hend
    · exact absurd hend hne
    · dsimp only at hend
      rw [hend] at hlast
      exact absurd rfl hlast
  · obtain ⟨w, hw, hrest, -⟩ := (mem_run_iff hplain _ _).mp hu
    dsimp only at hrest
    have hs : s = w := by
      rcases hend with hend | hend
      · rw [hrest, hend, List.append_nil]
      · rw [hrest, hend, List.getLast?_concat] at hlast
        exact absurd rfl hlast
    subst hs
    have hover : Over (fun c => isWord c = true) (.seq (.star word) (.seq letterOrDash (.star word))) := by
      refine ⟨fun c hc => hc, fun c hc => ?_, fun c hc => hc⟩
      change isWord c = true
      rw [isWord, hc, Bool.or_true]
    refine ⟨⟨hne, forall_of_mem_lang hover hw⟩, ?_⟩
    obtain ⟨x, -, y, hy, rfl⟩ := Language.mem_mul.mp hw
    obtain ⟨z, ⟨c, hc, rfl⟩, v, -, rfl⟩ := Language.mem_mul.mp hy
    exact ⟨c, by simp, hc⟩

-- The words between the dots are read as the identifiers they were.
theorem splitIdent_int (pcre : Pcre) (i : UInt64) : splitIdent pcre (decimal i.toNat) = .ok (.int i) := by
  have hplain : Plain (digits pcre) := ⟨trivial, trivial⟩
  have hdigits : decimal i.toNat ∈ lang (digits pcre) :=
    mem_lang_plus_chars.mpr ⟨decimal_ne_nil _, fun c hc => digit_of_isDigit pcre (isDigit_of_mem_decimal hc)⟩
  have hmatch : Regex.occursin (.seq .start (.seq (digits pcre) .stop)) (decimal i.toNat) = true := by
    refine Regex.occursin_iff.mpr ⟨⟨(decimal i.toNat).length, [], []⟩, ?_⟩
    refine mem_run_seq.mpr ⟨⟨(decimal i.toNat).length, [], []⟩,
      (mem_run_iff hplain _ _).mpr ⟨decimal i.toNat, hdigits, ?_, ?_, rfl⟩, mem_run_stop.mpr ⟨rfl, .inl rfl⟩⟩
    · simp
    · simp
  have hnumber := @parseNumber_decimal ⟨false, .w64⟩ i.toNat (machine64 i).le_max
  rw [splitIdent, if_pos hmatch, hnumber]
  simp only [Fallible.ok_bind, Fallible.pure_eq_ok, Int.toNat_natCast, UInt64.ofNat_toNat]

theorem splitIdent_str (pcre : Pcre) {s : List Char} {c : Char} (hc : c ∈ s) (hletter : isLetterOrDash c = true) :
    splitIdent pcre s = .ok (.str s) := by
  have hplain : Plain (digits pcre) := ⟨trivial, trivial⟩
  rw [splitIdent, if_neg]
  intro hmatch
  obtain ⟨t, ht⟩ := Regex.occursin_iff.mp hmatch
  obtain ⟨u, hu, hstop⟩ := mem_run_seq.mp ht
  obtain ⟨-, hend⟩ := mem_run_stop.mp hstop
  obtain ⟨w, hw, hrest, -⟩ := (mem_run_iff hplain _ _).mp hu
  dsimp only at hrest
  rw [hrest] at hc
  rcases List.mem_append.mp hc with hc | hc
  · have hdigit := (mem_lang_plus_chars.mp hw).2 c hc
    rw [digit_of_letterOrDash pcre hletter] at hdigit
    cases hdigit
  · rcases hend with hend | hend
    · rw [hend] at hc
      simp at hc
    · rw [hend, List.mem_singleton] at hc
      subst hc
      exact absurd hletter (by decide)

end Idents

section Joined

-- The words of a part with dots between them.
def joined (idents : List Ident) : List Char := ['.'].intercalate (idents.map identText)

variable {idents : List Ident}

theorem joinIdents_eq (mem : ℕ → UInt8) (idents : List Ident) : joinIdents mem idents = .ok (joined idents) := by
  have hmap : idents.mapM (printIdent mem) = .ok (idents.map identText) := by
    induction idents with
    | nil => rfl
    | cons ident idents ih =>
        rw [List.mapM_cons, printIdent_eq, Fallible.ok_bind, ih]
        rfl
  rw [joinIdents, hmap]
  rfl

theorem joined_cons_cons (a b : Ident) (idents : List Ident) :
    joined (a :: b :: idents) = identText a ++ '.' :: joined (b :: idents) := by
  simp [joined, List.intercalate]

theorem joined_singleton (a : Ident) : joined [a] = identText a := by
  simp [joined, List.intercalate]

theorem mem_dottedWords (hne : idents ≠ []) (h : ∀ a ∈ idents, IsWordText (identText a)) :
    joined idents ∈ lang dottedWords := by
  induction idents with
  | nil => exact absurd rfl hne
  | cons a idents ih =>
      have ha : identText a ∈ lang (.plus word) := mem_lang_plus_chars.mpr (h a (by simp))
      cases idents with
      | nil =>
          rw [joined_singleton]
          exact Language.mem_mul.mpr ⟨[], Language.nil_mem_kstar _, _, ha, rfl⟩
      | cons b idents =>
          obtain ⟨x, hx, y, hy, heq⟩ := Language.mem_mul.mp (ih (by simp) fun c hc => h c (by simp [hc]))
          have hdot : ['.'] ∈ lang (char '.') := ⟨'.', by simp, rfl⟩
          have hfirst : identText a ++ ['.'] ∈ lang (.seq (.plus word) (char '.')) :=
            Language.mem_mul.mpr ⟨_, ha, _, hdot, rfl⟩
          have hmore : identText a ++ ['.'] ++ x ∈ lang (.star (.seq (.plus word) (char '.'))) :=
            (mul_kstar_le_kstar : lang (.seq (.plus word) (char '.')) * _ ≤ _)
              (Language.mem_mul.mpr ⟨_, hfirst, x, hx, rfl⟩)
          refine Language.mem_mul.mpr ⟨_, hmore, y, hy, ?_⟩
          rw [joined_cons_cons, ← heq]
          simp

-- The letters of a part.
theorem joined_letters (h : ∀ a ∈ idents, IsWordText (identText a)) : ∀ c ∈ joined idents, isWord c = true ∨ c = '.' := by
  induction idents with
  | nil => simp [joined, List.intercalate]
  | cons a idents ih =>
      have ha := h a (by simp)
      cases idents with
      | nil =>
          rw [joined_singleton]
          intro c hc
          exact .inl (ha.2 c hc)
      | cons b idents =>
          rw [joined_cons_cons]
          intro c hc
          rcases List.mem_append.mp hc with hc | hc
          · exact .inl (ha.2 c hc)
          · rcases List.mem_cons.mp hc with rfl | hc
            · exact .inr rfl
            · exact ih (fun d hd => h d (by simp [hd])) c hc

theorem splitIdents_joined (pcre : Pcre) (hne : idents ≠ []) (h : ∀ a ∈ idents, IsWordText (identText a))
    (hsplit : ∀ a ∈ idents, splitIdent pcre (identText a) = .ok a) :
    splitIdents pcre (joined idents) = .ok idents := by
  have hdots : ∀ x ∈ idents.map identText, '.' ∉ x := by
    intro x hx hdot
    obtain ⟨a, ha, rfl⟩ := List.mem_map.mp hx
    exact (isWord_cases ((h a ha).2 '.' hdot)).1 rfl
  rw [splitIdents, joined, List.splitOn_intercalate '.' hdots (by simpa using hne)]
  clear hdots hne h
  induction idents with
  | nil => rfl
  | cons a idents ih =>
      rw [List.map_cons, List.mapM_cons, hsplit a (by simp), Fallible.ok_bind, ih fun d hd => hsplit d (by simp [hd])]
      rfl

end Joined

end Joolia.Version
