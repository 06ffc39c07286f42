import Joolia.Base.VersionSpec.Theorems

namespace Joolia.Version

open Fallible

section Code

inductive SemverError
  | spec (err : SpecError)
  | errorException (msg : String)
  | overflowError
  | inexactError
deriving DecidableEq, Repr

-- The numbers that the expression `version` captures; the ones left out are the last ones.
structure Captures where
  major : ℕ
  minor : Option ℕ
  patch : Option ℕ
  nested : minor = none → patch = none
deriving DecidableEq, Repr

-- The captures that are not `nothing`, without the first one
def Captures.nSignificant (m : Captures) : ℕ := 1 + (if m.minor.isSome then 1 else 0) + if m.patch.isSome then 1 else 0

inductive SemverPrefix
  | empty
  | caret
  | tilde
deriving DecidableEq, Repr

inductive Inequality
  | less
  | equal
  | greaterEqual
deriving DecidableEq, Repr

inductive Specifier
  | semver (typ : SemverPrefix) (m : Captures)
  | inequality (typ : Inequality) (m : Captures)
  | hyphen (lower upper : Captures)
deriving DecidableEq, Repr

-- `parse(Int, n)` for a row of digits
def parseInt (n : ℕ) : Except SemverError ℤ := if n < 2 ^ 63 then .ok n else .error .overflowError

-- `convert(UInt32, x)`
def convertUInt32 (x : ℤ) : Except SemverError UInt32 :=
  if 0 ≤ x ∧ x < 2 ^ 32 then .ok (UInt32.ofNat x.toNat) else .error .inexactError

def versionBound (t : List ℤ) : Except SemverError VersionBound := do
  let t ← t.mapM convertUInt32
  match VersionBound.new t with
  | .ok b => return b
  | .error err => throw (.spec err)

-- The lines that `semver_interval` and `inequality_interval` share.
def readNumbers (m : Captures) (msg : String) : Except SemverError (ℤ × ℤ × ℤ) := do
  let major ← parseInt m.major
  let minor ← if m.nSignificant < 2 then pure 0 else parseInt (m.minor.getD 0)
  let patch ← if m.nSignificant < 3 then pure 0 else parseInt (m.patch.getD 0)
  if m.nSignificant = 3 ∧ major = 0 ∧ minor = 0 ∧ patch = 0 then throw (.errorException msg)
  return (major, minor, patch)

-- `b[i]` as an operand of integer arithmetic
def component (b : VersionBound) (i : ℕ) : ℤ := (b.getindex i).toNat

def semverInterval (typ : SemverPrefix) (m : Captures) : Except SemverError VersionRange := do
  let (major, minor, patch) ← readNumbers m "invalid version: \"0.0.0\""
  let v0 ← versionBound [major, minor, patch]
  let upper :=
    if typ = .empty ∨ typ = .caret then
      if major ≠ 0 then [component v0 0]
      else if minor ≠ 0 then [component v0 0, component v0 1]
      else if m.nSignificant = 1 then [0]
      else if m.nSignificant = 2 then [0, 0]
      else [0, 0, component v0 2]
    else if m.nSignificant = 3 ∨ m.nSignificant = 2 then [component v0 0, component v0 1]
    else [component v0 0]
  return .new v0 (← versionBound upper)

def inequalityInterval (typ : Inequality) (m : Captures) : Except SemverError VersionRange := do
  let (major, minor, patch) ← readNumbers m "invalid version: 0.0.0"
  let v ← versionBound [major, minor, patch]
  match typ with
  | .less =>
      let nil ← versionBound [0, 0, 0]
      let v1 ← versionBound <|
        if component v 2 = 0 then
          if component v 1 = 0 then [component v 0 - 1] else [component v 0, component v 1 - 1]
        else [component v 0, component v 1, component v 2 - 1]
      return .new nil v1
  | .equal => return .new v v
  | .greaterEqual => return .new v (← versionBound [])

-- Either half of `hyphen_interval`
def hyphenBound (m : Captures) : Except SemverError VersionBound := do
  match m.minor, m.patch with
  | none, _ => versionBound [← parseInt m.major]
  | some minor, none => versionBound [← parseInt m.major, ← parseInt minor]
  | some minor, some patch => versionBound [← parseInt m.major, ← parseInt minor, ← parseInt patch]

def hyphenInterval (lower upper : Captures) : Except SemverError VersionRange := do
  let lowerBound ← hyphenBound lower
  let upperBound ← hyphenBound upper
  return .new lowerBound upperBound

def interval : Specifier → Except SemverError VersionRange
  | .semver typ m => semverInterval typ m
  | .inequality typ m => inequalityInterval typ m
  | .hyphen lower upper => hyphenInterval lower upper

-- `semver_spec(s)` after the regular expressions have matched
def semverSpec (specs : List Specifier) : Except SemverError VersionSpec := do
  let ranges ← specs.mapM interval
  match VersionSpec.new ranges with
  | .ok spec => return spec
  | .error err => throw (.spec err)

end Code

section Documented

-- The numbers of a version
structure Triple where
  major : ℕ
  minor : ℕ
  patch : ℕ
deriving DecidableEq, Repr

def Triple.before (a b : Triple) : Prop :=
  a.major < b.major ∨ (a.major = b.major ∧ (a.minor < b.minor ∨ (a.minor = b.minor ∧ a.patch < b.patch)))

def VersionNumber.triple (v : VersionNumber) : Triple := ⟨v.major.toNat, v.minor.toNat, v.patch.toNat⟩

-- From `lower` on, and before `upper` if there is one.
structure HalfOpen where
  lower : Triple
  upper : Option Triple

def HalfOpen.mem (i : HalfOpen) (v : Triple) : Prop := ¬v.before i.lower ∧ ∀ u, i.upper = some u → v.before u

-- Numbers that are left out are zero.
def Captures.triple (m : Captures) : Triple := ⟨m.major, m.minor.getD 0, m.patch.getD 0⟩

-- The first version after those that agree with the numbers given
def Captures.wildcardEnd (m : Captures) : Triple :=
  match m.minor, m.patch with
  | none, _ => ⟨m.major + 1, 0, 0⟩
  | some minor, none => ⟨m.major, minor + 1, 0⟩
  | some minor, some patch => ⟨m.major, minor, patch + 1⟩

-- The next change of the left-most nonzero number, or of the last one if all are zero
def Captures.caretEnd (m : Captures) : Triple :=
  if m.major ≠ 0 then ⟨m.major + 1, 0, 0⟩ else if m.minor.getD 0 ≠ 0 then ⟨0, m.minor.getD 0 + 1, 0⟩ else m.wildcardEnd

-- The next minor version, or the next major one if only the major number is given
def Captures.tildeEnd (m : Captures) : Triple :=
  match m.minor with
  | none => ⟨m.major + 1, 0, 0⟩
  | some minor => ⟨m.major, minor + 1, 0⟩

def documented : Specifier → HalfOpen
  | .semver .empty m | .semver .caret m => ⟨m.triple, some m.caretEnd⟩
  | .semver .tilde m => ⟨m.triple, some m.tildeEnd⟩
  | .inequality .less m => ⟨⟨0, 0, 0⟩, some m.triple⟩
  | .inequality .equal m => ⟨m.triple, some ⟨m.triple.major, m.triple.minor, m.triple.patch + 1⟩⟩
  | .inequality .greaterEqual m => ⟨m.triple, none⟩
  | .hyphen lower upper => ⟨lower.triple, some upper.wildcardEnd⟩

-- The numbers fit 32 bits.
def Captures.Fits (m : Captures) : Prop := m.major < 2 ^ 32 ∧ m.minor.getD 0 < 2 ^ 32 ∧ m.patch.getD 0 < 2 ^ 32

def Captures.ThreeZeros (m : Captures) : Prop := m.major = 0 ∧ m.minor = some 0 ∧ m.patch = some 0

-- What the grammar of the specifiers excludes.
def Specifier.Admissible : Specifier → Prop
  | .semver _ m => m.Fits ∧ ¬m.ThreeZeros
  | .inequality _ m => m.Fits ∧ ¬m.ThreeZeros
  | .hyphen lower upper => lower.Fits ∧ upper.Fits

-- `< 0` and `< 0.0`
def Specifier.BelowZero : Specifier → Prop
  | .inequality .less m => m.triple = ⟨0, 0, 0⟩
  | _ => False

end Documented

section Bounds

theorem convertUInt32_natCast {n : ℕ} (h : n < 2 ^ 32) : convertUInt32 n = .ok (UInt32.ofNat n) := by
  rw [convertUInt32, if_pos (by omega), Int.toNat_natCast]

theorem toNat_ofNat {n : ℕ} (h : n < 2 ^ 32) : (UInt32.ofNat n).toNat = n := UInt32.toNat_ofNat_of_lt' h

-- A bound with the components of a list of numbers
structure Bounds (b : VersionBound) (low high : ℕ) : Prop where
  low : b.low = low
  high : b.high = high

theorem versionBound_one {a : ℕ} (ha : a < 2 ^ 32) :
    ∃ b, versionBound [(a : ℤ)] = .ok b ∧ Bounds b (weigh a 0 0) (weigh a 4294967295 4294967295) := by
  refine ⟨_, by rw [versionBound, List.mapM_cons, convertUInt32_natCast ha]; rfl, ?_, ?_⟩
  · simp only [VersionBound.low, toNat_ofNat ha]
    rfl
  · simp [VersionBound.high, toNat_ofNat ha]

theorem versionBound_two {a b : ℕ} (ha : a < 2 ^ 32) (hb : b < 2 ^ 32) :
    ∃ v, versionBound [(a : ℤ), (b : ℤ)] = .ok v ∧ Bounds v (weigh a b 0) (weigh a b 4294967295) := by
  refine ⟨_, by
    rw [versionBound, List.mapM_cons, List.mapM_cons, convertUInt32_natCast ha, convertUInt32_natCast hb]; rfl, ?_, ?_⟩
  · simp only [VersionBound.low, toNat_ofNat ha, toNat_ofNat hb]
    rfl
  · simp [VersionBound.high, toNat_ofNat ha, toNat_ofNat hb]

theorem versionBound_three {a b c : ℕ} (ha : a < 2 ^ 32) (hb : b < 2 ^ 32) (hc : c < 2 ^ 32) :
    ∃ v, versionBound [(a : ℤ), (b : ℤ), (c : ℤ)] = .ok v ∧ Bounds v (weigh a b c) (weigh a b c) ∧
      component v 0 = a ∧ component v 1 = b ∧ component v 2 = c := by
  refine ⟨_, by
    rw [versionBound, List.mapM_cons, List.mapM_cons, List.mapM_cons, convertUInt32_natCast ha, convertUInt32_natCast hb,
      convertUInt32_natCast hc]; rfl, ⟨?_, ?_⟩, ?_, ?_, ?_⟩
  · simp only [VersionBound.low, toNat_ofNat ha, toNat_ofNat hb, toNat_ofNat hc]
  · simp [VersionBound.high, toNat_ofNat ha, toNat_ofNat hb, toNat_ofNat hc]
  · exact congrArg Nat.cast (toNat_ofNat ha)
  · exact congrArg Nat.cast (toNat_ofNat hb)
  · exact congrArg Nat.cast (toNat_ofNat hc)

theorem parseInt_eq {n : ℕ} (h : n < 2 ^ 32) : parseInt n = .ok (n : ℤ) := if_pos (by omega)

theorem readNumbers_eq {m : Captures} (hfits : m.Fits) (hzero : ¬m.ThreeZeros) (msg : String) :
    readNumbers m msg = .ok ((m.major : ℤ), ((m.minor.getD 0 : ℕ) : ℤ), ((m.patch.getD 0 : ℕ) : ℤ)) := by
  obtain ⟨major, minor, patch, hnested⟩ := m
  obtain ⟨h0, h1, h2⟩ := hfits
  rw [readNumbers, parseInt_eq h0, ok_bind]
  cases minor with
  | none =>
      obtain rfl : patch = none := hnested rfl
      rfl
  | some minor =>
      cases patch with
      | none =>
          dsimp only [Option.getD_some] at h1
          simp [Captures.nSignificant, parseInt_eq h1]
      | some patch =>
          dsimp only [Option.getD_some] at h1 h2
          simp [Captures.nSignificant, parseInt_eq h1, parseInt_eq h2]
          intro hmajor hminor hpatch
          exact absurd ⟨hmajor, congrArg some hminor, congrArg some hpatch⟩ hzero

end Bounds

section Ends

variable {v : VersionNumber} {a b c : ℕ}

-- What a bound of each length means for the numbers of a version.
theorem not_before_iff (hb : b < 2 ^ 32) (hc : c < 2 ^ 32) : ¬v.triple.before ⟨a, b, c⟩ ↔ weigh a b c ≤ v.key := by
  have h1 := toNat_lt_wide v.minor
  have h2 := toNat_lt_wide v.patch
  simp only [Triple.before, VersionNumber.triple, VersionNumber.key, weigh]
  omega

theorem before_major_iff : v.triple.before ⟨a + 1, 0, 0⟩ ↔ v.key ≤ weigh a 4294967295 4294967295 := by
  have h1 := toNat_lt_wide v.minor
  have h2 := toNat_lt_wide v.patch
  simp only [Triple.before, VersionNumber.triple, VersionNumber.key, weigh]
  omega

theorem before_minor_iff (hb : b < 2 ^ 32) : v.triple.before ⟨a, b + 1, 0⟩ ↔ v.key ≤ weigh a b 4294967295 := by
  have h1 := toNat_lt_wide v.minor
  have h2 := toNat_lt_wide v.patch
  simp only [Triple.before, VersionNumber.triple, VersionNumber.key, weigh]
  omega

theorem before_patch_iff (hb : b < 2 ^ 32) (hc : c < 2 ^ 32) : v.triple.before ⟨a, b, c + 1⟩ ↔ v.key ≤ weigh a b c := by
  have h1 := toNat_lt_wide v.minor
  have h2 := toNat_lt_wide v.patch
  simp only [Triple.before, VersionNumber.triple, VersionNumber.key, weigh]
  omega

-- The range of a specifier has the versions of its documented interval.
def Denotes (r : Except SemverError VersionRange) (i : HalfOpen) : Prop :=
  ∃ range, r = .ok range ∧ ∀ v, range.contains v = true ↔ i.mem v.triple

theorem denotes_new {lo hi : VersionBound} {lower upper : Triple}
    (hlo : ∀ v : VersionNumber, ¬v.triple.before lower ↔ lo.low ≤ v.key)
    (hhi : ∀ v : VersionNumber, v.triple.before upper ↔ v.key ≤ hi.high) :
    Denotes (.ok (.new lo hi)) ⟨lower, some upper⟩ := by
  refine ⟨_, rfl, fun v => ?_⟩
  rw [contains_iff, new_low, new_upper, HalfOpen.mem, hlo, ← hhi]
  exact and_congr_right' ⟨fun h u hu => Option.some.inj hu ▸ h, fun h => h upper rfl⟩

-- An upper bound in front of a version: the three ways to write it
def Reaches (t : List ℤ) (upper : Triple) : Prop :=
  ∃ hi, versionBound t = .ok hi ∧ ∀ v : VersionNumber, v.triple.before upper ↔ v.key ≤ hi.high

theorem reaches_major (ha : a < 2 ^ 32) : Reaches [(a : ℤ)] ⟨a + 1, 0, 0⟩ := by
  obtain ⟨hi, hcall, -, hhigh⟩ := versionBound_one ha
  exact ⟨hi, hcall, fun v => by rw [hhigh, before_major_iff]⟩

theorem reaches_minor (ha : a < 2 ^ 32) (hb : b < 2 ^ 32) : Reaches [(a : ℤ), (b : ℤ)] ⟨a, b + 1, 0⟩ := by
  obtain ⟨hi, hcall, -, hhigh⟩ := versionBound_two ha hb
  exact ⟨hi, hcall, fun v => by rw [hhigh, before_minor_iff hb]⟩

theorem reaches_patch (ha : a < 2 ^ 32) (hb : b < 2 ^ 32) (hc : c < 2 ^ 32) :
    Reaches [(a : ℤ), (b : ℤ), (c : ℤ)] ⟨a, b, c + 1⟩ := by
  obtain ⟨hi, hcall, ⟨-, hhigh⟩, -⟩ := versionBound_three ha hb hc
  exact ⟨hi, hcall, fun v => by rw [hhigh, before_patch_iff hb hc]⟩

end Ends

section Intervals

variable {m : Captures}

-- The lower bound that the numbers of a specifier stand for
theorem exists_lower (hfits : m.Fits) : ∃ lo,
    versionBound [(m.major : ℤ), ((m.minor.getD 0 : ℕ) : ℤ), ((m.patch.getD 0 : ℕ) : ℤ)] = .ok lo ∧
      (∀ v : VersionNumber, ¬v.triple.before m.triple ↔ lo.low ≤ v.key) ∧
      (∀ v : VersionNumber, v.triple.before ⟨m.major, m.minor.getD 0, m.patch.getD 0 + 1⟩ ↔ v.key ≤ lo.high) ∧
      component lo 0 = m.major ∧ component lo 1 = (m.minor.getD 0 : ℕ) ∧ component lo 2 = (m.patch.getD 0 : ℕ) := by
  obtain ⟨h0, h1, h2⟩ := hfits
  obtain ⟨lo, hcall, ⟨hlow, hhigh⟩, hc⟩ := versionBound_three h0 h1 h2
  refine ⟨lo, hcall, fun v => ?_, fun v => ?_, hc⟩
  · rw [hlow]
    exact not_before_iff h1 h2
  · rw [hhigh]
    exact before_patch_iff h1 h2

theorem semverInterval_spec (hfits : m.Fits) (hzero : ¬m.ThreeZeros) (typ : SemverPrefix) :
    Denotes (semverInterval typ m) (documented (.semver typ m)) := by
  obtain ⟨lo, hlo, hbefore, -, hc0, hc1, hc2⟩ := exists_lower hfits
  have hrun : ∀ {upper : Triple}, Reaches (if typ = .empty ∨ typ = .caret then
      if (m.major : ℤ) ≠ 0 then [component lo 0]
      else if ((m.minor.getD 0 : ℕ) : ℤ) ≠ 0 then [component lo 0, component lo 1]
      else if m.nSignificant = 1 then [0]
      else if m.nSignificant = 2 then [0, 0]
      else [0, 0, component lo 2]
    else if m.nSignificant = 3 ∨ m.nSignificant = 2 then [component lo 0, component lo 1]
    else [component lo 0]) upper → Denotes (semverInterval typ m) ⟨m.triple, some upper⟩ := by
    rintro upper ⟨hi, hhi, hreach⟩
    rw [semverInterval, readNumbers_eq hfits hzero, ok_bind]
    dsimp only
    rw [hlo, ok_bind, hhi]
    exact denotes_new hbefore hreach
  obtain ⟨h0, h1, h2⟩ := hfits
  have htilde : Reaches (if m.nSignificant = 3 ∨ m.nSignificant = 2 then [component lo 0, component lo 1] else [component lo 0])
      m.tildeEnd := by
    rw [hc0, hc1]
    obtain ⟨major, minor, patch, hnested⟩ := m
    cases minor with
    | none =>
        obtain rfl : patch = none := hnested rfl
        exact reaches_major h0
    | some minor =>
        rw [if_pos (by cases patch <;> simp [Captures.nSignificant])]
        exact reaches_minor h0 h1
  have hcaret : Reaches (if (m.major : ℤ) ≠ 0 then [component lo 0]
      else if ((m.minor.getD 0 : ℕ) : ℤ) ≠ 0 then [component lo 0, component lo 1]
      else if m.nSignificant = 1 then [0]
      else if m.nSignificant = 2 then [0, 0]
      else [0, 0, component lo 2]) m.caretEnd := by
    rw [hc0, hc1, hc2, Captures.caretEnd]
    by_cases hmajor : m.major = 0
    · have hmajor' : ¬(m.major : ℤ) ≠ 0 := by omega
      rw [if_neg hmajor', if_neg (not_not_intro hmajor)]
      by_cases hminor : m.minor.getD 0 = 0
      · have hminor' : ¬((m.minor.getD 0 : ℕ) : ℤ) ≠ 0 := by omega
        rw [if_neg hminor', if_neg (not_not_intro hminor)]
        obtain ⟨major, minor, patch, hnested⟩ := m
        dsimp only at hmajor
        subst hmajor
        cases minor with
        | none =>
            obtain rfl : patch = none := hnested rfl
            exact reaches_major h0
        | some minor =>
            dsimp only [Option.getD_some] at hminor
            subst hminor
            cases patch with
            | none => exact reaches_minor h0 h1
            | some patch => exact reaches_patch h0 h1 h2
      · have hminor' : ((m.minor.getD 0 : ℕ) : ℤ) ≠ 0 := by omega
        rw [if_pos hminor', if_pos hminor, hmajor]
        exact reaches_minor (by omega) h1
    · have hmajor' : (m.major : ℤ) ≠ 0 := by omega
      rw [if_pos hmajor', if_pos hmajor]
      exact reaches_major h0
  cases typ with
  | empty => exact hrun hcaret
  | caret => exact hrun hcaret
  | tilde => exact hrun htilde

-- Everything below a version other than 0.0.0, by counting its last nonzero number down
theorem reaches_less (hfits : m.Fits) (hpos : m.triple ≠ ⟨0, 0, 0⟩) :
    Reaches (if ((m.patch.getD 0 : ℕ) : ℤ) = 0 then
        if ((m.minor.getD 0 : ℕ) : ℤ) = 0 then [(m.major : ℤ) - 1] else [(m.major : ℤ), ((m.minor.getD 0 : ℕ) : ℤ) - 1]
      else [(m.major : ℤ), ((m.minor.getD 0 : ℕ) : ℤ), ((m.patch.getD 0 : ℕ) : ℤ) - 1]) m.triple := by
  obtain ⟨h0, h1, h2⟩ := hfits
  rw [Captures.triple] at hpos ⊢
  generalize m.major = major at *
  generalize m.minor.getD 0 = minor at *
  generalize m.patch.getD 0 = patch at *
  cases patch with
  | zero =>
      rw [if_pos Nat.cast_zero]
      cases minor with
      | zero =>
          rw [if_pos Nat.cast_zero]
          cases major with
          | zero => exact absurd rfl hpos
          | succ major =>
              rw [Nat.cast_succ, add_sub_cancel_right]
              exact reaches_major (by omega)
      | succ minor =>
          rw [if_neg (Nat.cast_ne_zero.mpr minor.succ_ne_zero), Nat.cast_succ minor, add_sub_cancel_right]
          exact reaches_minor h0 (by omega)
  | succ patch =>
      rw [if_neg (Nat.cast_ne_zero.mpr patch.succ_ne_zero), Nat.cast_succ patch, add_sub_cancel_right]
      exact reaches_patch h0 h1 (by omega)

theorem inequalityInterval_spec (hfits : m.Fits) (hzero : ¬m.ThreeZeros) {typ : Inequality}
    (hbelow : ¬(Specifier.inequality typ m).BelowZero) :
    Denotes (inequalityInterval typ m) (documented (.inequality typ m)) := by
  obtain ⟨lo, hlo, hbefore, hafter, hc0, hc1, hc2⟩ := exists_lower hfits
  rw [inequalityInterval, readNumbers_eq hfits hzero, ok_bind]
  dsimp only
  rw [hlo, ok_bind]
  cases typ with
  | less =>
      obtain ⟨nil, hnil, ⟨hlow, -⟩, -⟩ := versionBound_three (a := 0) (b := 0) (c := 0) (by decide) (by decide) (by decide)
      obtain ⟨hi, hhi, hreach⟩ := reaches_less hfits hbelow
      have hnil' : versionBound [0, 0, 0] = .ok nil := hnil
      rw [hc0, hc1, hc2]
      dsimp only
      rw [hnil', ok_bind, hhi]
      refine denotes_new (fun v => ?_) hreach
      rw [hlow]
      exact not_before_iff (by decide) (by decide)
  | equal => exact denotes_new hbefore hafter
  | greaterEqual =>
      refine ⟨_, rfl, fun v => ?_⟩
      have h0 := toNat_lt_wide v.major
      have h1 := toNat_lt_wide v.minor
      have h2 := toNat_lt_wide v.patch
      have hall : v.key ≤ VersionBound.high ⟨0, 0, 0, 0, Nat.zero_le 3, zeros_zero⟩ := by
        simp only [VersionNumber.key, VersionBound.high, weigh, Nat.le_refl, if_pos, Nat.zero_le]
        omega
      rw [contains_iff, new_low, new_upper, ← hbefore, and_iff_left hall]
      exact ⟨fun h => ⟨h, fun u hu => by cases hu⟩, And.left⟩

-- The difference below zero is no number of a version.
theorem inequalityInterval_belowZero (hfits : m.Fits) (hzero : ¬m.ThreeZeros) {typ : Inequality}
    (hbelow : (Specifier.inequality typ m).BelowZero) : inequalityInterval typ m = .error .inexactError := by
  cases typ with
  | equal => exact absurd hbelow id
  | greaterEqual => exact absurd hbelow id
  | less =>
      obtain ⟨lo, hlo, -, -, hc0, hc1, hc2⟩ := exists_lower hfits
      have htriple : m.triple = ⟨0, 0, 0⟩ := hbelow
      rw [Captures.triple, Triple.mk.injEq] at htriple
      obtain ⟨h0, h1, h2⟩ := htriple
      rw [inequalityInterval, readNumbers_eq hfits hzero, ok_bind]
      dsimp only
      rw [hlo, ok_bind, hc0, hc1, hc2, h0, h1, h2]
      rfl

theorem hyphenBound_spec (hfits : m.Fits) : ∃ b, hyphenBound m = .ok b ∧
    (∀ v : VersionNumber, ¬v.triple.before m.triple ↔ b.low ≤ v.key) ∧
    ∀ v : VersionNumber, v.triple.before m.wildcardEnd ↔ v.key ≤ b.high := by
  obtain ⟨major, minor, patch, hnested⟩ := m
  obtain ⟨h0, h1, h2⟩ := hfits
  dsimp only at h0 h1 h2
  cases minor with
  | none =>
      obtain rfl : patch = none := hnested rfl
      obtain ⟨b, hb, hlow, hhigh⟩ := versionBound_one h0
      have hrun : hyphenBound ⟨major, none, none, hnested⟩ = parseInt major >>= fun a => versionBound [a] := rfl
      rw [parseInt_eq h0, ok_bind, hb] at hrun
      refine ⟨b, hrun, fun v => ?_, fun v => ?_⟩
      · rw [hlow]
        exact not_before_iff h1 h2
      · rw [hhigh]
        exact before_major_iff
  | some minor =>
      rw [Option.getD_some] at h1
      cases patch with
      | none =>
          obtain ⟨b, hb, hlow, hhigh⟩ := versionBound_two h0 h1
          have hrun : hyphenBound ⟨major, some minor, none, hnested⟩ =
              parseInt major >>= fun a => parseInt minor >>= fun b => versionBound [a, b] := rfl
          rw [parseInt_eq h0, ok_bind, parseInt_eq h1, ok_bind, hb] at hrun
          refine ⟨b, hrun, fun v => ?_, fun v => ?_⟩
          · rw [hlow]
            exact not_before_iff h1 h2
          · rw [hhigh]
            exact before_minor_iff h1
      | some patch =>
          rw [Option.getD_some] at h2
          obtain ⟨b, hb, ⟨hlow, hhigh⟩, -⟩ := versionBound_three h0 h1 h2
          have hrun : hyphenBound ⟨major, some minor, some patch, hnested⟩ =
              parseInt major >>= fun a => parseInt minor >>= fun b => parseInt patch >>= fun c => versionBound [a, b, c] := rfl
          rw [parseInt_eq h0, ok_bind, parseInt_eq h1, ok_bind, parseInt_eq h2, ok_bind, hb] at hrun
          refine ⟨b, hrun, fun v => ?_, fun v => ?_⟩
          · rw [hlow]
            exact not_before_iff h1 h2
          · rw [hhigh]
            exact before_patch_iff h1 h2

theorem hyphenInterval_spec {lower upper : Captures} (hlower : lower.Fits) (hupper : upper.Fits) :
    Denotes (hyphenInterval lower upper) (documented (.hyphen lower upper)) := by
  obtain ⟨lo, hlo, hbefore, -⟩ := hyphenBound_spec hlower
  obtain ⟨hi, hhi, -, hreach⟩ := hyphenBound_spec hupper
  rw [hyphenInterval, hlo, ok_bind, hhi, ok_bind]
  exact denotes_new hbefore hreach

theorem interval_spec {s : Specifier} (hs : s.Admissible) (hbelow : ¬s.BelowZero) : Denotes (interval s) (documented s) := by
  cases s with
  | semver typ m => exact semverInterval_spec hs.1 hs.2 typ
  | inequality typ m => exact inequalityInterval_spec hs.1 hs.2 hbelow
  | hyphen lower upper => exact hyphenInterval_spec hs.1 hs.2

theorem interval_belowZero {s : Specifier} (hs : s.Admissible) (hbelow : s.BelowZero) : interval s = .error .inexactError := by
  cases s with
  | semver typ m => exact absurd hbelow id
  | inequality typ m => exact inequalityInterval_belowZero hs.1 hs.2 hbelow
  | hyphen lower upper => exact absurd hbelow id

end Intervals

section Specs

-- The spec has the versions of the documented intervals.
def MeansDocumented (specs : List Specifier) : Prop :=
  ∃ spec, semverSpec specs = .ok spec ∧ ∀ v, spec.contains v = true ↔ ∃ s ∈ specs, (documented s).mem v.triple

theorem intervals_spec (specs : List Specifier) (hspecs : ∀ s ∈ specs, s.Admissible) (hbelow : ∀ s ∈ specs, ¬s.BelowZero) :
    ∃ ranges, specs.mapM interval = .ok ranges ∧
      ∀ v : VersionNumber, Covers ranges v.key ↔ ∃ s ∈ specs, (documented s).mem v.triple := by
  induction specs with
  | nil => exact ⟨[], rfl, fun v => by simp [Covers]⟩
  | cons s specs ih =>
      rw [List.forall_mem_cons] at hspecs hbelow
      obtain ⟨range, hrange, hin⟩ := interval_spec hspecs.1 hbelow.1
      obtain ⟨ranges, hranges, hrest⟩ := ih hspecs.2 hbelow.2
      refine ⟨range :: ranges, by rw [List.mapM_cons, hrange, ok_bind, hranges]; rfl, fun v => ?_⟩
      rw [← List.singleton_append, covers_append, covers_singleton, ← contains_iff, hin, hrest, List.exists_mem_cons_iff]

theorem mapM_error {specs : List Specifier} (hspecs : ∀ s ∈ specs, s.Admissible) (hbelow : ∃ s ∈ specs, s.BelowZero) :
    ∃ err, specs.mapM interval = .error err := by
  induction specs with
  | nil => simp at hbelow
  | cons s specs ih =>
      rw [List.forall_mem_cons] at hspecs
      rw [List.mapM_cons]
      by_cases hs : s.BelowZero
      · exact ⟨_, by rw [interval_belowZero hspecs.1 hs]; rfl⟩
      · obtain ⟨range, hrange, -⟩ := interval_spec hspecs.1 hs
        rw [List.exists_mem_cons_iff, or_iff_right hs] at hbelow
        obtain ⟨err, herr⟩ := ih hspecs.2 hbelow
        exact ⟨err, by rw [hrange, ok_bind, herr]; rfl⟩

-- Specifiers mean what is documented, unless one asks for the versions below zero without writing all three numbers.
theorem semver_spec_documented_iff (specs : List Specifier) (hspecs : ∀ s ∈ specs, s.Admissible) :
    MeansDocumented specs ↔ ¬∃ s ∈ specs, s.BelowZero := by
  constructor
  · rintro ⟨spec, hspec, -⟩ hbelow
    obtain ⟨err, herr⟩ := mapM_error hspecs hbelow
    rw [semverSpec, herr] at hspec
    cases hspec
  · intro hnone
    obtain ⟨ranges, hranges, hcovers⟩ := intervals_spec specs hspecs fun s hs hbelow => hnone ⟨s, hs, hbelow⟩
    obtain ⟨spec, hnew, hin⟩ := specNew_spec ranges
    refine ⟨spec, ?_, fun v => by rw [hin, hcovers]⟩
    rw [semverSpec, hranges, ok_bind, hnew]
    rfl

-- `~0.2, < 1.2.0`
theorem semver_spec_documented_sample :
    MeansDocumented [.semver .tilde ⟨0, some 2, none, nofun⟩, .inequality .less ⟨1, some 2, some 0, nofun⟩] := by
  refine (semver_spec_documented_iff _ fun s hs => ?_).mpr ?_
  · simp only [List.mem_cons, List.not_mem_nil, or_false] at hs
    rcases hs with rfl | rfl <;> simp [Specifier.Admissible, Captures.Fits, Captures.ThreeZeros]
  · simp [Specifier.BelowZero, Captures.triple]

-- `< 0` throws.
theorem semver_spec_below_zero : (Specifier.inequality .less ⟨0, none, none, fun _ => rfl⟩).Admissible ∧
    ¬MeansDocumented [.inequality .less ⟨0, none, none, fun _ => rfl⟩] := by
  refine ⟨by simp [Specifier.Admissible, Captures.Fits, Captures.ThreeZeros], ?_⟩
  rintro ⟨spec, hspec, -⟩
  have herror : semverSpec [.inequality .less ⟨0, none, none, fun _ => rfl⟩] = .error .inexactError := rfl
  rw [herror] at hspec
  cases hspec

end Specs

end Joolia.Version
