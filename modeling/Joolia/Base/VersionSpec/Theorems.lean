import Joolia.Base.VersionSpec.Union

namespace Joolia.Version

open Fallible

-- The version with the components of a bound.
def VersionBound.version (b : VersionBound) : VersionNumber := ⟨b.t0, b.t1, b.t2, [], []⟩

theorem exists_contains {r : VersionRange} (h : r.lower.low ≤ r.upper.high) : ∃ v, r.contains v = true :=
  ⟨r.lower.version, (contains_iff r _).mpr ⟨Nat.le_refl _, h⟩⟩

theorem spec_contains_iff (s : VersionSpec) (v : VersionNumber) : s.contains v = true ↔ Covers s.ranges v.key := by
  simp [VersionSpec.contains, Covers, contains_iff]

theorem spec_isempty_iff (s : VersionSpec) : s.isempty = true ↔ ∀ v, s.contains v = false := by
  simp only [VersionSpec.isempty, List.all_eq_true, VersionSpec.contains, List.any_eq_false]
  constructor
  · intro h v r hr hv
    have hbad := (isempty_iff r).mp (h r hr)
    have := (contains_iff r v).mp hv
    omega
  · intro h r hr
    rw [isempty_iff]
    by_contra hfull
    obtain ⟨v, hv⟩ := exists_contains (Nat.le_of_not_lt hfull)
    exact h v r hr hv

theorem specNew_spec (ranges : List VersionRange) : ∃ s, VersionSpec.new ranges = .ok s ∧
    ∀ v, s.contains v = true ↔ Covers ranges v.key := by
  rw [VersionSpec.new]
  by_cases hone : ranges.length = 1
  · rw [if_pos hone]
    exact ⟨⟨ranges⟩, rfl, spec_contains_iff _⟩
  · rw [if_neg hone]
    obtain ⟨out, hout, hcovers, -⟩ := unionRanges_spec ranges
    refine ⟨⟨out⟩, by rw [hout]; rfl, ?_⟩
    intro v
    rw [spec_contains_iff, hcovers]

theorem spec_union (A B : VersionSpec) : ∃ C, A.union B = .ok C ∧
    ∀ v, C.contains v = true ↔ A.contains v = true ∨ B.contains v = true := by
  rw [VersionSpec.union]
  by_cases hsame : A = B
  · subst hsame
    exact ⟨A, by simp, by simp⟩
  · rw [if_neg hsame]
    obtain ⟨out, hout, hcovers, -⟩ := unionRanges_spec (A.ranges ++ B.ranges)
    obtain ⟨C, hC, hin⟩ := specNew_spec out
    refine ⟨C, by rw [hout]; exact hC, ?_⟩
    intro v
    rw [hin, hcovers, covers_append, spec_contains_iff, spec_contains_iff]

-- The bounds of an intersection are the larger of the first and the smaller of the last versions.
theorem stricterlower_low (a b : VersionBound) : (stricterlower a b).low = max a.low b.low := by
  rw [stricterlower]
  split_ifs with h
  · rw [islessLl_iff] at h
    omega
  · rw [islessLl_iff] at h
    omega

theorem stricterupper_high (a b : VersionBound) : (stricterupper a b).high = min a.high b.high := by
  rw [stricterupper]
  split_ifs with h
  · rw [islessUu_iff] at h
    omega
  · rw [islessUu_iff] at h
    omega

theorem covers_products (as bs : List VersionRange) (x : ℕ) :
    Covers (as.flatMap fun a => bs.map fun b => a.intersect b) x ↔ Covers as x ∧ Covers bs x := by
  simp only [Covers, List.mem_flatMap, List.mem_map]
  constructor
  · rintro ⟨r, ⟨a, ha, b, hb, rfl⟩, hlo, hhi⟩
    rw [VersionRange.intersect, new_low, stricterlower_low] at hlo
    rw [VersionRange.intersect, new_upper, stricterupper_high] at hhi
    exact ⟨⟨a, ha, by omega, by omega⟩, ⟨b, hb, by omega, by omega⟩⟩
  · rintro ⟨⟨a, ha, halo, hahi⟩, ⟨b, hb, hblo, hbhi⟩⟩
    refine ⟨a.intersect b, ⟨a, ha, b, hb, rfl⟩, ?_, ?_⟩
    · rw [VersionRange.intersect, new_low, stricterlower_low]
      omega
    · rw [VersionRange.intersect, new_upper, stricterupper_high]
      omega

theorem spec_intersect (A B : VersionSpec) : ∃ C, A.intersect B = .ok C ∧
    ∀ v, C.contains v = true ↔ A.contains v = true ∧ B.contains v = true := by
  rw [VersionSpec.intersect]
  by_cases hempty : (A.isempty || B.isempty) = true
  · rw [if_pos hempty]
    refine ⟨emptyVersionspec, rfl, ?_⟩
    intro v
    rw [Bool.or_eq_true, spec_isempty_iff, spec_isempty_iff] at hempty
    have hnone : emptyVersionspec.contains v = false := rfl
    rcases hempty with h | h
    · simp [hnone, h v]
    · simp [hnone, h v]
  · rw [if_neg hempty]
    obtain ⟨C, hC, hin⟩ := specNew_spec (A.ranges.flatMap fun a => B.ranges.map fun b => a.intersect b)
    refine ⟨C, hC, ?_⟩
    intro v
    rw [hin, covers_products, spec_contains_iff, spec_contains_iff]

-- A version that does not come before another has no smaller components.
theorem key_le_of_not_isless {a b : VersionNumber} (h : isless b a = false) : a.key ≤ b.key := by
  rw [VersionNumber.key, VersionNumber.key, weigh_le_iff (toNat_lt_wide _) (toNat_lt_wide _) (toNat_lt_wide _)
    (toNat_lt_wide _)]
  simp only [isless, UInt32.lt_iff_toNat_lt] at h
  split_ifs at h <;> omega

section Marks

variable {versions : List VersionNumber}

-- The first loop stops at the first version that is not below the range.
theorem skipBelow_spec (lower : VersionBound) (versions : List VersionNumber) (i fuel : ℕ)
    (hfuel : versions.length ≤ i + fuel) :
    i ≤ skipBelow lower versions i fuel ∧
      (∀ j v, i ≤ j → j < skipBelow lower versions i fuel → versions[j]? = some v → aboveLower lower v = false) ∧
      ∀ v, versions[skipBelow lower versions i fuel]? = some v → aboveLower lower v = true := by
  induction fuel generalizing i with
  | zero =>
      refine ⟨Nat.le_refl _, fun j v hlo hhi => absurd hhi (Nat.not_lt_of_le hlo), ?_⟩
      intro v hv
      rw [skipBelow, List.getElem?_eq_none (by omega)] at hv
      cases hv
  | succ fuel ih =>
      rw [skipBelow]
      cases hread : versions[i]? with
      | none =>
          refine ⟨Nat.le_refl _, fun j v hlo hhi => absurd hhi (Nat.not_lt_of_le hlo), ?_⟩
          intro v hv
          rw [hread] at hv
          cases hv
      | some w =>
          dsimp only
          split_ifs with habove
          · refine ⟨Nat.le_refl _, fun j v hlo hhi => absurd hhi (Nat.not_lt_of_le hlo), ?_⟩
            intro v hv
            rw [hread] at hv
            cases hv
            exact habove
          · obtain ⟨hle, hbelow, hstop⟩ := ih (i + 1) (by omega)
            refine ⟨by omega, ?_, hstop⟩
            intro j v hlo hhi hv
            rcases Nat.eq_or_lt_of_le hlo with rfl | hlt
            · rw [hread] at hv
              cases hv
              simpa using habove
            · exact hbelow j v hlt hhi hv

theorem length_markBelow (upper : VersionBound) (versions : List VersionNumber) (dest : List Bool) (i fuel : ℕ) :
    (markBelow upper versions dest i fuel).length = dest.length := by
  induction fuel generalizing dest i with
  | zero => rfl
  | succ fuel ih =>
      rw [markBelow]
      cases versions[i]? with
      | none => rfl
      | some v =>
          dsimp only
          split_ifs
          · rw [ih, List.length_set]
          · rfl

-- The second loop marks, from its start on, the versions that are not above the range.
theorem markBelow_spec (upper : VersionBound) (hsorted : versions.Pairwise fun a b => a.key ≤ b.key)
    (dest : List Bool) (i fuel : ℕ) (hfuel : versions.length ≤ i + fuel) (hdest : versions.length ≤ dest.length)
    (j : ℕ) :
    (markBelow upper versions dest i fuel)[j]? =
      if i ≤ j ∧ ∃ v, versions[j]? = some v ∧ belowUpper v upper = true then some true else dest[j]? := by
  induction fuel generalizing dest i with
  | zero =>
      rw [markBelow, if_neg]
      rintro ⟨hij, v, hv, -⟩
      rw [List.getElem?_eq_none (by omega)] at hv
      cases hv
  | succ fuel ih =>
      rw [markBelow]
      cases hread : versions[i]? with
      | none =>
          rw [if_neg]
          rintro ⟨hij, v, hv, -⟩
          rw [List.getElem?_eq_none_iff] at hread
          rw [List.getElem?_eq_none (by omega)] at hv
          cases hv
      | some w =>
          obtain ⟨hi, hget⟩ := List.getElem?_eq_some_iff.mp hread
          dsimp only
          by_cases hbelow : belowUpper w upper = true
          · rw [if_pos hbelow, ih (dest.set i true) (i + 1) (by omega) (by simpa using hdest)]
            by_cases hij : i = j
            · subst hij
              rw [if_neg (by omega), if_pos ⟨Nat.le_refl _, w, hread, hbelow⟩, List.getElem?_set_self (by omega)]
            · rw [List.getElem?_set_ne hij]
              refine if_congr ?_ rfl rfl
              refine and_congr_left fun _ => ?_
              omega
          · rw [if_neg hbelow, if_neg]
            rintro ⟨hij, v, hv, hv'⟩
            -- the versions after the first one above the range are above it too
            obtain ⟨hj, rfl⟩ := List.getElem?_eq_some_iff.mp hv
            rw [belowUpper_iff] at hbelow hv'
            rcases Nat.eq_or_lt_of_le hij with rfl | hlt
            · rw [hget] at hv'
              omega
            · have := List.pairwise_iff_getElem.mp hsorted i j hi hj hlt
              rw [hget] at this
              omega

-- The loops together mark the versions of the range.
theorem markRange_spec (range : VersionRange) (hsorted : versions.Pairwise fun a b => a.key ≤ b.key)
    (dest : List Bool) (hdest : versions.length ≤ dest.length) (j : ℕ) :
    (markBelow range.upper versions dest (skipBelow range.lower versions 0 versions.length) versions.length)[j]? =
      if ∃ v, versions[j]? = some v ∧ range.contains v = true then some true else dest[j]? := by
  obtain ⟨-, hbelow, hstop⟩ := skipBelow_spec range.lower versions 0 versions.length (by omega)
  rw [markBelow_spec _ hsorted _ _ _ (by omega) hdest]
  refine if_congr ?_ rfl rfl
  generalize skipBelow range.lower versions 0 versions.length = start at hbelow hstop
  constructor
  · rintro ⟨hle, v, hv, hup⟩
    refine ⟨v, hv, ?_⟩
    obtain ⟨hj, hget⟩ := List.getElem?_eq_some_iff.mp hv
    have hfirst := hstop _ (List.getElem?_eq_getElem (by omega : start < versions.length))
    rw [VersionRange.contains, hup, Bool.and_true, aboveLower_iff]
    rw [aboveLower_iff] at hfirst
    rcases Nat.eq_or_lt_of_le hle with rfl | hlt
    · rwa [hget] at hfirst
    · have := List.pairwise_iff_getElem.mp hsorted start j (by omega) hj hlt
      rw [hget] at this
      omega
  · rintro ⟨v, hv, hin⟩
    rw [VersionRange.contains, Bool.and_eq_true] at hin
    refine ⟨?_, v, hv, hin.2⟩
    by_contra hlt
    have := hbelow j v (Nat.zero_le _) (by omega) hv
    rw [hin.1] at this
    cases this

-- All the ranges of a spec, one after the other.
theorem markRanges_spec (hsorted : versions.Pairwise fun a b => a.key ≤ b.key) (ranges : List VersionRange)
    (dest : List Bool) (hdest : versions.length ≤ dest.length) (j : ℕ) :
    (ranges.foldl (fun dest range => markBelow range.upper versions dest
      (skipBelow range.lower versions 0 versions.length) versions.length) dest)[j]? =
      if ∃ v, versions[j]? = some v ∧ (ranges.any (·.contains v)) = true then some true else dest[j]? := by
  induction ranges generalizing dest with
  | nil => simp
  | cons range ranges ih =>
      rw [List.foldl_cons, ih _ (by rwa [length_markBelow]), markRange_spec range hsorted dest hdest]
      cases hv : versions[j]? with
      | none => simp
      | some v =>
          simp only [Option.some.injEq, exists_eq_left', List.any_cons, Bool.or_eq_true]
          by_cases hrange : range.contains v = true
          · simp [hrange]
          · simp [hrange]

theorem matchesSpecRange_spec (spec : VersionSpec) (hsorted : versions.Pairwise fun a b => a.key ≤ b.key)
    (dest : List Bool) (hdest : versions.length ≤ dest.length) :
    ∃ out, matchesSpecRange dest versions spec versions.length = .ok out ∧
      (∀ (j : ℕ) v, versions[j]? = some v → out[j]? = some (spec.contains v)) ∧
      ∀ j : ℕ, versions.length ≤ j → out[j]? = dest[j]? := by
  have hlen : versions.length ≤ (List.replicate versions.length false ++ dest.drop versions.length).length := by
    simp
  refine ⟨_, by simp [matchesSpecRange, Nat.not_lt_of_le hdest]; rfl, ?_, ?_⟩
  · intro j v hv
    have hj := (List.getElem?_eq_some_iff.mp hv).1
    rw [markRanges_spec hsorted _ _ hlen, List.getElem?_append_left (by simpa using hj), List.getElem?_replicate,
      if_pos hj, VersionSpec.contains]
    by_cases hin : (spec.ranges.any (·.contains v)) = true
    · rw [if_pos ⟨v, hv, hin⟩, hin]
    · rw [if_neg, Bool.eq_false_of_not_eq_true hin]
      rintro ⟨w, hw, hin'⟩
      rw [hv] at hw
      cases hw
      exact hin hin'
  · intro j hj
    have hnone : versions[j]? = none := List.getElem?_eq_none hj
    rw [markRanges_spec hsorted _ _ hlen, if_neg (by simp [hnone]), List.getElem?_append_right (by simpa using hj),
      List.getElem?_drop, List.length_replicate, Nat.add_sub_of_le hj]

end Marks

-- The ranges that union! returns, in terms of the versions they contain.
theorem unionRanges_contains (ranges : List VersionRange) : ∃ out, unionRanges ranges = .ok out ∧
    (∀ v, (∃ r ∈ out, r.contains v = true) ↔ ∃ r ∈ ranges, r.contains v = true) ∧
    (∀ r ∈ out, r.isempty = false ∧ ∃ v, r.contains v = true) ∧
    out.Pairwise (fun a b => islessLl a.lower b.lower = true ∧
      ∀ v w, a.contains v = true → b.contains w = true → v.key < w.key) := by
  obtain ⟨out, hout, hcovers, hfull, hapart⟩ := unionRanges_spec ranges
  refine ⟨out, hout, ?_, ?_, ?_⟩
  · intro v
    simpa only [contains_iff, Covers] using hcovers v.key
  · intro r hr
    refine ⟨?_, exists_contains (hfull r hr)⟩
    rw [← Bool.not_eq_true, isempty_iff]
    exact Nat.not_lt_of_le (hfull r hr)
  · refine hapart.imp_of_mem ?_
    intro a b ha hb hab
    have hordered := hfull a ha
    rw [Separated] at hab
    refine ⟨(islessLl_iff _ _).mpr (.inl (by omega)), ?_⟩
    intro v w hv hw
    rw [contains_iff] at hv hw
    omega

-- The ranges form an algebra of sets of versions: union! keeps the versions and returns nonempty
-- ranges in order and apart from one another, the operations of the specs are those of sets, and
-- the batch test marks the members.
theorem version_sets_form_an_algebra :
    (∀ ranges : List VersionRange, ∃ out, unionRanges ranges = .ok out ∧
      (∀ v, (∃ r ∈ out, r.contains v = true) ↔ ∃ r ∈ ranges, r.contains v = true) ∧
      (∀ r ∈ out, r.isempty = false ∧ ∃ v, r.contains v = true) ∧
      (out.Pairwise fun a b => islessLl a.lower b.lower = true) ∧
      (out.Pairwise fun a b => ∀ v, ¬ (a.contains v = true ∧ b.contains v = true))) ∧
    (∀ A B : VersionSpec,
      (∃ C, A.union B = .ok C ∧ ∀ v, C.contains v = true ↔ A.contains v = true ∨ B.contains v = true) ∧
      (∃ C, A.intersect B = .ok C ∧ ∀ v, C.contains v = true ↔ A.contains v = true ∧ B.contains v = true) ∧
      (A.isempty = true ↔ ∀ v, A.contains v = false)) ∧
    ∀ (spec : VersionSpec) (versions : List VersionNumber) (dest : List Bool),
      (versions.Pairwise fun a b => isless b a = false) → versions.length ≤ dest.length →
      ∃ out, matchesSpecRange dest versions spec versions.length = .ok out ∧
        (∀ (j : ℕ) v, versions[j]? = some v → out[j]? = some (spec.contains v)) ∧
        ∀ j : ℕ, versions.length ≤ j → out[j]? = dest[j]? := by
  refine ⟨?_, ?_, ?_⟩
  · intro ranges
    obtain ⟨out, hout, hin, hfull, hapart⟩ := unionRanges_contains ranges
    refine ⟨out, hout, hin, hfull, hapart.imp fun h => h.1, hapart.imp ?_⟩
    rintro a b ⟨-, h⟩ v ⟨ha, hb⟩
    exact Nat.lt_irrefl _ (h v v ha hb)
  · intro A B
    exact ⟨spec_union A B, spec_intersect A B, spec_isempty_iff A⟩
  · intro spec versions dest hsorted hdest
    exact matchesSpecRange_spec spec (hsorted.imp key_le_of_not_isless) dest hdest

-- Two ranges of a spec, and the versions 1.2.0 and 1.3.0-"" in a sorted list.
theorem version_sets_form_an_algebra_sample :
    ∃ out, matchesSpecRange [false, false, true] [⟨1, 2, 0, [], []⟩, ⟨1, 3, 0, [.str []], []⟩]
        ⟨[⟨⟨1, 0, 0, 1, by decide, by decide⟩, ⟨1, 2, 0, 2, by decide, by decide⟩⟩]⟩ 2 = .ok out ∧
      (∀ (j : ℕ) v, [(⟨1, 2, 0, [], []⟩ : VersionNumber), ⟨1, 3, 0, [.str []], []⟩][j]? = some v →
        out[j]? = some (VersionSpec.contains
          ⟨[⟨⟨1, 0, 0, 1, by decide, by decide⟩, ⟨1, 2, 0, 2, by decide, by decide⟩⟩]⟩ v)) ∧
      ∀ j : ℕ, 2 ≤ j → out[j]? = [false, false, true][j]? :=
  version_sets_form_an_algebra.2.2 _ [⟨1, 2, 0, [], []⟩, ⟨1, 3, 0, [.str []], []⟩] [false, false, true] (by decide)
    (by decide)

end Joolia.Version
