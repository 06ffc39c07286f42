import Joolia.Base.VersionSpec.Keys

namespace Joolia.Version

open Fallible

-- The versions of a range are those with a key in an interval.
theorem contains_iff (r : VersionRange) (v : VersionNumber) :
    r.contains v = true ↔ r.lower.low ≤ v.key ∧ v.key ≤ r.upper.high := by
  rw [VersionRange.contains, Bool.and_eq_true, aboveLower_iff, belowUpper_iff]

-- Replacing a lower bound by an upper bound with the same digits does not change the range.
theorem new_low (lo hi : VersionBound) : (VersionRange.new lo hi).lower.low = lo.low := by
  rw [VersionRange.new]
  split_ifs with h
  · simp only [Prod.mk.injEq] at h
    simp [VersionBound.low, h.1, h.2.1, h.2.2]
  · rfl

theorem new_upper (lo hi : VersionBound) : (VersionRange.new lo hi).upper = hi := by
  rw [VersionRange.new]
  split_ifs <;> rfl

-- The key lies in one of the ranges.
def Covers (ranges : List VersionRange) (x : ℕ) : Prop := ∃ r ∈ ranges, r.lower.low ≤ x ∧ x ≤ r.upper.high

theorem covers_append (as bs : List VersionRange) (x : ℕ) : Covers (as ++ bs) x ↔ Covers as x ∨ Covers bs x := by
  simp only [Covers, List.mem_append]
  constructor
  · rintro ⟨r, hr | hr, h⟩
    · exact .inl ⟨r, hr, h⟩
    · exact .inr ⟨r, hr, h⟩
  · rintro (⟨r, hr, h⟩ | ⟨r, hr, h⟩)
    · exact ⟨r, .inl hr, h⟩
    · exact ⟨r, .inr hr, h⟩

theorem covers_singleton (r : VersionRange) (x : ℕ) : Covers [r] x ↔ r.lower.low ≤ x ∧ x ≤ r.upper.high := by
  simp [Covers]

theorem covers_perm {as bs : List VersionRange} (h : as.Perm bs) (x : ℕ) : Covers as x ↔ Covers bs x := by
  simp only [Covers, h.mem_iff]

-- One range ends before the next one begins.
def Separated (a b : VersionRange) : Prop := a.upper.high < b.lower.low

-- The order that union! sorts by does not go down in the first versions.
theorem low_le_of_not_rangeLt {a b : VersionRange} (h : rangeLt b a = false) : a.lower.low ≤ b.lower.low := by
  simp only [rangeLt, Bool.or_eq_false_iff] at h
  have hnot := h.1
  rw [← Bool.not_eq_true, islessLl_iff] at hnot
  omega

theorem bound_eq_of_low {a b : VersionBound} (hlow : a.low = b.low) (hn : a.n = b.n) : a = b := by
  have hle := (low_le_iff a b).mp (by omega)
  have hge := (low_le_iff b a).mp (by omega)
  have h0 : a.t0 = b.t0 := UInt32.toNat_inj.mp (by omega)
  have h1 : a.t1 = b.t1 := UInt32.toNat_inj.mp (by omega)
  have h2 : a.t2 = b.t2 := UInt32.toNat_inj.mp (by omega)
  cases a
  cases b
  simp_all

theorem rangeLt_iff (a b : VersionRange) : rangeLt a b = true ↔
    (a.lower.low < b.lower.low ∨ (a.lower.low = b.lower.low ∧ a.lower.n < b.lower.n)) ∨
      (a.lower.low = b.lower.low ∧ a.lower.n = b.lower.n ∧
        (a.upper.high < b.upper.high ∨ (a.upper.high = b.upper.high ∧ b.upper.n < a.upper.n))) := by
  rw [rangeLt, Bool.or_eq_true, Bool.and_eq_true, islessLl_iff, islessUu_iff, decide_eq_true_eq]
  constructor
  · rintro (h | ⟨h, h'⟩)
    · exact .inl h
    · exact .inr ⟨by rw [h], by rw [h], h'⟩
  · rintro (h | ⟨h, hn, h'⟩)
    · exact .inl h
    · exact .inr ⟨bound_eq_of_low h hn, h'⟩

theorem sorted_mergeSort (ranges : List VersionRange) :
    (ranges.mergeSort fun a b => !rangeLt b a).Pairwise fun a b => a.lower.low ≤ b.lower.low := by
  have hsorted := @List.pairwise_mergeSort _ (fun a b => !rangeLt b a)
    (by
      intro a b c hab hbc
      simp only [Bool.not_eq_true', ← Bool.not_eq_true, rangeLt_iff] at hab hbc ⊢
      omega)
    (by
      intro a b
      simp only [Bool.or_eq_true, Bool.not_eq_true', ← Bool.not_eq_true, rangeLt_iff]
      omega) ranges
  refine hsorted.imp ?_
  intro a b h
  exact low_le_of_not_rangeLt (by simpa using h)

-- The loop of union! before it looks at position `k`.
structure Progress (sorted : List VersionRange) (k : ℕ) (s : UnionState) : Prop where
  length : s.ranges.length = sorted.length
  room : s.k0 < k
  unread : ∀ j, k ≤ j → s.ranges[j]? = sorted[j]?
  nonempty : ∀ r ∈ s.ranges.take s.k0, r.lower.low ≤ r.upper.high
  apart : (s.ranges.take s.k0).Pairwise Separated
  before : ∀ r ∈ s.ranges.take s.k0, r.upper.high < s.lo.low
  ordered : s.lo.low ≤ s.up.high
  ahead : ∀ r ∈ sorted.drop k, s.lo.low ≤ r.lower.low
  covers : ∀ x, Covers (s.ranges.take s.k0) x ∨ (s.lo.low ≤ x ∧ x ≤ s.up.high) ↔ Covers (sorted.take k) x

theorem take_set_self {l : List VersionRange} {k : ℕ} (h : k < l.length) (r : VersionRange) :
    (l.set k r).take (k + 1) = l.take k ++ [r] := by
  rw [List.take_add_one, List.take_set_of_le (Nat.le_refl k), List.getElem?_set_self h]
  rfl

section Passes

variable {sorted : List VersionRange} {k : ℕ} {s : UnionState}

theorem take_succ_of_getElem? {r : VersionRange} (h : sorted[k]? = some r) : sorted.take (k + 1) = sorted.take k ++ [r] := by
  rw [List.take_add_one, h]
  rfl

theorem Progress.ahead_succ (h : Progress sorted k s) : ∀ r ∈ sorted.drop (k + 1), s.lo.low ≤ r.lower.low := by
  intro r hr
  rw [← List.drop_drop] at hr
  exact h.ahead r (List.mem_of_mem_drop hr)

-- An empty range adds nothing.
theorem Progress.skip (h : Progress sorted k s) {r : VersionRange} (hr : sorted[k]? = some r)
    (hempty : r.isempty = true) : Progress sorted (k + 1) s := by
  have hbad := (isempty_iff r).mp hempty
  refine ⟨h.length, by have := h.room; omega, fun j hj => h.unread j (by omega), h.nonempty, h.apart, h.before,
    h.ordered, h.ahead_succ, ?_⟩
  intro x
  have hnone : ¬ (r.lower.low ≤ x ∧ x ≤ r.upper.high) := by omega
  rw [take_succ_of_getElem? hr, covers_append, covers_singleton, h.covers, or_iff_left hnone]

-- A range that begins before the end of the current one, or right after it, extends it.
theorem Progress.join (h : Progress sorted k s) {r : VersionRange} (hr : sorted[k]? = some r)
    (hjoin : r.lower.low ≤ s.up.high + 1) {up : VersionBound} (hup : up.high = max s.up.high r.upper.high) :
    Progress sorted (k + 1) { s with up := up } := by
  have hahead := h.ahead r (List.mem_of_getElem? (by rw [List.getElem?_drop, Nat.add_zero]; exact hr))
  have hordered := h.ordered
  refine ⟨h.length, by have := h.room; dsimp only; omega, fun j hj => h.unread j (by omega), h.nonempty, h.apart,
    h.before, ?_, h.ahead_succ, ?_⟩
  · dsimp only
    omega
  · intro x
    rw [take_succ_of_getElem? hr, covers_append, covers_singleton, ← h.covers, or_assoc]
    refine or_congr_right ?_
    dsimp only
    omega

-- The ranges written so far, followed by the current one.
theorem Progress.written (h : Progress sorted k s) (hk : k ≤ sorted.length) :
    ∃ out, (s.ranges.set s.k0 (.new s.lo s.up)).take (s.k0 + 1) = out ∧
      (∀ x, Covers out x ↔ Covers (sorted.take k) x) ∧ (∀ r ∈ out, r.lower.low ≤ r.upper.high) ∧
      out.Pairwise Separated ∧ ∀ r ∈ out, r.upper.high ≤ s.up.high := by
  have hordered := h.ordered
  have hin : s.k0 < s.ranges.length := by
    have := h.room
    rw [h.length]
    omega
  refine ⟨_, take_set_self hin _, ?_, ?_, ?_, ?_⟩
  · intro x
    rw [covers_append, covers_singleton, new_low, new_upper, h.covers]
  · intro r hr
    rcases List.mem_append.mp hr with hr | hr
    · exact h.nonempty r hr
    · rw [List.mem_singleton.mp hr, new_low, new_upper]
      exact hordered
  · rw [List.pairwise_append]
    refine ⟨h.apart, List.pairwise_singleton _ _, ?_⟩
    intro a ha b hb
    rw [List.mem_singleton.mp hb, Separated, new_low]
    exact h.before a ha
  · intro r hr
    rcases List.mem_append.mp hr with hr | hr
    · have := h.before r hr
      omega
    · rw [List.mem_singleton.mp hr, new_upper]

-- What comes later in a sorted list.
theorem low_le_of_mem_drop (hsorted : sorted.Pairwise fun a b => a.lower.low ≤ b.lower.low) {r a : VersionRange}
    (hr : sorted[k]? = some r) (ha : a ∈ sorted.drop (k + 1)) : r.lower.low ≤ a.lower.low := by
  obtain ⟨j, hj⟩ := List.mem_iff_getElem?.mp ha
  rw [List.getElem?_drop] at hj
  obtain ⟨hlt, rfl⟩ := List.getElem?_eq_some_iff.mp hj
  obtain ⟨hlt', rfl⟩ := List.getElem?_eq_some_iff.mp hr
  exact List.pairwise_iff_getElem.mp hsorted k (k + 1 + j) hlt' hlt (by omega)

-- A range that begins later closes the current one.
theorem Progress.close (h : Progress sorted k s) (hsorted : sorted.Pairwise fun a b => a.lower.low ≤ b.lower.low)
    {r : VersionRange} (hr : sorted[k]? = some r) (hgap : s.up.high < r.lower.low)
    (hfull : r.lower.low ≤ r.upper.high) :
    Progress sorted (k + 1)
      ⟨s.ranges.set s.k0 (.new s.lo s.up), r.lower, r.upper, s.k0 + 1⟩ := by
  have hk : k < sorted.length := (List.getElem?_eq_some_iff.mp hr).1
  have hroom := h.room
  obtain ⟨_, rfl, hcovers, hnonempty, hapart, hbound⟩ := h.written hk.le
  refine ⟨by simp [h.length], by dsimp only; omega, ?_, hnonempty, hapart, ?_, hfull, ?_, ?_⟩
  · intro j hj
    rw [← h.unread j (by omega), List.getElem?_set_ne (by omega)]
  · intro a ha
    exact Nat.lt_of_le_of_lt (hbound a ha) hgap
  · intro a ha
    exact low_le_of_mem_drop hsorted hr ha
  · intro x
    rw [take_succ_of_getElem? hr, covers_append, covers_singleton, hcovers]

-- One pass of the loop of union!.
theorem unionStep_spec (hsorted : sorted.Pairwise fun a b => a.lower.low ≤ b.lower.low) (h : Progress sorted k s)
    (hk : k < sorted.length) : ∃ next, unionStep s k = .ok next ∧ Progress sorted (k + 1) next := by
  obtain ⟨r, hr⟩ : ∃ r, sorted[k]? = some r := ⟨_, List.getElem?_eq_getElem hk⟩
  have hread : s.ranges[k]? = some r := by rw [h.unread k (Nat.le_refl k), hr]
  rw [unionStep, hread]
  dsimp only
  by_cases hempty : r.isempty = true
  · rw [if_pos hempty]
    exact ⟨s, rfl, h.skip hr hempty⟩
  rw [if_neg hempty]
  have hfull : r.lower.low ≤ r.upper.high := by
    rw [isempty_iff] at hempty
    omega
  obtain ⟨hclose, hopen⟩ := isjoinable_gap s.up r.lower
  by_cases hjoin : isjoinable s.up r.lower = true
  · rw [if_pos hjoin]
    by_cases hless : islessUu s.up r.upper = true
    · rw [if_pos hless]
      have hle := (islessUu_iff _ _).mp hless
      exact ⟨_, rfl, h.join hr (hclose hjoin) (by omega)⟩
    · rw [if_neg hless]
      rw [islessUu_iff] at hless
      exact ⟨s, rfl, h.join hr (hclose hjoin) (by omega)⟩
  · rw [if_neg hjoin]
    have hnonempty : (VersionRange.new s.lo s.up).isempty = false := by
      rw [← Bool.not_eq_true, isempty_iff, new_low, new_upper]
      have := h.ordered
      omega
    simp only [hnonempty, Bool.false_eq_true, if_false]
    exact ⟨_, rfl, h.close hsorted hr (hopen (by simpa using hjoin)) hfull⟩

-- The loop starts at the first range that is not empty.
theorem Progress.start (hsorted : sorted.Pairwise fun a b => a.lower.low ≤ b.lower.low) {first : VersionRange}
    (hfirst : sorted[k]? = some first) (hfull : first.isempty = false)
    (hbefore : ∀ j < k, ∀ r, sorted[j]? = some r → r.isempty = true) :
    Progress sorted (k + 1) ⟨sorted, first.lower, first.upper, 0⟩ := by
  have hordered : first.lower.low ≤ first.upper.high := by
    rw [← Bool.not_eq_true, isempty_iff] at hfull
    omega
  refine ⟨rfl, by simp, fun _ _ => rfl, by simp, by simp, by simp, hordered, ?_, ?_⟩
  · intro a ha
    exact low_le_of_mem_drop hsorted hfirst ha
  · intro x
    have hnone : ¬ Covers (sorted.take k) x := by
      rintro ⟨r, hr, hlo, hhi⟩
      obtain ⟨j, hj⟩ := List.mem_iff_getElem?.mp hr
      rw [List.getElem?_take] at hj
      split_ifs at hj with hjk
      have := (isempty_iff r).mp (hbefore j hjk r hj)
      omega
    have hnil : ¬ Covers [] x := by simp [Covers]
    rw [take_succ_of_getElem? hfirst, covers_append, covers_singleton, or_iff_right hnone, List.take_zero,
      or_iff_right hnil]

end Passes

-- What union! makes of any list of ranges.
theorem unionRanges_spec (ranges : List VersionRange) : ∃ out, unionRanges ranges = .ok out ∧
    (∀ x, Covers out x ↔ Covers ranges x) ∧ (∀ r ∈ out, r.lower.low ≤ r.upper.high) ∧ out.Pairwise Separated := by
  rw [unionRanges]
  by_cases hl : ranges.length = 0
  · rw [List.length_eq_zero_iff] at hl
    subst hl
    exact ⟨[], rfl, by simp, by simp, by simp⟩
  simp only [hl, if_false]
  have hperm := List.mergeSort_perm ranges fun a b => !rangeLt b a
  have hsorted := sorted_mergeSort ranges
  generalize (ranges.mergeSort fun a b => !rangeLt b a) = sorted at hperm hsorted
  rw [← hperm.length_eq]
  cases hks : sorted.findIdx? fun r => !r.isempty with
  | none =>
      refine ⟨[], rfl, ?_, by simp, by simp⟩
      intro x
      rw [← covers_perm hperm]
      rw [List.findIdx?_eq_none_iff] at hks
      constructor
      · simp [Covers]
      · rintro ⟨r, hr, hlo, hhi⟩
        have := (isempty_iff r).mp (by simpa using hks r hr)
        omega
  | some ks =>
      obtain ⟨hlt, hfull, hbefore⟩ := List.findIdx?_eq_some_iff_getElem.mp hks
      have hfirst : sorted[ks]? = some sorted[ks] := List.getElem?_eq_getElem hlt
      have hstart := Progress.start hsorted hfirst (by simpa using hfull) (by
        intro j hj r hr
        obtain ⟨_, rfl⟩ := List.getElem?_eq_some_iff.mp hr
        simpa using hbefore j hj)
      obtain ⟨s, hrun, hs⟩ := foldlM_up (fun k s => Progress sorted k s) hlt hstart
        (fun i state _ hi hP => unionStep_spec hsorted hP hi)
      have hordered := hs.ordered
      obtain ⟨out, hout, hcovers, hfull, hapart, -⟩ := hs.written (Nat.le_refl _)
      have hnonempty : (VersionRange.new s.lo s.up).isempty = false := by
        rw [← Bool.not_eq_true, isempty_iff, new_low, new_upper]
        omega
      simp only [hfirst, hrun, ok_bind, hnonempty, Bool.false_eq_true, if_false]
      refine ⟨out, by rw [hout]; rfl, ?_, hfull, hapart⟩
      intro x
      rw [hcovers, List.take_length, covers_perm hperm]

end Joolia.Version
