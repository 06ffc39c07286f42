import Joolia.Base.TypedRange.Arithmetic

namespace Joolia.TypedRange

open IntFuncs Fallible

-- The element at `i` of a range computed over the integers, if it does not pass `stop`.
def Passes (step stop x : ℤ) : Prop := if 0 < step then stop < x else x < stop

instance (step stop x : ℤ) : Decidable (Passes step stop x) := inferInstanceAs (Decidable (if 0 < step then stop < x else x < stop))

def element (start step stop i : ℤ) : Except IndexError ℤ :=
  if 0 ≤ i ∧ ¬Passes step stop (start + i * step) then .ok (start + i * step) else .error .BoundsError

section Bounds

variable {T : IntType}

theorem narrow_bounds (h : T.width.bits < 64) (x : MachineInt T) : -2 ^ 31 ≤ x.val ∧ x.val < 2 ^ 32 := by
  obtain ⟨signed, width⟩ := T
  have hlo := x.min_le
  have hhi := x.le_max
  cases width <;> cases signed <;> simp [Width.bits, Width.sizeof, IntType.typemin, IntType.typemax] at h hlo hhi ⊢ <;> omega

theorem wide_bounds (h : T.width ≠ .w128) (x : MachineInt T) : -2 ^ 63 ≤ x.val ∧ x.val < 2 ^ 64 := by
  obtain ⟨signed, width⟩ := T
  have hlo := x.min_le
  have hhi := x.le_max
  cases width <;> cases signed <;> simp [Width.bits, Width.sizeof, IntType.typemin, IntType.typemax] at h hlo hhi ⊢ <;> omega

theorem holds_int64 {x : ℤ} : Holds Int64 x ↔ -2 ^ 63 ≤ x ∧ x < 2 ^ 63 := by
  have hlo : Int64.typemin = -2 ^ 63 := rfl
  have hhi : Int64.typemax = 2 ^ 63 - 1 := rfl
  rw [Holds, hlo, hhi]
  omega

theorem holds_uint64 {x : ℤ} : Holds UInt64 x ↔ 0 ≤ x ∧ x < 2 ^ 64 := by
  have hlo : UInt64.typemin = 0 := rfl
  have hhi : UInt64.typemax = 2 ^ 64 - 1 := rfl
  rw [Holds, hlo, hhi]
  omega

-- A count beyond the type becomes a number below 1.
theorem wrap_int64_of_ge {x : ℤ} (hlo : 2 ^ 63 ≤ x) (hhi : x ≤ 2 ^ 64) : Int64.wrap x = x - 2 ^ 64 := by
  have hholds : Holds Int64 (x - 2 ^ 64) := holds_int64.2 (by omega)
  rw [← wrap_of_holds hholds]
  exact wrap_congr (Int.modEq_iff_dvd.2 ⟨-1, by norm_num [Width.bits, Width.sizeof, IntFuncs.Int64]⟩)

-- The types with 64 bits
theorem eq_int64_or_uint64 (hT : T.width ≠ .w128) (h : ¬T.width.bits < 64) : T = Int64 ∨ T = UInt64 := by
  obtain ⟨signed, width⟩ := T
  cases width with
  | w64 =>
      cases signed with
      | false => exact .inr rfl
      | true => exact .inl rfl
  | w128 => exact absurd rfl hT
  | w8 => exact absurd (by cases signed <;> decide) h
  | w16 => exact absurd (by cases signed <;> decide) h
  | w32 => exact absurd (by cases signed <;> decide) h

end Bounds

section Unit

variable {T : IntType} (v : UnitRange T)

-- The number of elements, as an integer
def UnitRange.count : ℤ := v.stop.val - v.start.val + 1

theorem UnitRange.length_narrow (h : T.width.bits < 64) : v.length = v.count := by
  have hstart := narrow_bounds h v.start
  have hstop := narrow_bounds h v.stop
  have hdiff : Holds Int64 (v.stop.val - v.start.val) := holds_int64.2 (by omega)
  have hcount : Holds Int64 (v.stop.val - v.start.val + 1) := holds_int64.2 (by omega)
  rw [UnitRange.length, if_pos h, wrap_of_holds hdiff, wrap_of_holds hcount, UnitRange.count]

theorem UnitRange.length_wide (h : ¬T.width.bits < 64) : v.length = T.wrap v.count := by
  have hmod : T.wrap (1 + T.wrap (v.stop.val - v.start.val)) = T.wrap v.count := by
    rw [UnitRange.count, Int.add_comm 1]
    exact wrap_congr ((wrap_modEq T _).add_right 1)
  rw [UnitRange.length, if_neg h]
  split_ifs with hpos
  · exact hmod
  · -- an empty range
    have hnorm := v.normalized
    have hzero : v.count = 0 := by
      rw [UnitRange.count]
      omega
    rw [hzero, wrap_of_holds (holds_zero T)]

theorem rangeLastindex_of_holds {n : ℤ} (h : Holds Int64 n) :
    rangeLastindex n = .ok (if n = -2 ^ 63 then 2 ^ 63 - 1 else n - 1) := by
  rw [rangeLastindex]
  by_cases h0 : n = 0
  · rw [h0]
    rfl
  · rw [if_neg h0, convert_of_holds h, ok_bind]
    split_ifs with hmin
    · rw [hmin]
      rfl
    · rw [holds_int64] at h
      have hpred : Holds Int64 (n - 1) := holds_int64.2 (by omega)
      rw [wrap_of_holds hpred]

theorem rangeLastindex_of_not_holds {n : ℤ} (h : ¬Holds Int64 n) : rangeLastindex n = .error .InexactError := by
  have h0 : n ≠ 0 := by
    rintro rfl
    exact h (by decide)
  rw [rangeLastindex, if_neg h0, convert_of_not_holds h, error_bind]

-- What `lastindex` is: one below the count, unless the count is beyond the type.
theorem UnitRange.lastindex_eq (hT : T.width ≠ .w128) (hunsigned : T = UInt64 → v.count < 2 ^ 63)
    (hsigned : T = Int64 → v.count ≤ 2 ^ 63) : rangeLastindex v.length = .ok (v.count - 1) := by
  have hnorm := v.normalized
  have hcount : v.count = v.stop.val - v.start.val + 1 := rfl
  by_cases hnarrow : T.width.bits < 64
  · have hstart := narrow_bounds hnarrow v.start
    have hstop := narrow_bounds hnarrow v.stop
    rw [v.length_narrow hnarrow, rangeLastindex_of_holds (holds_int64.2 (by omega)), if_neg (by omega)]
  · rw [v.length_wide hnarrow]
    rcases eq_int64_or_uint64 hT hnarrow with rfl | rfl
    · by_cases hlong : v.count = 2 ^ 63
      · rw [hlong]
        rfl
      · have hle := hsigned rfl
        have hholds : Holds Int64 v.count := holds_int64.2 (by omega)
        rw [wrap_of_holds hholds, rangeLastindex_of_holds hholds, if_neg (by omega)]
    · have hlt := hunsigned rfl
      rw [wrap_of_holds (holds_uint64.2 (by omega)), rangeLastindex_of_holds (holds_int64.2 (by omega)), if_neg (by omega)]

theorem UnitRange.count_le (hT : T.width ≠ .w128) : v.count ≤ 2 ^ 64 := by
  have hcount : v.count = v.stop.val - v.start.val + 1 := rfl
  by_cases hnarrow : T.width.bits < 64
  · have hstart := narrow_bounds hnarrow v.start
    have hstop := narrow_bounds hnarrow v.stop
    omega
  · have hstart := holds_val v.start
    have hstop := holds_val v.stop
    rcases eq_int64_or_uint64 hT hnarrow with rfl | rfl
    · rw [holds_int64] at hstart hstop
      omega
    · rw [holds_uint64] at hstart hstop
      omega

theorem UnitRange.lastindex_signed {v : UnitRange Int64} (hlong : 2 ^ 63 < v.count) :
    ∃ l < 0, rangeLastindex v.length = .ok l := by
  have hle := v.count_le (by decide)
  have hwrap := wrap_int64_of_ge (x := v.count) (by omega) hle
  rw [v.length_wide (by decide), hwrap, rangeLastindex_of_holds (holds_int64.2 (by omega)), if_neg (by omega)]
  exact ⟨_, by omega, rfl⟩

theorem UnitRange.lastindex_unsigned {v : UnitRange UInt64} (hlong : 2 ^ 63 ≤ v.count) :
    v.count = 2 ^ 64 ∧ rangeLastindex v.length = .ok (-1) ∨ rangeLastindex v.length = .error .InexactError := by
  have hle := v.count_le (by decide)
  rw [v.length_wide (by decide)]
  by_cases hfull : v.count = 2 ^ 64
  · rw [hfull]
    exact .inl ⟨rfl, rfl⟩
  · rw [wrap_of_holds (holds_uint64.2 (by omega)), rangeLastindex_of_not_holds (by rw [holds_int64]; omega)]
    exact .inr rfl

variable {I : IntType} (i : MachineInt I)

theorem UnitRange.getindex_of_lastindex (hi : 0 ≤ i.val) {l : ℤ} (hl : rangeLastindex v.length = .ok l) :
    v.getindex i = if i.val ≤ l ∧ v.start.val ≤ plus T I v.start.val i.val ∧ plus T I v.start.val i.val ≤ v.stop.val
      then .ok (T.wrap (plus T I v.start.val i.val)) else .error .BoundsError := by
  rw [UnitRange.getindex, inUnitRange, if_pos hi, hl]
  simp only [ok_bind, Bool.and_eq_true, decide_eq_true_eq, ge_iff_le, and_assoc, and_comm (a := v.start.val ≤ _)]

-- The sum is right when its type holds it.
theorem UnitRange.sum_between_iff {x : ℤ} (hx : v.start.val ≤ x ∧ x ≤ v.stop.val) :
    (v.start.val ≤ (promote T I).wrap x ∧ (promote T I).wrap x ≤ v.stop.val) ↔ Holds (promote T I) x := by
  rw [← wrap_eq_iff]
  constructor
  · intro hbetween
    have hle : T.width.bits ≤ (promote T I).width.bits := bits_promote T I ▸ le_max_left _ _
    have hmod := (wrap_modEq (promote T I) x).of_dvd (pow_dvd_pow 2 hle)
    have hT : ∀ y, v.start.val ≤ y ∧ y ≤ v.stop.val → Holds T y := fun y hy =>
      ⟨v.start.min_le.trans hy.1, hy.2.trans v.stop.le_max⟩
    exact eq_of_modEq (hT _ hbetween) (hT _ hx) hmod
  · intro heq
    rwa [heq]

-- When scalar indexing of a unit range is right.
def UnitRange.Exact : Prop :=
  0 ≤ i.val → (T = UInt64 → v.count < 2 ^ 63) ∧
    (v.start.val + i.val ≤ v.stop.val → (T = Int64 → v.count ≤ 2 ^ 63) ∧ Holds (promote T I) (v.start.val + i.val))

theorem element_unit {start stop i : ℤ} (hi : 0 ≤ i) :
    element start 1 stop i = if start + i ≤ stop then .ok (start + i) else .error .BoundsError := by
  rw [element, Int.mul_one]
  simp only [Passes, Int.zero_lt_one, if_true, hi, true_and, Int.not_lt]

theorem UnitRange.getindex_of_error (hi : 0 ≤ i.val) {e : IndexError} (he : rangeLastindex v.length = .error e) :
    v.getindex i = .error e := by
  rw [UnitRange.getindex, inUnitRange, if_pos hi, he]
  rfl

theorem UnitRange.getindex_iff (hT : T.width ≠ .w128) (hI : I.width ≠ .w128) :
    v.getindex i = element v.start.val 1 v.stop.val i.val ↔ v.Exact i := by
  have hcount : v.count = v.stop.val - v.start.val + 1 := rfl
  by_cases hi : 0 ≤ i.val
  · rw [element_unit hi]
    by_cases hunsigned : T = UInt64 → v.count < 2 ^ 63
    · by_cases hsigned : T = Int64 → v.count ≤ 2 ^ 63
      · rw [v.getindex_of_lastindex i hi (v.lastindex_eq hT hunsigned hsigned), plus_eq]
        by_cases hin : v.start.val + i.val ≤ v.stop.val
        · have hbetween := v.sum_between_iff (I := I) (x := v.start.val + i.val) ⟨by omega, hin⟩
          have hexact : v.Exact i ↔ Holds (promote T I) (v.start.val + i.val) :=
            ⟨fun h => ((h hi).2 hin).2, fun h _ => ⟨hunsigned, fun _ => ⟨hsigned, h⟩⟩⟩
          rw [if_pos hin, hexact]
          by_cases hholds : Holds (promote T I) (v.start.val + i.val)
          · have hT' : Holds T (v.start.val + i.val) := ⟨by have := v.start.min_le; omega, hin.trans v.stop.le_max⟩
            rw [if_pos ⟨by omega, hbetween.2 hholds⟩, wrap_of_holds hholds, wrap_of_holds hT']
            exact iff_of_true rfl hholds
          · rw [if_neg fun h => hholds (hbetween.1 h.2)]
            exact iff_of_false (by simp) hholds
        · rw [if_neg fun h => hin (by omega), if_neg hin]
          exact iff_of_true rfl fun _ => ⟨hunsigned, fun h => absurd h hin⟩
      · -- the last index is negative
        obtain ⟨rfl, hlong⟩ := Classical.not_imp.1 hsigned
        obtain ⟨l, hl, hlast⟩ := UnitRange.lastindex_signed (Int.not_le.1 hlong)
        rw [v.getindex_of_lastindex i hi hlast, if_neg fun h => by omega]
        by_cases hin : v.start.val + i.val ≤ v.stop.val
        · rw [if_pos hin]
          exact iff_of_false (by simp) fun h => hlong (((h hi).2 hin).1 rfl)
        · rw [if_neg hin]
          exact iff_of_true rfl fun _ => ⟨hunsigned, fun h => absurd h hin⟩
    · -- the length is no `Int`, or 0
      refine iff_of_false ?_ fun h => hunsigned (h hi).1
      obtain ⟨rfl, hlong⟩ := Classical.not_imp.1 hunsigned
      rcases UnitRange.lastindex_unsigned (Int.not_lt.1 hlong) with ⟨hfull, hlast⟩ | hlast
      · have hstart := holds_uint64.1 (holds_val v.start)
        have hstop := holds_uint64.1 (holds_val v.stop)
        have hindex := wide_bounds hI i
        have hin : v.start.val + i.val ≤ v.stop.val := by omega
        rw [v.getindex_of_lastindex i hi hlast, if_neg fun h => by omega, if_pos hin]
        simp
      · rw [v.getindex_of_error i hi hlast]
        split_ifs <;> simp
  · have herror : v.getindex i = .error .BoundsError := by
      rw [UnitRange.getindex, inUnitRange, if_neg hi]
      rfl
    rw [herror, element, if_neg fun h => hi h.1]
    exact iff_of_true rfl fun h => absurd h hi

end Unit

section Step

variable {T S : IntType} (r : StepRange T S)

-- The number of elements of a range that has some, as an integer
def StepRange.count : ℤ := (r.stop.val - r.start.val).tdiv r.step.val + 1

theorem StepRange.isempty_iff : r.isempty = true ↔ Passes r.step.val r.stop.val r.start.val := by
  have hne := r.step_ne_zero
  rw [StepRange.isempty, Passes, Bool.and_eq_true, bne_iff_ne, decide_eq_true_eq, ne_eq, ne_eq, decide_eq_decide]
  split_ifs <;> omega

-- The position of an element that does not pass `stop`.
theorem StepRange.not_passes_iff (hne : ¬Passes r.step.val r.stop.val r.start.val) (i : ℤ) :
    ¬Passes r.step.val r.stop.val (r.start.val + i * r.step.val) ↔ i < r.count := by
  have hstep := r.step_ne_zero
  unfold Passes at hne ⊢
  rw [StepRange.count, Int.lt_add_one_iff]
  split_ifs at hne ⊢ with hpos
  · rw [Int.not_lt, Int.tdiv_eq_ediv_of_nonneg (by omega), Int.le_ediv_iff_mul_le hpos]
    omega
  · have hneg : 0 < -r.step.val := by omega
    rw [Int.not_lt, ← Int.neg_tdiv_neg, Int.tdiv_eq_ediv_of_nonneg (by omega), Int.le_ediv_iff_mul_le hneg, Int.mul_neg]
    omega

theorem StepRange.passes_of_empty (hempty : Passes r.step.val r.stop.val r.start.val) {i : ℤ} (hi : 0 ≤ i) :
    Passes r.step.val r.stop.val (r.start.val + i * r.step.val) := by
  have hstep := r.step_ne_zero
  unfold Passes at hempty ⊢
  split_ifs at hempty ⊢ with hpos
  · have hmul := Int.mul_nonneg hi hpos.le
    omega
  · have hmul := Int.mul_nonneg hi (by omega : 0 ≤ -r.step.val)
    rw [Int.mul_neg] at hmul
    omega

theorem unsignedAbs_val (x : MachineInt S) : ((unsignedAbs S x.val : ℕ) : ℤ) = |x.val| := by
  rw [unsignedAbs_eq, Int.abs_eq_natAbs]

theorem flipsign_modEq (T : IntType) (x y : ℤ) : flipsign T x y ≡ (if y < 0 then -x else x) [ZMOD 2 ^ T.width.bits] := by
  unfold flipsign
  split_ifs
  · exact wrap_modEq T _
  · exact Int.ModEq.rfl

-- The quotient of the absolute values counts the steps.
theorem StepRange.count_eq (hne : ¬Passes r.step.val r.stop.val r.start.val) :
    r.count = |r.stop.val - r.start.val| / |r.step.val| + 1 := by
  have hstep := r.step_ne_zero
  unfold Passes at hne
  rw [StepRange.count]
  split_ifs at hne with hpos
  · rw [abs_of_nonneg (by omega), abs_of_pos hpos, Int.tdiv_eq_ediv_of_nonneg (by omega)]
  · rw [abs_of_nonpos (by omega), abs_of_nonpos (by omega), ← Int.neg_tdiv_neg, Int.tdiv_eq_ediv_of_nonneg (by omega)]

theorem flip_abs (hne : ¬Passes r.step.val r.stop.val r.start.val) :
    (if r.step.val < 0 then -(r.stop.val - r.start.val) else r.stop.val - r.start.val) = |r.stop.val - r.start.val| := by
  unfold Passes at hne
  rcases Int.lt_or_gt_of_ne r.step_ne_zero with hneg | hpos
  · rw [if_neg hneg.not_gt] at hne
    rw [if_pos hneg, abs_of_nonpos (by omega)]
  · rw [if_pos hpos] at hne
    rw [if_neg hpos.not_gt, abs_of_nonneg (by omega)]

-- `div` of the unsigned difference has the sign of the step.
theorem divUInt_modEq (x : ℤ) (y : MachineInt S) (hunsigned : S.signed = false → 0 ≤ y.val) :
    divUInt x S y.val ≡ (if y.val < 0 then -(x / |y.val|) else x / |y.val|) [ZMOD 2 ^ 64] := by
  unfold divUInt
  split_ifs with hsigned hneg hneg
  · rw [unsignedAbs_val]
    refine (wrap_modEq UInt64 _).trans ((flipsign_modEq Int64 _ _).trans ?_)
    rw [if_pos hneg]
    exact (wrap_modEq Int64 _).neg
  · rw [unsignedAbs_val]
    refine (wrap_modEq UInt64 _).trans ((flipsign_modEq Int64 _ _).trans ?_)
    rw [if_neg hneg]
    exact wrap_modEq Int64 _
  · have hnonneg := hunsigned (by simpa using hsigned)
    omega
  · rw [abs_of_nonneg (by omega)]

theorem StepRange.holds_diff (hT : T.width ≠ .w128) (hwide : ¬T.width.bits < 64) : Holds UInt64 |r.stop.val - r.start.val| := by
  rw [holds_uint64, abs_lt]
  refine ⟨abs_nonneg _, ?_⟩
  have hstart := holds_val r.start
  have hstop := holds_val r.stop
  rcases eq_int64_or_uint64 hT hwide with rfl | rfl
  · rw [holds_int64] at hstart hstop
    omega
  · rw [holds_uint64] at hstart hstop
    omega

theorem StepRange.length_wide (hT : T.width ≠ .w128) (hwide : ¬T.width.bits < 64)
    (hne : ¬Passes r.step.val r.stop.val r.start.val) : r.length = T.wrap r.count := by
  have hempty : r.isempty = false := by rw [Bool.eq_false_iff, ne_eq, r.isempty_iff]; exact hne
  have hbits : T.width.bits = 64 := by rcases eq_int64_or_uint64 hT hwide with rfl | rfl <;> rfl
  have hdiff := r.holds_diff hT hwide
  have hunsigned : UInt64.wrap (flipsign T (T.wrap (r.stop.val - r.start.val)) r.step.val) = |r.stop.val - r.start.val| := by
    rw [← wrap_of_holds hdiff, ← flip_abs r hne]
    refine wrap_congr (((hbits ▸ flipsign_modEq T _ _ : _ ≡ _ [ZMOD 2 ^ 64])).trans ?_)
    split_ifs
    · exact (hbits ▸ wrap_modEq T _ : _ ≡ _ [ZMOD 2 ^ 64]).neg
    · exact hbits ▸ wrap_modEq T _
  rw [StepRange.length, if_neg hwide]
  dsimp only
  rw [hempty, hunsigned, r.count_eq hne]
  refine wrap_congr (Int.ModEq.add_right 1 ((flipsign_modEq T _ _).trans ?_))
  rw [hbits]
  have hdiv := divUInt_modEq |r.stop.val - r.start.val| r.step (unsigned_nonneg r.step)
  have hwrap := hbits ▸ wrap_modEq T (divUInt |r.stop.val - r.start.val| S r.step.val)
  split_ifs at hdiv ⊢
  · rw [← Int.neg_neg (_ / _)]
    exact (hwrap.trans hdiv).neg
  · exact hwrap.trans hdiv

theorem divInt_eq {x : ℤ} (y : MachineInt S) (hx : -2 ^ 33 < x ∧ x < 2 ^ 33) (hunsigned : S.signed = false → 0 ≤ x) :
    divInt x S y.val = x.tdiv y.val := by
  unfold divInt
  split_ifs with hsigned
  · have hle := Int.natAbs_tdiv_le_natAbs x y.val
    exact wrap_of_holds (holds_int64.2 (by omega))
  · have hnonneg := hunsigned (by simpa using hsigned)
    have hholds : Holds Int64 x := holds_int64.2 (by omega)
    have habs : ((unsignedAbs Int64 x : ℕ) : ℤ) = x := by
      rw [unsignedAbs_val (⟨x, hholds.1, hholds.2⟩ : MachineInt Int64), abs_of_nonneg hnonneg]
    have hy := unsigned_nonneg y (by simpa using hsigned)
    have hle := Int.ediv_le_self y.val hnonneg
    have hge := Int.ediv_nonneg hnonneg hy
    rw [habs, flipsign, if_neg (by omega), wrap_of_holds (holds_int64.2 (by omega)), Int.tdiv_eq_ediv_of_nonneg hnonneg]

theorem StepRange.length_narrow (h : T.width.bits < 64) (hne : ¬Passes r.step.val r.stop.val r.start.val) :
    r.length = r.count := by
  have hempty : r.isempty = false := by rw [Bool.eq_false_iff, ne_eq, r.isempty_iff]; exact hne
  have hstart := narrow_bounds h r.start
  have hstop := narrow_bounds h r.stop
  have hunsigned : S.signed = false → 0 ≤ r.stop.val - r.start.val := by
    intro hS
    have hnonneg := unsigned_nonneg r.step hS
    have hstep := r.step_ne_zero
    rw [Passes, if_pos (by omega)] at hne
    omega
  have hle := Int.natAbs_tdiv_le_natAbs (r.stop.val - r.start.val) r.step.val
  have hdiff : Holds Int64 (r.stop.val - r.start.val) := holds_int64.2 (by omega)
  have hcount : Holds Int64 ((r.stop.val - r.start.val).tdiv r.step.val + 1) := holds_int64.2 (by omega)
  rw [StepRange.length, if_pos h, hempty, if_neg Bool.false_ne_true, wrap_of_holds hdiff, divInt_eq r.step (by omega) hunsigned,
    wrap_of_holds hcount, StepRange.count]

theorem StepRange.length_empty (hempty : Passes r.step.val r.stop.val r.start.val) : r.length = 0 := by
  rw [StepRange.length, (r.isempty_iff).2 hempty]
  simp only [if_true, ite_self]

-- A wrapped length is not positive.
theorem StepRange.lt_length_iff (hT : T.width ≠ .w128) (hne : ¬Passes r.step.val r.stop.val r.start.val) {i : ℤ} (hi : 0 ≤ i) :
    i < r.length ↔ i < r.count ∧ (T.width = .w64 → Holds T r.count) := by
  by_cases hwide : T.width.bits < 64
  · have hw : T.width ≠ .w64 := by
      intro h64
      rw [h64] at hwide
      exact absurd hwide (by decide)
    rw [r.length_narrow hwide hne, and_iff_left fun h64 => absurd h64 hw]
  · have hdiff := holds_uint64.1 (r.holds_diff hT hwide)
    have hcount := r.count_eq hne
    have hlo : 0 ≤ |r.stop.val - r.start.val| / |r.step.val| := Int.ediv_nonneg (abs_nonneg _) (abs_nonneg _)
    have hhi := Int.ediv_le_self |r.step.val| (abs_nonneg (r.stop.val - r.start.val))
    rw [r.length_wide hT hwide hne]
    by_cases hholds : Holds T r.count
    · rw [wrap_of_holds hholds, and_iff_left fun _ => hholds]
    · refine iff_of_false ?_ fun h => ?_
      · rcases eq_int64_or_uint64 hT hwide with rfl | rfl
        · rw [holds_int64] at hholds
          have hwrap := wrap_int64_of_ge (x := r.count) (by omega) (by omega)
          omega
        · rw [holds_uint64] at hholds
          have hfull : r.count = 2 ^ 64 := by omega
          rw [hfull, show UInt64.wrap (2 ^ 64) = 0 from rfl]
          omega
      · refine hholds (h.2 ?_)
        rcases eq_int64_or_uint64 hT hwide with rfl | rfl <;> rfl

variable {I : IntType} (i : MachineInt I)

theorem StepRange.holds_element (hin : 0 ≤ i.val ∧ ¬Passes r.step.val r.stop.val (r.start.val + i.val * r.step.val)) :
    Holds T (r.start.val + i.val * r.step.val) := by
  have hstart := holds_val r.start
  have hstop := holds_val r.stop
  obtain ⟨hi, hin⟩ := hin
  unfold Passes at hin
  unfold Holds at *
  split_ifs at hin with hpos
  · have hmul := Int.mul_nonneg hi hpos.le
    omega
  · have hmul := Int.mul_nonneg hi (by omega : 0 ≤ -r.step.val)
    rw [Int.mul_neg] at hmul
    omega

-- An element that the type of the sum does not hold seems to pass `stop`.
theorem StepRange.sum_passes_iff (hS : S.width ≠ .w128) (hI : I.width ≠ .w128) {x : ℤ}
    (hx : x = r.start.val + i.val * r.step.val) (hT : Holds T x) (hin : ¬Passes r.step.val r.stop.val x) :
    ¬Passes r.step.val r.stop.val (plus (widemulType S I) T (widemul S I r.step.val i.val) r.start.val) ↔
      Holds (promote (widemulType S I) T) x := by
  have hsum : r.step.val * i.val + r.start.val = x := by rw [hx, Int.mul_comm, Int.add_comm]
  rw [widemul_eq hS hI, plus_eq, hsum]
  constructor
  · intro hpass
    by_contra hholds
    rw [promote_comm] at hholds hpass
    obtain ⟨hunsigned, hneg⟩ := holds_of_not_promote hT hholds
    have hle : T.width.bits ≤ (promote T (widemulType S I)).width.bits := bits_promote T _ ▸ le_max_left _ _
    -- the type of the products is unsigned, so the step is not negative
    have hTsigned : T.signed = true := by
      by_contra hT'
      have hlo := hT.1
      rw [IntType.typemin, if_neg hT'] at hlo
      omega
    have hpos : 0 < r.step.val := by
      by_contra hstep
      have hne := r.step_ne_zero
      have hS' : S.signed = true := by
        by_contra hS'
        have hnonneg := unsigned_nonneg r.step (Bool.eq_false_iff.2 hS')
        omega
      have hW : (widemulType S I).signed = true := by rw [signed_widemulType, hS', Bool.true_or]
      rw [signed_promote (hTsigned.trans hW.symm), hTsigned] at hunsigned
      cases hunsigned
    have hpow : (2 : ℤ) ^ T.width.bits ≤ 2 ^ (promote T (widemulType S I)).width.bits := pow_le_pow_right₀ (by omega) hle
    have htwo := two_pow_bits T.width
    have hlo := hT.1
    have hhi := r.stop.le_max
    rw [IntType.typemin, if_pos hTsigned] at hlo
    rw [IntType.typemax, if_pos hTsigned] at hhi
    have hshift : (promote T (widemulType S I)).wrap x = x + 2 ^ (promote T (widemulType S I)).width.bits := by
      have hpos' : (0 : ℤ) < 2 ^ (T.width.bits - 1) := by positivity
      have hnew : Holds (promote T (widemulType S I)) (x + 2 ^ (promote T (widemulType S I)).width.bits) := by
        rw [Holds, IntType.typemin, IntType.typemax, hunsigned, if_neg Bool.false_ne_true, if_neg Bool.false_ne_true]
        omega
      rw [← wrap_of_holds hnew]
      exact wrap_congr (Int.modEq_iff_dvd.2 ⟨1, by ring⟩)
    rw [Passes, if_pos hpos, hshift] at hpass
    omega
  · intro hholds
    rwa [wrap_of_holds hholds]

-- Whether the bounds check lets the index through.
theorem StepRange.checkbounds_iff (hT : T.width ≠ .w128) (hS : S.width ≠ .w128) (hI : I.width ≠ .w128) :
    r.checkbounds i = true ↔ 0 ≤ i.val ∧ ¬Passes r.step.val r.stop.val (r.start.val + i.val * r.step.val) ∧
      (T.width = .w64 → Holds T r.count) ∧ Holds (promote (widemulType S I) T) (r.start.val + i.val * r.step.val) := by
  have hcheck : r.checkbounds i = true ↔ (0 ≤ i.val ∧ i.val < r.length) ∧
      ¬Passes r.step.val r.stop.val (plus (widemulType S I) T (widemul S I r.step.val i.val) r.start.val) := by
    rw [StepRange.checkbounds, Passes]
    simp only [Bool.and_eq_true, decide_eq_true_eq]
    refine and_congr_right fun _ => ?_
    split_ifs <;> simp
  rw [hcheck]
  by_cases hi : 0 ≤ i.val
  · by_cases hempty : Passes r.step.val r.stop.val r.start.val
    · rw [r.length_empty hempty]
      exact iff_of_false (fun h => by omega) fun h => h.2.1 (r.passes_of_empty hempty hi)
    · rw [r.lt_length_iff hT hempty hi, ← r.not_passes_iff hempty]
      constructor
      · rintro ⟨⟨-, hin, hlength⟩, hsum⟩
        exact ⟨hi, hin, hlength, (r.sum_passes_iff i hS hI rfl (r.holds_element i ⟨hi, hin⟩) hin).1 hsum⟩
      · rintro ⟨-, hin, hlength, hsum⟩
        exact ⟨⟨hi, hin, hlength⟩, (r.sum_passes_iff i hS hI rfl (r.holds_element i ⟨hi, hin⟩) hin).2 hsum⟩
  · exact iff_of_false (fun h => hi h.1.1) fun h => hi h.1

-- Whether the element is computed without a loss.
theorem StepRange.unsafeGetindex_iff {x : ℤ} (hx : x = r.start.val + i.val * r.step.val) (hT : Holds T x) :
    r.unsafeGetindex i = .ok x ↔ (T.width.bits ≤ (promote I S).width.bits ∨ Holds (promote I S) (i.val * r.step.val)) ∧
      Holds (promote T (promote I S)) x := by
  have hbits := bits_promote T (promote I S)
  have hsum : plus T (promote I S) r.start.val (times I S i.val r.step.val) =
      (promote T (promote I S)).wrap (r.start.val + (promote I S).wrap (i.val * r.step.val)) := by rw [times_eq, plus_eq]
  rw [StepRange.unsafeGetindex, hsum]
  constructor
  · intro hconv
    have heq : (promote T (promote I S)).wrap (r.start.val + (promote I S).wrap (i.val * r.step.val)) = x := by
      unfold convert at hconv
      split_ifs at hconv
      exact Except.ok.inj hconv
    refine ⟨or_iff_not_imp_left.2 fun hwide => ?_, heq ▸ holds_wrap _ _⟩
    have hmod := wrap_modEq (promote T (promote I S)) (r.start.val + (promote I S).wrap (i.val * r.step.val))
    rw [heq, hx, hbits, max_eq_left (by omega)] at hmod
    rw [← wrap_eq_iff]
    exact wrap_product_eq i r.step (by omega) (Int.ModEq.add_left_cancel' _ hmod).symm
  · rintro ⟨hproduct, hholds⟩
    have heq : (promote T (promote I S)).wrap (r.start.val + (promote I S).wrap (i.val * r.step.val)) = x := by
      rcases hproduct with hle | hproduct
      · rw [← wrap_of_holds hholds]
        refine wrap_congr ?_
        rw [hx, hbits, max_eq_right hle]
        exact (wrap_modEq _ _).add_left _
      · rw [wrap_of_holds hproduct, ← hx, wrap_of_holds hholds]
    rw [heq, convert_of_holds hT]

-- When scalar indexing of a step range is right.
def StepRange.Exact : Prop :=
  0 ≤ i.val → ¬Passes r.step.val r.stop.val (r.start.val + i.val * r.step.val) →
    (T.width = .w64 → Holds T r.count) ∧ Holds (promote (widemulType S I) T) (r.start.val + i.val * r.step.val) ∧
    (T.width.bits ≤ (promote I S).width.bits ∨ Holds (promote I S) (i.val * r.step.val)) ∧
    Holds (promote T (promote I S)) (r.start.val + i.val * r.step.val)

theorem StepRange.getindex_iff (hT : T.width ≠ .w128) (hS : S.width ≠ .w128) (hI : I.width ≠ .w128) :
    r.getindex i = element r.start.val r.step.val r.stop.val i.val ↔ r.Exact i := by
  rw [StepRange.getindex, element]
  have hcheck := r.checkbounds_iff i hT hS hI
  by_cases hin : 0 ≤ i.val ∧ ¬Passes r.step.val r.stop.val (r.start.val + i.val * r.step.val)
  · have hunsafe := r.unsafeGetindex_iff i rfl (r.holds_element i hin)
    rw [if_pos hin]
    by_cases hc : r.checkbounds i = true
    · rw [if_pos hc, hunsafe]
      have hc' := hcheck.1 hc
      exact ⟨fun h _ _ => ⟨hc'.2.2.1, hc'.2.2.2, h⟩, fun h => (h hin.1 hin.2).2.2⟩
    · rw [if_neg hc]
      refine iff_of_false (by simp) fun h => hc (hcheck.2 ?_)
      exact ⟨hin.1, hin.2, (h hin.1 hin.2).1, (h hin.1 hin.2).2.1⟩
  · rw [if_neg hin, if_neg fun hc => hin ⟨(hcheck.1 hc).1, (hcheck.1 hc).2.1⟩]
    exact iff_of_true rfl fun hi hp => absurd ⟨hi, hp⟩ hin

end Step

theorem getindex_iff_exact (T S I : BitInteger64) (v : UnitRange T.val) (r : StepRange T.val S.val) (i : MachineInt I.val) :
    (v.getindex i = element v.start.val 1 v.stop.val i.val ↔ v.Exact i) ∧
    (r.getindex i = element r.start.val r.step.val r.stop.val i.val ↔ r.Exact i) :=
  ⟨v.getindex_iff i T.property I.property, r.getindex_iff i T.property S.property I.property⟩

-- `(typemin(Int64):typemax(Int64))[0]`, whose length wraps to 0
def fullRange : UnitRange Int64 := ⟨⟨-2 ^ 63, by decide, by decide⟩, ⟨2 ^ 63 - 1, by decide, by decide⟩, by decide⟩

-- `StepRange{Int64,Int8}(0, 100, 1000)`
def byteSteps : StepRange Int64 ⟨true, .w8⟩ :=
  ⟨⟨0, by decide, by decide⟩, ⟨100, by decide, by decide⟩, ⟨1000, by decide, by decide⟩, by decide⟩

theorem getindex_wrong :
    fullRange.getindex (⟨0, by decide, by decide⟩ : MachineInt Int64) = .error .BoundsError ∧
    element (-2 ^ 63) 1 (2 ^ 63 - 1) 0 = .ok (-2 ^ 63) ∧
    byteSteps.getindex (⟨2, by decide, by decide⟩ : MachineInt ⟨true, .w8⟩) = .ok (-56) ∧
    element 0 100 1000 2 = .ok 200 := by
  decide

end Joolia.TypedRange
