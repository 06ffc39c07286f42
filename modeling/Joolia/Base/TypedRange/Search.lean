import Joolia.Base.TypedRange.Division

namespace Joolia.TypedRange

open IntFuncs Fallible

section Model

variable {T S : IntType}

-- `convert(keytype(r), x)`
def toKey (x : ℤ) : Except DivisionError ℤ := if Holds Int64 x then .ok x else .error .InexactError

def StepRange.minimum (r : StepRange T S) : Except DivisionError ℤ :=
  if r.isempty then .error .ArgumentError else .ok (min r.start.val r.stop.val)

def StepRange.maximum (r : StepRange T S) : Except DivisionError ℤ :=
  if r.isempty then .error .ArgumentError else .ok (max r.start.val r.stop.val)

-- `findfirst(==(x), r)`
def StepRange.findfirst (r : StepRange T S) (x : MachineInt T) : Except DivisionError (Option ℤ) :=
  if r.isempty then .ok none
  else do
    let lo ← r.minimum
    let hi ← r.maximum
    if lo ≤ x.val ∧ x.val ≤ hi then
      let d := T.wrap (x.val - r.start.val)
      let m ← rem T S d r.step.val
      if m = 0 then do
        let q ← div T S d r.step.val
        let k ← toKey q
        .ok (some k)
      else .ok none
    else .ok none

-- `findlast(==(x), r)`
def StepRange.findlast (r : StepRange T S) (x : MachineInt T) : Except DivisionError (Option ℤ) := r.findfirst x

-- `x in r`
def inStepRange (x : MachineInt T) (r : StepRange T S) : Except DivisionError Bool :=
  if r.isempty then .ok false
  else if r.step.val = 0 then .ok (decide (x.val = r.start.val))
  else do
    let lo ← r.minimum
    let hi ← r.maximum
    if x.val ≥ lo ∧ x.val ≤ hi then
      let a ← mod T S x.val r.step.val
      let b ← mod T S r.start.val r.step.val
      .ok (decide ((moduloType T S).wrap (a - b) = 0))
    else .ok false

end Model

section Positions

variable {T S : IntType} (r : StepRange T S) (x : MachineInt T)

-- The position of an element, or none where there is no such element.
def StepRange.Finds : Except DivisionError (Option ℤ) → Prop
  | .ok (some k) => ∀ i, element r.start.val r.step.val r.stop.val i = .ok x.val ↔ i = k
  | .ok none => ∀ i, element r.start.val r.step.val r.stop.val i ≠ .ok x.val
  | .error _ => False

-- A value between the ends of a range that has elements.
def StepRange.Spans : Prop :=
  ¬Passes r.step.val r.stop.val r.start.val ∧ min r.start.val r.stop.val ≤ x.val ∧ x.val ≤ max r.start.val r.stop.val

instance : Decidable (r.Spans x) := inferInstanceAs (Decidable (_ ∧ _))

theorem element_eq_iff {start step stop i y : ℤ} :
    element start step stop i = .ok y ↔ 0 ≤ i ∧ start + i * step = y ∧ ¬Passes step stop y := by
  rw [element]
  split_ifs with h
  · rw [Except.ok.injEq]
    constructor
    · rintro rfl
      exact ⟨h.1, rfl, h.2⟩
    · exact fun h' => h'.2.1
  · refine iff_of_false (by simp) ?_
    rintro ⟨h0, rfl, hp⟩
    exact h ⟨h0, hp⟩

variable {r x}

-- An element lies between the ends.
theorem StepRange.spans_of_element {i : ℤ} (h : element r.start.val r.step.val r.stop.val i = .ok x.val) : r.Spans x := by
  obtain ⟨h0, hx, hp⟩ := element_eq_iff.1 h
  have hstep := r.step_ne_zero
  have hne : ¬Passes r.step.val r.stop.val r.start.val := fun hempty => by
    rw [← hx] at hp
    exact hp (r.passes_of_empty hempty h0)
  refine ⟨hne, ?_⟩
  unfold Passes at hne hp
  split_ifs at hne hp with hpos
  · have hmul := Int.mul_nonneg h0 hpos.le
    omega
  · have hmul := Int.mul_nonneg h0 (by omega : 0 ≤ -r.step.val)
    rw [Int.mul_neg] at hmul
    omega

-- Between the ends the elements are the multiples of the step.
theorem StepRange.element_iff_of_spans (h : r.Spans x) (i : ℤ) :
    element r.start.val r.step.val r.stop.val i = .ok x.val ↔ i * r.step.val = x.val - r.start.val := by
  obtain ⟨hne, hlo, hhi⟩ := h
  have hstep := r.step_ne_zero
  rw [element_eq_iff]
  constructor
  · rintro ⟨-, hx, -⟩
    omega
  · intro hx
    unfold Passes at *
    split_ifs at * with hpos
    · refine ⟨?_, by omega, by omega⟩
      by_contra hneg
      have hmul := Int.mul_pos (by omega : 0 < -i) hpos
      rw [Int.neg_mul] at hmul
      omega
    · refine ⟨?_, by omega, by omega⟩
      by_contra hneg
      have hmul := Int.mul_pos (by omega : 0 < -i) (by omega : 0 < -r.step.val)
      rw [Int.neg_mul_neg] at hmul
      omega

theorem StepRange.finds_none_iff (h : r.Spans x) : r.Finds x (.ok none) ↔ ¬r.step.val ∣ x.val - r.start.val := by
  constructor
  · rintro hnone ⟨k, hk⟩
    exact hnone k ((r.element_iff_of_spans h k).2 (by rw [hk, Int.mul_comm]))
  · intro hdvd i hi
    exact hdvd ⟨i, by rw [Int.mul_comm]; exact ((r.element_iff_of_spans h i).1 hi).symm⟩

theorem StepRange.finds_some_iff (h : r.Spans x) (k : ℤ) :
    r.Finds x (.ok (some k)) ↔ k * r.step.val = x.val - r.start.val := by
  rw [← r.element_iff_of_spans h k]
  constructor
  · intro hsome
    exact (hsome k).2 rfl
  · intro hk i
    refine ⟨fun hi => ?_, fun hi => hi ▸ hk⟩
    rw [r.element_iff_of_spans h] at hi hk
    exact Int.eq_of_mul_eq_mul_right r.step_ne_zero (hi.trans hk.symm)

theorem StepRange.isempty_eq (h : r.Spans x) : r.isempty = false := by
  rw [Bool.eq_false_iff, ne_eq, r.isempty_iff]
  exact h.1

theorem StepRange.minimum_eq (h : r.isempty = false) : r.minimum = .ok (min r.start.val r.stop.val) := by
  rw [StepRange.minimum, h]
  rfl

theorem StepRange.maximum_eq (h : r.isempty = false) : r.maximum = .ok (max r.start.val r.stop.val) := by
  rw [StepRange.maximum, h]
  rfl

-- Outside the ends there is nothing to find.
theorem StepRange.findfirst_outside (h : ¬r.Spans x) : r.findfirst x = .ok none := by
  rw [StepRange.findfirst]
  cases hempty : r.isempty with
  | true => rfl
  | false =>
      have hne : ¬Passes r.step.val r.stop.val r.start.val := by rw [← r.isempty_iff, hempty]; exact Bool.false_ne_true
      rw [if_neg Bool.false_ne_true, r.minimum_eq hempty, r.maximum_eq hempty, ok_bind, ok_bind, if_neg fun hx => h ⟨hne, hx⟩]

theorem StepRange.finds_outside (h : ¬r.Spans x) : r.Finds x (r.findfirst x) := by
  rw [r.findfirst_outside h]
  exact fun i hi => h (r.spans_of_element hi)

-- Between the ends the search divides the difference.
theorem StepRange.findfirst_spans (h : r.Spans x) :
    r.findfirst x = if r.step.val ∣ T.wrap (x.val - r.start.val)
      then div T S (T.wrap (x.val - r.start.val)) r.step.val >>= fun q => toKey q >>= fun k => .ok (some k) else .ok none := by
  have hempty := r.isempty_eq h
  rw [StepRange.findfirst, hempty, if_neg Bool.false_ne_true, r.minimum_eq hempty, r.maximum_eq hempty, ok_bind, ok_bind,
    if_pos h.2]
  dsimp only
  rw [rem_eq (holds_wrap T _) (holds_val r.step) r.step_ne_zero, ok_bind, if_congr Int.dvd_iff_tmod_eq_zero.symm rfl rfl]

-- Two values have the same remainder when their difference is a multiple.
theorem fmod_eq_iff {x y s : ℤ} : x.fmod s = y.fmod s ↔ s ∣ x - y := by
  constructor
  · intro heq
    refine ⟨x.fdiv s - y.fdiv s, ?_⟩
    rw [Int.fmod_def, Int.fmod_def] at heq
    rw [Int.mul_sub]
    omega
  · rintro ⟨k, hk⟩
    rw [show x = y + s * k by omega, Int.add_mul_fmod_self_left]

-- Membership is decided without a loss.
theorem inStepRange_eq (r : StepRange T S) (x : MachineInt T) :
    ∃ b, inStepRange x r = .ok b ∧ (b = true ↔ ∃ i, element r.start.val r.step.val r.stop.val i = .ok x.val) := by
  by_cases h : r.Spans x
  · have hempty := r.isempty_eq h
    have hmod := fun z (hz : Holds T z) => mod_eq hz (holds_val r.step) r.step_ne_zero
    have htype := fun z => holds_of_bits_le (U := moduloType T S) (holds_fmod (holds_val r.step) z r.step_ne_zero) rfl
      ((le_max_right _ _).trans (bits_unsignedType T S).ge)
    refine ⟨decide ((moduloType T S).wrap (x.val.fmod r.step.val - r.start.val.fmod r.step.val) = 0), ?_, ?_⟩
    · rw [inStepRange, hempty, if_neg Bool.false_ne_true, if_neg r.step_ne_zero, r.minimum_eq hempty, r.maximum_eq hempty,
        ok_bind, ok_bind, if_pos h.2, hmod _ (holds_val x), hmod _ (holds_val r.start), ok_bind, ok_bind]
    · have hzero : (moduloType T S).wrap (x.val.fmod r.step.val - r.start.val.fmod r.step.val) = 0 ↔
          x.val.fmod r.step.val = r.start.val.fmod r.step.val := by
        constructor
        · intro hwrap
          have hcongr := wrap_modEq (moduloType T S) (x.val.fmod r.step.val - r.start.val.fmod r.step.val)
          rw [hwrap] at hcongr
          exact eq_of_modEq (htype _) (htype _) (Int.modEq_iff_dvd.2 (by
            rw [show r.start.val.fmod r.step.val - x.val.fmod r.step.val =
              -(x.val.fmod r.step.val - r.start.val.fmod r.step.val) by ring]
            exact (Int.modEq_zero_iff_dvd.1 hcongr.symm).neg_right))
        · intro heq
          rw [heq, Int.sub_self, wrap_of_holds (holds_zero _)]
      rw [decide_eq_true_eq, hzero, fmod_eq_iff]
      constructor
      · rintro ⟨k, hk⟩
        exact ⟨k, (r.element_iff_of_spans h k).2 (by rw [hk, Int.mul_comm])⟩
      · rintro ⟨k, hk⟩
        exact ⟨k, by rw [← (r.element_iff_of_spans h k).1 hk, Int.mul_comm]⟩
  · refine ⟨false, ?_, iff_of_false Bool.false_ne_true fun ⟨i, hi⟩ => h (r.spans_of_element hi)⟩
    rw [inStepRange]
    cases hempty : r.isempty with
    | true => rfl
    | false =>
        have hne : ¬Passes r.step.val r.stop.val r.start.val := by rw [← r.isempty_iff, hempty]; exact Bool.false_ne_true
        rw [if_neg Bool.false_ne_true, if_neg r.step_ne_zero, r.minimum_eq hempty, r.maximum_eq hempty, ok_bind, ok_bind,
          if_neg fun hx => h ⟨hne, hx⟩]

end Positions

section Search

variable {T S : IntType} (r : StepRange T S) (x : MachineInt T)

structure StepRange.SearchedExactly : Prop where
  first : r.Finds x (r.findfirst x)
  last : r.Finds x (r.findlast x)
  agrees : ∃ k, r.findfirst x = .ok k ∧ inStepRange x r = .ok k.isSome

-- When searching by arithmetic is right.
def StepRange.Locatable : Prop :=
  r.Spans x →
    (Holds T (x.val - r.start.val) ∧ (r.step.val ∣ x.val - r.start.val →
      (x.val - r.start.val) / r.step.val < 2 ^ 63 ∧
      ¬(T.signed = true ∧ S.signed = true ∧ x.val - r.start.val = (promote T S).typemin ∧ r.step.val = -1))) ∨
    (¬Holds T (x.val - r.start.val) ∧
      ((¬r.step.val ∣ x.val - r.start.val ∧ ¬r.step.val ∣ |x.val - r.start.val| - 2 ^ T.width.bits) ∨
      (T.signed = false ∧ S.width.bits ≤ T.width.bits ∧ r.step.val = -1 ∧ r.start.val - x.val < 2 ^ 63)))

variable {r x}

-- A result that is found exactly agrees with membership.
theorem StepRange.searchedExactly_iff : r.SearchedExactly x ↔ r.Finds x (r.findfirst x) := by
  refine ⟨fun h => h.first, fun h => ⟨h, h, ?_⟩⟩
  obtain ⟨b, hb, hiff⟩ := inStepRange_eq r x
  rw [hb]
  cases hfind : r.findfirst x with
  | error e =>
      rw [hfind] at h
      exact h.elim
  | ok k =>
      rw [hfind] at h
      refine ⟨k, rfl, congrArg Except.ok ?_⟩
      cases k with
      | none => exact Bool.eq_false_iff.2 fun hb' => (hiff.1 hb').elim h
      | some k => exact hiff.2 ⟨k, (h k).2 rfl⟩

theorem StepRange.finds_toKey (h : r.Spans x) (q : ℤ) :
    r.Finds x (toKey q >>= fun k => .ok (some k)) ↔ Holds Int64 q ∧ q * r.step.val = x.val - r.start.val := by
  rw [toKey]
  split_ifs with hq
  · rw [ok_bind, r.finds_some_iff h]
    exact (and_iff_right hq).symm
  · exact iff_of_false (fun hf => hf) fun hc => hq hc.1

-- A position is not negative.
theorem StepRange.nonneg_of_mul (h : r.Spans x) {k : ℤ} (hk : k * r.step.val = x.val - r.start.val) : 0 ≤ k :=
  (element_eq_iff.1 ((r.element_iff_of_spans h k).2 hk)).1

-- The difference fits the type.
theorem StepRange.finds_of_holds (h : r.Spans x) (hd : Holds T (x.val - r.start.val)) :
    r.Finds x (r.findfirst x) ↔ (r.step.val ∣ x.val - r.start.val →
      (x.val - r.start.val) / r.step.val < 2 ^ 63 ∧
      ¬(T.signed = true ∧ S.signed = true ∧ x.val - r.start.val = (promote T S).typemin ∧ r.step.val = -1)) := by
  rw [r.findfirst_spans h, wrap_of_holds hd]
  by_cases hdvd : r.step.val ∣ x.val - r.start.val
  · obtain ⟨k, hk⟩ := id hdvd
    have hmul : k * r.step.val = x.val - r.start.val := by rw [hk, Int.mul_comm]
    have hk0 := r.nonneg_of_mul h hmul
    have hquot : (x.val - r.start.val).tdiv r.step.val = k := by rw [hk, Int.mul_tdiv_cancel_left _ r.step_ne_zero]
    have hediv : (x.val - r.start.val) / r.step.val = k := by rw [hk, Int.mul_ediv_cancel_left _ r.step_ne_zero]
    rw [if_pos hdvd, div_eq hd (holds_val r.step) r.step_ne_zero, hquot, hediv]
    split_ifs with hmin
    · exact iff_of_false (fun hf => hf) fun hc => (hc hdvd).2 hmin
    · have hle : |k| ≤ |x.val - r.start.val| := by
        rw [← hquot]
        exact abs_tdiv_le _ _
      have hwidth : T.width.bits ≤ (quotientType T S).width.bits := bits_unsignedType T S ▸ le_max_left _ _
      have hq : Holds (quotientType T S) k := by
        by_cases hneg : x.val - r.start.val < 0
        · -- a negative difference has a negative step, and both types are signed
          have hT : T.signed = true := by
            by_contra hT
            have hnonneg := nonneg_of_unsigned hd (Bool.eq_false_iff.2 hT)
            omega
          have hS : S.signed = true := by
            by_contra hS
            have hmul0 := Int.mul_nonneg hk0 (nonneg_of_unsigned (holds_val r.step) (Bool.eq_false_iff.2 hS))
            omega
          rw [quotientType_of_eq (hT.trans hS.symm), ← hquot]
          exact holds_tdiv (holds_promote_left (hT.trans hS.symm) hd) (holds_promote_right (hT.trans hS.symm) (holds_val r.step))
            fun hc => hmin ⟨hT, hS, hc.2⟩
        · exact holds_of_abs_le (holds_of_bits_le hd rfl hwidth) hle (fun _ => hk0) fun hx0 => by
            rw [show x.val - r.start.val = 0 by omega, abs_zero] at hle
            have habs := abs_eq_zero.1 (le_antisymm hle (abs_nonneg k))
            omega
      rw [wrap_of_holds hq, ok_bind, r.finds_toKey h, holds_int64]
      constructor
      · rintro ⟨hint, -⟩ -
        exact ⟨hint.2, hmin⟩
      · intro hc
        exact ⟨⟨by omega, (hc hdvd).1⟩, hmul⟩
  · rw [if_neg hdvd, r.finds_none_iff h]
    exact iff_of_true hdvd fun hc => absurd hc hdvd

-- What the wrapped difference is.
theorem StepRange.wrap_diff (hd : ¬Holds T (x.val - r.start.val)) :
    (0 ≤ x.val - r.start.val ∧ T.signed = true ∧
      T.wrap (x.val - r.start.val) = |x.val - r.start.val| - 2 ^ T.width.bits) ∨
    (x.val - r.start.val < 0 ∧ T.wrap (x.val - r.start.val) = -(|x.val - r.start.val| - 2 ^ T.width.bits)) := by
  have hx := holds_val x
  have hstart := holds_val r.start
  have hpow := two_pow_bits T.width
  have hpos : (0 : ℤ) < 2 ^ (T.width.bits - 1) := by positivity
  have hshift : ∀ z, Holds T z → z ≡ x.val - r.start.val [ZMOD 2 ^ T.width.bits] → T.wrap (x.val - r.start.val) = z :=
    fun z hz hmod => by rw [← wrap_of_holds hz, wrap_congr hmod]
  rcases Int.lt_or_le (x.val - r.start.val) 0 with hneg | h0
  · refine .inr ⟨hneg, hshift _ ?_ (Int.modEq_iff_dvd.2 ⟨-1, by rw [abs_of_neg hneg]; ring⟩)⟩
    rw [abs_of_neg hneg]
    unfold Holds IntType.typemin IntType.typemax at *
    split_ifs at * <;> omega
  · have hsigned : T.signed = true := by
      by_contra hT
      unfold Holds IntType.typemin IntType.typemax at *
      rw [if_neg hT, if_neg hT] at *
      omega
    refine .inl ⟨h0, hsigned, hshift _ ?_ (Int.modEq_iff_dvd.2 ⟨1, by rw [abs_of_nonneg h0]; ring⟩)⟩
    rw [abs_of_nonneg h0]
    unfold Holds IntType.typemin IntType.typemax at *
    rw [if_pos hsigned, if_pos hsigned] at *
    omega

-- A value below the first one is reached by a negative step.
theorem StepRange.step_neg_of_lt (h : r.Spans x) (hlt : x.val < r.start.val) : r.step.val < 0 := by
  obtain ⟨hne, hlo, hhi⟩ := h
  have hstep := r.step_ne_zero
  unfold Passes at hne
  split_ifs at hne <;> omega

-- The quotient of a difference that wrapped, in a signed type
theorem StepRange.holds_quotient (d : ℤ) (hd : Holds T d) (hT : T.signed = true)
    (hmin : ¬(T.signed = true ∧ S.signed = true ∧ d = (promote T S).typemin ∧ r.step.val = -1)) :
    Holds (quotientType T S) (d.tdiv r.step.val) := by
  by_cases hS : S.signed = true
  · have hsame : T.signed = S.signed := hT.trans hS.symm
    rw [quotientType_of_eq hsame]
    exact holds_tdiv (holds_promote_left hsame hd) (holds_promote_right hsame (holds_val r.step)) fun hc => hmin ⟨hT, hS, hc.2⟩
  · have hs0 := nonneg_of_unsigned (holds_val r.step) (Bool.eq_false_iff.2 hS)
    have hwidth : T.width.bits ≤ (quotientType T S).width.bits := bits_unsignedType T S ▸ le_max_left _ _
    refine holds_of_abs_le (holds_of_bits_le hd rfl hwidth) (abs_tdiv_le _ _) (fun h0 => Int.tdiv_nonneg h0 hs0) fun h0 => ?_
    have hneg := Int.tdiv_nonneg (Int.neg_nonneg_of_nonpos h0) hs0
    rw [Int.neg_tdiv] at hneg
    omega

-- Powers of two that differ by the factor of a step
theorem two_pow_mul_eq_iff {v w : ℕ} (hle : w ≤ v) {s : ℤ} : 2 ^ v * s = -2 ^ w ↔ v = w ∧ s = -1 := by
  have hpos : (0 : ℤ) < 2 ^ w := by positivity
  have hpow : (2 : ℤ) ^ w ≤ 2 ^ v := pow_le_pow_right₀ (by omega) hle
  constructor
  · intro heq
    have hs : s = -1 := by
      have hneg : s < 0 := by
        by_contra h0
        have hmul := Int.mul_nonneg (hpos.le.trans hpow) (Int.not_lt.1 h0)
        omega
      by_contra hne
      have hmul := Int.mul_le_mul_of_nonneg_left (show 2 ≤ -s by omega) (hpos.le.trans hpow)
      rw [Int.mul_neg] at hmul
      omega
    rw [hs, Int.mul_neg_one, neg_inj] at heq
    exact ⟨Nat.pow_right_injective le_rfl (by exact_mod_cast heq), hs⟩
  · rintro ⟨rfl, rfl⟩
    exact Int.mul_neg_one _

-- An unsigned difference that wrapped: the quotient wraps back only when the step is -1 and no wider.
theorem StepRange.finds_of_unsigned (h : r.Spans x) (hT : T.signed = false) (hneg : x.val - r.start.val < 0)
    (hwrap : T.wrap (x.val - r.start.val) = x.val - r.start.val + 2 ^ T.width.bits)
    (hdvd : r.step.val ∣ T.wrap (x.val - r.start.val)) :
    r.Finds x (r.findfirst x) ↔ S.width.bits ≤ T.width.bits ∧ r.step.val = -1 ∧ r.start.val - x.val < 2 ^ 63 := by
  have hd := holds_wrap T (x.val - r.start.val)
  have hd0 := nonneg_of_unsigned hd hT
  have hhi := hd.2
  rw [IntType.typemax, hT, if_neg Bool.false_ne_true] at hhi
  have hs := r.step_neg_of_lt h (by omega)
  have hbits := bits_unsignedType T S
  have hbits' : (quotientType T S).width.bits = (unsignedType T S).width.bits := rfl
  have hpow : (2 : ℤ) ^ T.width.bits ≤ 2 ^ (unsignedType T S).width.bits := pow_le_pow_right₀ (by omega) (by omega)
  obtain ⟨m, hm⟩ : ∃ m, m = -(T.wrap (x.val - r.start.val)).tdiv r.step.val := ⟨_, rfl⟩
  have hmul : m * r.step.val = -T.wrap (x.val - r.start.val) := by
    rw [hm, Int.neg_mul, Int.tdiv_mul_cancel hdvd]
  have hstart := holds_val r.start
  have hxlo := holds_val x
  have hd1 : 0 < T.wrap (x.val - r.start.val) := by
    unfold Holds IntType.typemin IntType.typemax at hstart hxlo
    rw [hT, if_neg Bool.false_ne_true, if_neg Bool.false_ne_true] at hstart hxlo
    omega
  have hm0 : 0 < m := by
    by_contra hm0
    have hnonneg := Int.mul_nonneg (by omega : 0 ≤ -m) (by omega : 0 ≤ -r.step.val)
    rw [Int.neg_mul_neg] at hnonneg
    omega
  have hmle : m ≤ T.wrap (x.val - r.start.val) := by
    have hle := abs_tdiv_le (T.wrap (x.val - r.start.val)) r.step.val
    rw [show (T.wrap (x.val - r.start.val)).tdiv r.step.val = -m by omega, abs_neg, abs_of_pos hm0, abs_of_nonneg hd0] at hle
    exact hle
  have hquot : (quotientType T S).wrap ((T.wrap (x.val - r.start.val)).tdiv r.step.val) =
      2 ^ (unsignedType T S).width.bits - m := by
    have hholds : Holds (quotientType T S) (2 ^ (unsignedType T S).width.bits - m) := by
      rw [quotientType_unsigned hT, Holds, IntType.typemin, IntType.typemax, signed_unsignedType,
        if_neg Bool.false_ne_true, if_neg Bool.false_ne_true]
      omega
    rw [← wrap_of_holds hholds]
    exact wrap_congr (Int.modEq_iff_dvd.2 ⟨1, by rw [hbits', hm]; ring⟩)
  rw [r.findfirst_spans h, if_pos hdvd, div_eq hd (holds_val r.step) r.step_ne_zero,
    if_neg fun hc => Bool.false_ne_true (hT.symm.trans hc.1), hquot, ok_bind, r.finds_toKey h, holds_int64]
  have hcancel : (2 ^ (unsignedType T S).width.bits - m) * r.step.val = x.val - r.start.val ↔
      (2 : ℤ) ^ (unsignedType T S).width.bits * r.step.val = -2 ^ T.width.bits := by
    rw [Int.sub_mul, hmul, hwrap]
    omega
  rw [hcancel, two_pow_mul_eq_iff (by omega)]
  have hwidths : (unsignedType T S).width.bits = T.width.bits ↔ S.width.bits ≤ T.width.bits := by omega
  constructor
  · rintro ⟨hint, hw, hs1⟩
    rw [hs1] at hmul
    rw [hw] at hint
    exact ⟨hwidths.1 hw, hs1, by omega⟩
  · rintro ⟨hw, hs1, hlt⟩
    rw [hs1] at hmul
    rw [hwidths.2 hw]
    exact ⟨⟨by omega, by omega⟩, rfl, hs1⟩

theorem StepRange.finds_of_not_holds (h : r.Spans x) (hd : ¬Holds T (x.val - r.start.val)) :
    r.Finds x (r.findfirst x) ↔
      (¬r.step.val ∣ x.val - r.start.val ∧ ¬r.step.val ∣ |x.val - r.start.val| - 2 ^ T.width.bits) ∨
      (T.signed = false ∧ S.width.bits ≤ T.width.bits ∧ r.step.val = -1 ∧ r.start.val - x.val < 2 ^ 63) := by
  have hwrap := r.wrap_diff hd
  have hiff : r.step.val ∣ T.wrap (x.val - r.start.val) ↔ r.step.val ∣ |x.val - r.start.val| - 2 ^ T.width.bits := by
    rcases hwrap with ⟨-, -, hwrap⟩ | ⟨-, hwrap⟩
    · rw [hwrap]
    · rw [hwrap, Int.dvd_neg]
  by_cases hdvd : r.step.val ∣ T.wrap (x.val - r.start.val)
  · rw [← hiff, or_iff_right fun hc => hc.2 hdvd]
    by_cases hT : T.signed = true
    · -- the quotient stands for the wrapped difference, which is another value
      refine iff_of_false ?_ fun hc => Bool.false_ne_true (hc.1.symm.trans hT)
      rw [r.findfirst_spans h, if_pos hdvd, div_eq (holds_wrap T _) (holds_val r.step) r.step_ne_zero]
      split_ifs with hmin
      · exact fun hf => hf
      · rw [wrap_of_holds (r.holds_quotient _ (holds_wrap T _) hT hmin), ok_bind, r.finds_toKey h, Int.tdiv_mul_cancel hdvd]
        exact fun hc => hd (wrap_eq_iff.1 hc.2)
    · have hT' := Bool.eq_false_iff.2 hT
      obtain ⟨hneg, hwrap⟩ := hwrap.resolve_left fun hc => hT hc.2.1
      rw [abs_of_neg hneg] at hwrap
      rw [r.finds_of_unsigned h hT' hneg (by omega) hdvd]
      exact (and_iff_right hT').symm
  · rw [r.findfirst_spans h, if_neg hdvd, r.finds_none_iff h, ← hiff]
    constructor
    · exact fun hn => .inl ⟨hn, hdvd⟩
    · rintro (hc | hc)
      · exact hc.1
      · exact absurd (hc.2.2.1 ▸ (Int.neg_dvd.2 (one_dvd _))) hdvd

theorem searchedExactly_iff_locatable (T S : IntType) (r : StepRange T S) (x : MachineInt T) :
    r.SearchedExactly x ↔ r.Locatable x := by
  rw [r.searchedExactly_iff]
  by_cases h : r.Spans x
  · rw [StepRange.Locatable]
    by_cases hd : Holds T (x.val - r.start.val)
    · rw [r.finds_of_holds h hd]
      exact ⟨fun hc _ => .inl ⟨hd, hc⟩, fun hc => ((hc h).resolve_right fun hn => hn.1 hd).2⟩
    · rw [r.finds_of_not_holds h hd]
      exact ⟨fun hc _ => .inr ⟨hd, hc⟩, fun hc => ((hc h).resolve_left fun hn => hd hn.1).2⟩
  · exact iff_of_true (r.finds_outside h) fun hs => absurd hs h

-- `0x05:-2:0x01`
def descending : StepRange ⟨false, .w8⟩ Int64 :=
  ⟨⟨5, by decide, by decide⟩, ⟨-2, by decide, by decide⟩, ⟨1, by decide, by decide⟩, by decide⟩

-- 3 is at position 1, and is not found.
theorem findfirst_wrong :
    descending.findfirst ⟨3, by decide, by decide⟩ = .error .InexactError ∧
    element 5 (-2) 1 1 = .ok 3 ∧ inStepRange ⟨3, by decide, by decide⟩ descending = .ok true ∧
    ¬descending.SearchedExactly ⟨3, by decide, by decide⟩ := by
  refine ⟨by decide, by decide, by decide, fun h => ?_⟩
  have hfirst := h.first
  rw [show descending.findfirst ⟨3, by decide, by decide⟩ = Except.error .InexactError by decide] at hfirst
  exact hfirst

end Search

end Joolia.TypedRange
