import Joolia.Base.Vector.Theorems

namespace Joolia.Vectors

open Fallible

variable {α : Type} {rt : Runtime α} {a b : Vec α} {delta : ℕ}

-- What the specification says of a growth that is known to have returned.
theorem Serves.of_ok {β : Type} {n : ℕ} {x : Except Error β} {y : β} {P : β → Prop} (h : Serves n x P)
    (hx : x = .ok y) : P y := by
  rcases h with ⟨z, hz, hP⟩ | ⟨e, he, -⟩
  · obtain rfl : y = z := by simpa [hx] using hz
    exact hP
  · simp [hx] at he

-- Growth at the front past the length of the memory needs a new one.
theorem growbeg_granted (ha : a.Valid) (hdelta : a.mem.length < a.size + delta)
    (hneeded : a.size + 2 * delta ≤ typemaxInt)
    (hgrant : rt.grants (max (overallocation a.size) (a.size + 2 * delta)) = true) :
    ∃ b, growbeg rt a delta = .ok b ∧ b.offset + delta < b.mem.length := by
  simp only [Vec.Valid] at ha
  generalize hnew : max (overallocation a.size) (a.size + 2 * delta) = newmemlen at hgrant
  have hcopy := @unsafeCopyto_eq α ⟨newmemlen, rt.undef⟩ a.mem ((newmemlen - (a.size + delta)) / 2 + delta)
    a.offset a.size (by dsimp only; omega) (by omega)
  refine ⟨⟨memmove ⟨newmemlen, rt.undef⟩ ((newmemlen - (a.size + delta)) / 2 + delta) a.mem a.offset a.size,
    (newmemlen - (a.size + delta)) / 2, a.size + delta⟩, ?_, ?_⟩
  · simp [growbeg, growbegInternal, checkedAdd, checkedMul, arrayNewMemory, hnew, hgrant, hcopy,
      show delta ≠ 0 by omega, show ¬ delta ≤ a.offset by omega, show a.size + delta ≤ typemaxInt by omega,
      show 2 * delta ≤ typemaxInt by omega, hneeded, show ¬ a.mem.length < a.offset by omega,
      show ¬ a.mem.length - a.offset < a.size by omega, show ¬ a.size + delta < a.mem.length by omega]
  · simp only [memmove_length]
    omega

theorem growbeg_refused (rt : Runtime α) (delta : ℕ) (ha : a.Valid) (hdelta : a.mem.length < a.size + delta)
    (hrefused : ¬ (a.size + 2 * delta ≤ typemaxInt ∧
      rt.grants (max (overallocation a.size) (a.size + 2 * delta)) = true)) :
    ∃ e, growbeg rt a delta = .error e := by
  simp only [Vec.Valid] at ha
  have h0 : delta ≠ 0 := by omega
  have hfar : ¬ delta ≤ a.offset := by omega
  have hvalid : ¬ (a.mem.length < a.offset ∨ a.mem.length - a.offset < a.size) := by omega
  by_cases hadd : a.size + delta ≤ typemaxInt
  swap
  · exact ⟨.overflowError, by simp [growbeg, checkedAdd, h0, hadd]⟩
  by_cases hmul : 2 * delta ≤ typemaxInt
  swap
  · exact ⟨.overflowError, by
      simp [growbeg, growbegInternal, checkedAdd, checkedMul, h0, hadd, hfar, hvalid, hmul]⟩
  by_cases hneeded : a.size + 2 * delta ≤ typemaxInt
  swap
  · exact ⟨.overflowError, by
      simp [growbeg, growbegInternal, checkedAdd, checkedMul, h0, hadd, hfar, hvalid, hmul, hneeded]⟩
  · have hgrant : rt.grants (max (overallocation a.size) (a.size + 2 * delta)) = false := by
      simpa [hneeded] using hrefused
    exact ⟨.memoryError, by
      simp [growbeg, growbegInternal, checkedAdd, checkedMul, arrayNewMemory, h0, hadd, hfar, hvalid, hmul,
        hneeded, hgrant, show ¬ a.size + delta < a.mem.length by omega]⟩

-- The same at the end.
theorem growend_granted (rt : Runtime α) (delta : ℕ) (ha : a.Valid) (hdelta : a.mem.length < a.size + delta)
    (hneeded : a.offset + (a.size + delta) ≤ typemaxInt)
    (hgrant : rt.grants (max (overallocation a.mem.length) (a.offset + (a.size + delta))) = true) :
    ∃ b, growend rt a delta = .ok b := by
  simp only [Vec.Valid] at ha
  generalize hnew : max (overallocation a.mem.length) (a.offset + (a.size + delta)) = newmemlen at hgrant
  have hcopy := @unsafeCopyto_eq α ⟨newmemlen, rt.undef⟩ a.mem a.offset a.offset a.size
    (by dsimp only; omega) (by omega)
  refine ⟨⟨memmove ⟨newmemlen, rt.undef⟩ a.offset a.mem a.offset a.size, a.offset, a.size + delta⟩, ?_⟩
  simp [growend, growendInternal, checkedAdd, arrayNewMemory, hnew, hgrant, hcopy,
    show a.size + delta ≤ typemaxInt by omega, hneeded, show ¬ a.mem.length < a.offset by omega,
    show ¬ a.mem.length - a.offset < a.size by omega, show ¬ a.size + delta < a.offset by omega,
    show a.mem.length < a.offset + (a.size + delta) by omega]

theorem growend_refused (rt : Runtime α) (delta : ℕ) (ha : a.Valid) (hdelta : a.mem.length < a.size + delta)
    (hrefused : ¬ (a.offset + (a.size + delta) ≤ typemaxInt ∧
      rt.grants (max (overallocation a.mem.length) (a.offset + (a.size + delta))) = true)) :
    ∃ e, growend rt a delta = .error e := by
  simp only [Vec.Valid] at ha
  have hlong : a.mem.length < a.offset + (a.size + delta) := by omega
  have hvalid : ¬ (a.mem.length < a.offset ∨ a.mem.length - a.offset < a.size) := by omega
  by_cases hadd : a.size + delta ≤ typemaxInt
  swap
  · exact ⟨.overflowError, by simp [growend, checkedAdd, hadd]⟩
  by_cases hneeded : a.offset + (a.size + delta) ≤ typemaxInt
  swap
  · exact ⟨.overflowError, by simp [growend, checkedAdd, hadd, hneeded]⟩
  · have hgrant : rt.grants (max (overallocation a.mem.length) (a.offset + (a.size + delta))) = false := by
      simpa [hneeded] using hrefused
    exact ⟨.memoryError, by
      simp [growend, growendInternal, checkedAdd, arrayNewMemory, hadd, hneeded, hlong, hvalid, hgrant,
        show ¬ a.size + delta < a.offset by omega]⟩

-- A window of the same length that shows the same cells.
theorem holds_same (hvalid : b.Valid) (hsize : b.size = a.size) (hcells : ∀ k, k < a.size → b.cell k = a.cell k) :
    Holds b a.toList := by
  refine ⟨hvalid, toList_eq (by simpa using hsize) ?_⟩
  intro k hk
  rw [getElem?_toList, if_pos (by omega), hcells k (by omega)]

theorem sizehint_ok {sz : ℤ} {first shrink : Bool} (ha : a.Valid) (h : SizehintServed rt a sz first shrink) :
    ∃ b, sizehint rt a sz first shrink = .ok b ∧ Holds b a.toList := by
  have hvalid := ha
  simp only [Vec.Valid] at hvalid
  simp only [SizehintServed] at h
  simp only [sizehint]
  generalize hmax : max sz.toNat a.size = wanted at h ⊢
  have hwanted : a.size ≤ wanted := by omega
  by_cases hfits : wanted ≤ a.mem.length
  · rw [if_pos hfits] at h ⊢
    by_cases hkeep : shrink = false ∨ a.mem.length - wanted ≤ a.mem.length / 8
    · rw [if_pos hkeep]
      exact ⟨a, rfl, ha, rfl⟩
    · rw [if_neg hkeep]
      obtain ⟨hgrant, hroom⟩ : rt.grants wanted = true ∧ ¬ (first = true ∧ a.size = 0) := by tauto
      simp only [arrayNewMemory, hgrant, if_true, pure_eq_ok, ok_bind]
      -- the elements go to the end of the new memory, or to its beginning
      cases first with
      | true =>
          have hpos : a.size ≠ 0 := by simpa using hroom
          have hlen : wanted - a.size + a.size ≤ wanted := by omega
          have href : memoryref (⟨wanted, rt.undef⟩ : Memory α) (wanted - a.size) = .ok (wanted - a.size) := by
            simp [memoryref, show wanted - a.size < wanted by omega]
          simp only [if_true, href, ok_bind, @unsafeCopyto_eq α ⟨wanted, rt.undef⟩ _ _ _ _ hlen hvalid]
          exact ⟨_, rfl, holds_same hlen rfl fun k hk => memmove_inside hk⟩
      | false =>
          have hlen : 0 + a.size ≤ wanted := by omega
          simp only [Bool.false_eq_true, if_false, ok_bind, @unsafeCopyto_eq α ⟨wanted, rt.undef⟩ _ _ _ _ hlen hvalid]
          exact ⟨_, rfl, holds_same hlen rfl fun k hk => memmove_inside hk⟩
  · rw [if_neg hfits] at h ⊢
    have hsum : a.size + (wanted - a.size) = wanted := by omega
    cases first with
    | true =>
        obtain ⟨b, hb, hoffset⟩ := growbeg_granted ha (by omega) h.1 h.2
        have hgrown := (growbeg_spec (n := 0) rt (wanted - a.size) ha).of_ok hb
        have hvalid' := hgrown.valid
        simp only [Vec.Valid, hgrown.size] at hvalid'
        refine ⟨⟨b.mem, b.offset + (wanted - a.size), a.size⟩, by simp [hb, memoryref, hoffset], holds_same ?_ rfl ?_⟩
        · simp only [Vec.Valid]
          omega
        · intro k hk
          rw [← hgrown.behind k (Nat.zero_le k) hk]
          simp only [Vec.cell]
          congr 1
          omega
    | false =>
        obtain ⟨b, hb⟩ := growend_granted rt (wanted - a.size) ha (by omega)
          (by rw [hsum]; exact h.1) (by rw [hsum]; exact h.2)
        have hgrown := (growend_spec (n := 0) rt (wanted - a.size) ha).of_ok hb
        have hvalid' := hgrown.valid
        simp only [Vec.Valid, hgrown.size] at hvalid'
        refine ⟨⟨b.mem, b.offset, a.size⟩, by simp [hb], holds_same ?_ rfl fun k hk => hgrown.before k hk⟩
        simp only [Vec.Valid]
        omega

theorem sizehint_error {sz : ℤ} {first shrink : Bool} (ha : a.Valid) (h : ¬ SizehintServed rt a sz first shrink) :
    ∃ e, sizehint rt a sz first shrink = .error e := by
  simp only [SizehintServed] at h
  simp only [sizehint]
  generalize hmax : max sz.toNat a.size = wanted at h ⊢
  have hwanted : a.size ≤ wanted := by omega
  by_cases hfits : wanted ≤ a.mem.length
  · rw [if_pos hfits] at h ⊢
    rw [if_neg (by tauto)]
    by_cases hgrant : rt.grants wanted = true
    · -- the window would start behind the last cell
      obtain ⟨rfl, h0⟩ : first = true ∧ a.size = 0 := by tauto
      exact ⟨.boundsError (wanted - a.size : ℕ), by simp [arrayNewMemory, hgrant, memoryref, h0]⟩
    · exact ⟨.memoryError, by simp [arrayNewMemory, hgrant]⟩
  · rw [if_neg hfits] at h ⊢
    have hsum : a.size + (wanted - a.size) = wanted := by omega
    cases first with
    | true =>
        obtain ⟨e, he⟩ := growbeg_refused rt (wanted - a.size) ha (by omega) h
        exact ⟨e, by simp [he]⟩
    | false =>
        obtain ⟨e, he⟩ := growend_refused rt (wanted - a.size) ha (by omega) (by rw [hsum]; exact h)
        exact ⟨e, by simp [he]⟩

-- Everything but sizehint! follows the list.
theorem perform_agrees (ha : a.Valid) {op : Op α} (hop : op.isSizehint = false) :
    Agrees a op (perform rt a op) := by
  cases op with
  | push item => exact push_agrees ha item
  | pushfirst item => exact pushfirst_agrees ha item
  | pop => exact pop_agrees ha
  | popfirst => exact popfirst_agrees ha
  | insert i item => exact insert_agrees ha i item
  | popat i => exact popat_agrees ha i
  | popatDefault i default => exact popatDefault_agrees ha i default
  | deleteat i => exact deleteat_agrees ha i
  | deleteatRange first n => exact deleteatRange_agrees ha first n
  | append items => exact append_agrees ha items
  | prepend items => exact prepend_agrees ha items
  | splice first n ins => exact splice_agrees ha first n ins
  | resize nl => exact resize_agrees ha nl
  | empty => exact empty_agrees ha
  | sizehint sz first shrink => simp [Op.isSizehint] at hop

theorem sizehint_meets_iff (ha : a.Valid) (sz : ℤ) (first shrink : Bool) :
    StepMeets rt a (.sizehint sz first shrink) ↔ SizehintServed rt a sz first shrink := by
  constructor
  · intro h
    by_contra hnot
    obtain ⟨e, he⟩ := sizehint_error ha hnot
    simp [StepMeets, perform, he, ListStep, listOp, Op.isSizehint] at h
  · intro h
    obtain ⟨b, hb, hholds⟩ := sizehint_ok ha h
    simp only [StepMeets, perform, hb, ok_bind, pure_eq_ok]
    exact ⟨hholds.valid, fun _ => none, by rw [hholds.toList]; rfl⟩

theorem stepMeets_of_agrees {op : Op α} (hop : op.isSizehint = false) (h : Agrees a op (perform rt a op)) :
    StepMeets rt a op := by
  rw [StepMeets]
  cases hrun : perform rt a op with
  | ok result => simpa [hrun, Agrees] using h
  | error e =>
      simp only [hrun, Agrees] at h
      exact h.imp_right fun hres => ⟨hres, hop⟩

theorem stepMeets_iff_served (ha : a.Valid) (op : Op α) : StepMeets rt a op ↔ StepServed rt a op := by
  by_cases hop : op.isSizehint = false
  · refine iff_of_true (stepMeets_of_agrees hop (perform_agrees ha hop)) ?_
    cases op with
    | sizehint sz first shrink => simp [Op.isSizehint] at hop
    | _ => trivial
  · cases op with
    | sizehint sz first shrink => exact sizehint_meets_iff ha sz first shrink
    | _ => simp [Op.isSizehint] at hop

-- A hint that throws leaves the vector as it was, so the window is inside the memory in any case.
theorem after_valid (ha : a.Valid) (op : Op α) : (after a (perform rt a op)).Valid := by
  cases hrun : perform rt a op with
  | error e => exact ha
  | ok result =>
      have hmeets : StepMeets rt a op := by
        by_cases hop : op.isSizehint = false
        · exact stepMeets_of_agrees hop (perform_agrees ha hop)
        · cases op with
          | sizehint sz first shrink =>
              rw [sizehint_meets_iff ha]
              by_contra hnot
              obtain ⟨e, he⟩ := sizehint_error ha hnot
              simp [perform, he] at hrun
          | _ => simp [Op.isSizehint] at hop
      simp only [StepMeets, hrun] at hmeets
      exact hmeets.1

-- In every run the vector does what the list does, and its window stays inside the memory; a
-- sizehint! comes back in exactly the states where its request can be served.
theorem run_meets_iff_served (steps : List (Runtime α × Op α)) (a : Vec α) (ha : a.Valid) :
    RunMeets steps a ↔ RunServed steps a := by
  induction steps generalizing a with
  | nil => exact iff_of_true ha trivial
  | cons step steps ih =>
      obtain ⟨rt, op⟩ := step
      rw [RunMeets, RunServed, stepMeets_iff_served ha, ih _ (after_valid ha op)]
      exact and_iff_right ha

-- A queue that is filled, hinted and emptied.
theorem run_meets_iff_served_queue :
    RunMeets [(⟨fun _ => none, fun _ => none, fun _ => true⟩, .append (.other [some 1, some 2, some 3])),
      (⟨fun _ => none, fun _ => none, fun _ => true⟩, .sizehint 100 true true),
      (⟨fun _ => none, fun _ => none, fun _ => true⟩, .popfirst)] (Vec.ofList ([] : List (Cell ℕ))) := by
  refine (run_meets_iff_served _ (Vec.ofList []) (show 0 + 0 ≤ 0 by omega)).mpr ?_
  refine ⟨trivial, ?_, trivial, trivial⟩
  exact ⟨by decide, rfl⟩

-- An emptied vector cannot be told to keep its room in front.
theorem sizehint_first_throws :
    ¬ RunMeets [(⟨fun _ => none, fun _ => none, fun _ => true⟩, .empty),
      (⟨fun _ => none, fun _ => none, fun _ => true⟩, .sizehint 0 true true)]
      (Vec.ofList [some 1, some 2, some 3]) := by
  rintro ⟨-, -, -, hmeets, -⟩
  have hrun : perform ⟨fun _ => none, fun _ => none, fun _ => true⟩
      (after (Vec.ofList [some 1, some 2, some 3]) (perform ⟨fun _ => none, fun _ => none, fun _ => true⟩
        (Vec.ofList [some 1, some 2, some 3]) .empty)) (.sizehint 0 true true) = .error (.boundsError 0) := rfl
  simp [StepMeets, hrun, ListStep, listOp, Op.isSizehint] at hmeets

end Joolia.Vectors
