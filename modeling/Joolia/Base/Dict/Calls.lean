import Joolia.Base.Dict.Delete
import Joolia.Library.Iteration

namespace Joolia.Hashtable

open Probing Iteration

variable {K V : Type} [Key K]

-- The value read from a slot that matches a key.
theorem Stored.vals_of_full {h : Dict K V} {t : List (Slot (K × V))} (hs : Stored h t) {i : ℕ} {a : K × V}
    (ha : slot t i = .full a) : h.keys.getD i none = some a.1 ∧ h.vals.getD i none = some a.2 := by
  have hcell := hs.cell i (lt_length_of_slot (by rw [ha]; simp))
  rw [ha] at hcell
  exact hcell.2

-- `_pop!(h, index)` at the slot of `key`.
theorem popAt_spec [LawfulKey K] {h : Dict K V} {t : List (Slot (K × V))} (hinv : Inv h t) {key : K} {i : ℕ}
    (hm : slotMatches key (slot t i) = true) :
    ∃ h' u a, popAt h i = some (h', a.2) ∧ deleteAt h i = some h' ∧ Inv h' u ∧ a ∈ entries t ∧
      Key.isequal key a.1 = true ∧ (entries u).Perm (without key (entries t)) ∧ (Low t → Low u) := by
  obtain ⟨a, ha, heq⟩ := slotMatches_iff.1 hm
  obtain ⟨h', u, hdel, hinv', -, -, hentries, hlow⟩ := deleteAt_spec hinv ha
  refine ⟨h', u, a, ?_, hdel, hinv', mem_entries.2 ⟨i, ha⟩, heq, ?_, hlow⟩
  · rw [popAt, (hinv.vals_of_full ha).2, hdel]
    rfl
  · rw [hentries]
    exact (without_of_matches hinv.toStored hm).symm

theorem delete_spec [LawfulKey K] {h : Dict K V} {t : List (Slot (K × V))} (hinv : Inv h t) (key : K) :
    ∃ h' u, delete h key = some h' ∧ Inv h' u ∧ (entries u).Perm (without key (entries t)) ∧
      (Low t → Low u) := by
  obtain ⟨r, hr, hres⟩ := htKeyindex_spec hinv.toStored key
  rw [delete, hr, Option.bind_some]
  obtain ⟨i, rfl, hm⟩ | ⟨rfl, habsent⟩ := hres
  · obtain ⟨h', u, a, -, hdel, hinv', -, -, hperm, hlow⟩ := popAt_spec hinv hm
    exact ⟨h', u, by rw [if_pos (by omega), Int.toNat_natCast, hdel], hinv', hperm, hlow⟩
  · exact ⟨h, t, rfl, hinv, by rw [without_of_absent habsent], id⟩

theorem Absent.not_isequal {key : K} {t : List (Slot (K × V))} (habsent : Absent key t) {b : K × V}
    (hb : b ∈ entries t) : Key.isequal key b.1 = false := by
  obtain ⟨i, hi⟩ := mem_entries.1 hb
  have hm := habsent i
  rwa [hi] at hm

-- `pop!(h, key)` removes and returns the value of a bound key.
theorem popKey_spec [LawfulKey K] {h : Dict K V} {t : List (Slot (K × V))} (hinv : Inv h t) (key : K) :
    (∃ h' u a, popKey h key = some (.ok (h', a.2)) ∧ (∀ d, popKeyDefault h key d = some (h', a.2)) ∧
      Inv h' u ∧ a ∈ entries t ∧ Key.isequal key a.1 = true ∧
      (entries u).Perm (without key (entries t)) ∧ (Low t → Low u)) ∨
    popKey h key = some (.error (.KeyError key)) ∧ (∀ d, popKeyDefault h key d = some (h, d)) ∧
      ∀ b ∈ entries t, Key.isequal key b.1 = false := by
  obtain ⟨r, hr, hres⟩ := htKeyindex_spec hinv.toStored key
  simp only [popKey, popKeyDefault, hr, Option.bind_some]
  obtain ⟨i, rfl, hm⟩ | ⟨rfl, habsent⟩ := hres
  · obtain ⟨h', u, a, hpop, -, hinv', hmem, heq, hperm, hlow⟩ := popAt_spec hinv hm
    refine .inl ⟨h', u, a, ?_, fun d => ?_, hinv', hmem, heq, hperm, hlow⟩
    · rw [if_pos (by omega), Int.toNat_natCast, hpop]
      rfl
    · rw [if_pos (by omega), Int.toNat_natCast, hpop]
  · exact .inr ⟨rfl, fun d => rfl, fun b => habsent.not_isequal⟩

-- The first filled slot from `i` on.
theorem skipDeleted_spec {h : Dict K V} {t : List (Slot (K × V))} (hs : Stored h t) (i : ℕ) :
    (skipDeleted h i = -1 ∧ ∀ j, i ≤ j → (slot t j).value? = none) ∨
    ∃ j a, i ≤ j ∧ skipDeleted h i = (j : ℤ) ∧ slot t j = .full a ∧
      ∀ k, i ≤ k → k < j → (slot t k).value? = none := by
  have hunfilled : ∀ k, (!isslotfilled h k) = true → k < t.length → (slot t k).value? = none := by
    intro k hk hlt
    refine Slot.value?_eq_none.2 fun a ha => ?_
    rw [(isslotfilled_iff hs hlt).2 ⟨a, ha⟩] at hk
    cases hk
  have hbeyond : ∀ k, t.length ≤ k → (slot t k).value? = none := by
    intro k hk
    rw [slot_of_length_le hk]
    rfl
  simp only [skipDeleted, hs.length_slots, Int.toNat_natCast]
  by_cases hi : t.length ≤ i
  · exact .inl ⟨if_pos (.inr (by omega)), fun j hj => hbeyond j (by omega)⟩
  · rw [if_neg (by omega)]
    cases hfind : (List.range' i (t.length - i)).find? (isslotfilled h) with
    | none =>
        rw [List.find?_range'_eq_none] at hfind
        refine .inl ⟨rfl, fun j hj => ?_⟩
        by_cases hlt : j < t.length
        · exact hunfilled j (hfind j hj (by omega)) hlt
        · exact hbeyond j (by omega)
    | some j =>
        rw [List.find?_range'_eq_some] at hfind
        obtain ⟨hfilled, hmem, hbefore⟩ := hfind
        rw [List.mem_range'_1] at hmem
        obtain ⟨a, ha⟩ := (isslotfilled_iff hs (by omega)).1 hfilled
        exact .inr ⟨j, a, by omega, rfl, ha, fun k hik hkj => hunfilled k (hbefore k hik hkj) (by omega)⟩

theorem Inv.setFloor {h : Dict K V} {t : List (Slot (K × V))} (hinv : Inv h t) {f : ℕ}
    (hf : ∀ i a, slot t i = .full a → f ≤ i) : Inv { h with idxfloor := f } t :=
  ⟨⟨hinv.length_slots, hinv.length_keys, hinv.length_vals, hinv.size,
    fun i hi => (hinv.cell i hi).congr rfl rfl rfl, hinv.count, hinv.ndel, hf,
    hinv.valid, hinv.distinct, hinv.maxprobe⟩, hinv.load⟩

-- `pop!(h)` removes some binding of a table that has one.
theorem pop_spec [LawfulKey K] {h : Dict K V} {t : List (Slot (K × V))} (hinv : Inv h t) :
    (pop h = some (.error (.ArgumentError "dict must be non-empty")) ∧ entries t = []) ∨
    ∃ h' u a, pop h = some (.ok (h', a.1, a.2)) ∧ Inv h' u ∧ a ∈ entries t ∧
      (entries u).Perm (without a.1 (entries t)) ∧ (Low t → Low u) := by
  have hcount := hinv.count
  unfold pop
  by_cases hz : h.count = 0
  · rw [if_pos hz]
    exact .inl ⟨rfl, List.eq_nil_of_length_eq_zero (by omega)⟩
  · rw [if_neg hz]
    obtain ⟨hnone, hall⟩ | ⟨j, a, hij, hskip, ha, hbefore⟩ := skipDeleted_spec hinv.toStored h.idxfloor
    · obtain ⟨b, hb⟩ := List.exists_mem_of_length_pos (show 0 < (entries t).length by omega)
      obtain ⟨k, hk⟩ := mem_entries.1 hb
      have := hall k (hinv.floor k b hk)
      rw [hk] at this
      cases this
    · have hinv1 : Inv { h with idxfloor := j } t := by
        refine hinv.setFloor fun k b hb => ?_
        by_contra hlt
        have := hbefore k (hinv.floor k b hb) (by omega)
        rw [hb] at this
        cases this
      have hm : slotMatches a.1 (slot t j) = true := slotMatches_iff.2 ⟨a, ha, LawfulKey.refl a.1⟩
      obtain ⟨h', u, hdel, hinv', -, -, hentries, hlow⟩ := deleteAt_spec hinv1 ha
      obtain ⟨hkey, hval⟩ := hinv1.vals_of_full ha
      refine .inr ⟨h', u, a, ?_, hinv', mem_entries.2 ⟨j, ha⟩, ?_, hlow⟩
      · simp only [hskip, if_pos (Int.natCast_nonneg j), if_neg (Int.not_lt.2 (Int.natCast_nonneg j)),
          Int.toNat_natCast, hdel, hkey, hval]
        rfl
      · rw [hentries]
        exact (without_of_matches hinv1.toStored hm).symm

-- After `i` passes `filter!` has dealt with the first `i` slots.
def FilteredTo (pred : K × V → Bool) (t : List (Slot (K × V))) (i : ℕ) (h : Dict K V) : Prop :=
  ∃ u, Inv h u ∧ u.length = t.length ∧ (Low t → Low u) ∧
    ∀ j, (slot u j).value? = if j < i then (slot t j).value?.filter pred else (slot t j).value?

theorem filterStep_spec (pred : K × V → Bool) {h : Dict K V} {t : List (Slot (K × V))} {i : ℕ}
    (hi : i < t.length) (hto : FilteredTo pred t i h) :
    ∃ h', filterStep pred h i = some h' ∧ FilteredTo pred t (i + 1) h' := by
  obtain ⟨u, hinv, hlen, hlow, hentry⟩ := hto
  have hs := hinv.toStored
  have hat := hentry i
  rw [if_neg (by omega)] at hat
  -- Only slot `i` may differ from the state before the pass.
  have hnext : ∀ x, (slot t i).value?.filter pred = x → ∀ j,
      (if j = i then x else (slot u j).value?) =
        if j < i + 1 then (slot t j).value?.filter pred else (slot t j).value? := by
    intro x hx j
    by_cases hj : j = i
    · rw [if_pos hj, if_pos (by omega), hj, hx]
    · rw [if_neg hj, hentry]
      by_cases hlt : j < i
      · rw [if_pos hlt, if_pos (by omega)]
      · rw [if_neg hlt, if_neg (by omega)]
  have hsame : (slot t i).value?.filter pred = (slot u i).value? → FilteredTo pred t (i + 1) h := by
    intro hx
    refine ⟨u, hinv, hlen, hlow, fun j => ?_⟩
    rw [← hnext _ hx j]
    split
    · rename_i hj
      rw [hj]
    · rfl
  unfold filterStep
  by_cases hfilled : isslotfilled h i = true
  · rw [if_pos hfilled]
    obtain ⟨a, ha⟩ := (isslotfilled_iff hs (by omega)).1 hfilled
    obtain ⟨hkey, hval⟩ := hs.vals_of_full ha
    rw [ha] at hat hsame
    simp only [hkey, hval, Option.bind_eq_bind, Option.bind_some]
    by_cases hp : pred a = true
    · rw [if_pos hp]
      refine ⟨h, rfl, hsame ?_⟩
      rw [← hat]
      simp [Slot.value?, Option.filter, hp]
    · rw [if_neg hp]
      obtain ⟨h', w, hdel, hinv', hwlen, hwentry, -, hlow'⟩ := deleteAt_spec hinv ha
      refine ⟨h', hdel, w, hinv', by omega, fun h => hlow' (hlow h), fun j => ?_⟩
      rw [hwentry, hnext none ?_ j]
      rw [← hat]
      simp [Slot.value?, Option.filter, hp]
  · rw [if_neg hfilled]
    refine ⟨h, rfl, hsame ?_⟩
    have hnone : (slot u i).value? = none := Slot.value?_eq_none.2 fun a ha =>
      hfilled ((isslotfilled_iff hs (by omega)).2 ⟨a, ha⟩)
    rw [← hat, hnone]
    rfl

theorem filter_spec (pred : K × V → Bool) {h : Dict K V} {t : List (Slot (K × V))} (hinv : Inv h t) :
    ∃ h' u, filter pred h = some h' ∧ Inv h' u ∧ entries u = (entries t).filter pred ∧ (Low t → Low u) := by
  unfold filter
  by_cases hz : h.count = 0
  · rw [if_pos hz]
    have hcount := hinv.count
    have hnil : entries t = [] := List.eq_nil_of_length_eq_zero (by omega)
    exact ⟨h, t, rfl, hinv, by rw [hnil]; rfl, id⟩
  · rw [if_neg hz, hinv.length_slots]
    obtain ⟨h', hrun, u, hinv', hlen, hlow, hentry⟩ := Loop.foldlM_range (FilteredTo pred t) t.length
      ⟨t, hinv, rfl, id, fun j => by rw [if_neg (by omega)]⟩
      fun i h' hi hto => filterStep_spec pred hi hto
    refine ⟨h', u, hrun, hinv', entries_filter pred hlen fun j => ?_, hlow⟩
    rw [hentry]
    split
    · rfl
    · rw [slot_of_length_le (by omega)]
      rfl

theorem inv_new : Inv (Dict.new : Dict K V) [] :=
  stored_fresh (.inl rfl) rfl rfl rfl rfl rfl rfl

theorem empty_spec {h : Dict K V} {t : List (Slot (K × V))} (hinv : Inv h t) :
    ∃ u, Inv (empty h) u ∧ entries u = [] ∧ Low u := by
  refine ⟨List.replicate t.length .empty, stored_fresh hinv.size ?_ ?_ ?_ rfl rfl rfl, entries_replicate _, ?_⟩
  · simp only [empty, hinv.length_slots]
  · simp only [empty, hinv.length_keys]
  · simp only [empty, hinv.length_vals]
  · rw [Low, entries_replicate, tombs_replicate]
    exact Nat.zero_le _

-- Iterating from slot `i` yields the entries from there on.
theorem iterate_from {h : Dict K V} {t : List (Slot (K × V))} (hs : Stored h t) (i : ℕ) :
    Yields (iterate h) (iterate h i) ((entriesFrom t i).map fun a => (some a.1, some a.2)) := by
  induction hn : t.length - i using Nat.strong_induction_on generalizing i with
  | h n ih =>
      obtain ⟨hskip, hall⟩ | ⟨j, a, hij, hskip, ha, hbefore⟩ := skipDeleted_spec hs i
      · rw [entriesFrom_skip (Nat.le_add_right i t.length) fun k hik _ => hall k hik,
          entriesFrom_of_le (by omega)]
        simp only [iterate, hskip]
        exact .done
      · have hj : j < t.length := lt_length_of_slot (by rw [ha]; simp)
        obtain ⟨hkey, hval⟩ := hs.vals_of_full ha
        rw [entriesFrom_skip hij hbefore, entriesFrom_succ hj, ha]
        have hstep : iterate h i = some ((some a.1, some a.2), ((j + 1 : ℕ) : ℤ)) := by
          simp only [iterate, hskip, if_neg (Int.not_lt.2 (Int.natCast_nonneg j)), Int.toNat_natCast, hkey, hval]
          rfl
        rw [hstep]
        exact .step (ih (t.length - (j + 1)) (by omega) (j + 1) rfl)

theorem iterate_spec {h : Dict K V} {t : List (Slot (K × V))} (hs : Stored h t) :
    Yields (iterate h) (iterate h h.idxfloor) ((entries t).map fun a => (some a.1, some a.2)) := by
  have hfloor : entriesFrom t 0 = entriesFrom t h.idxfloor := by
    refine entriesFrom_skip (Nat.zero_le _) fun k _ hk => Slot.value?_eq_none.2 fun a ha => ?_
    have := hs.floor k a ha
    omega
  rw [← entriesFrom_zero, hfloor]
  exact iterate_from hs h.idxfloor

end Joolia.Hashtable
