import Joolia.Base.Dict.Theorems

namespace Joolia.Hashtable

open Probing

variable {K V : Type} [Key K]

-- The tables reached from `Dict{K,V}()` without shrinking.
inductive Reachable : Dict K V → Prop
  | new : Reachable .new
  | step {h h' : Dict K V} {op : Op K V} {r : Result K V} :
      Reachable h → Grows h op → exec h op = some (h', r) → Reachable h'

-- The invariant in terms of the fields of the table.
structure WellFormed (h : Dict K V) : Prop where
  lengths : h.keys.length = h.slots.length ∧ h.vals.length = h.slots.length
  size : h.slots = [] ∨ ∃ m, h.slots.length = 2 ^ m
  count : h.count = h.slots.countP fun b => b &&& 0x80 != 0
  ndel : h.ndel = h.slots.count 0x7f
  floor : ∀ i, i < h.slots.length → isslotfilled h i = true → h.idxfloor ≤ i
  placed : ∀ i, i < h.slots.length → isslotfilled h i = true → ∃ k, h.keys.getD i none = some k ∧
    ∃ j, j ≤ h.maxprobe ∧ i = ((hashindex k h.slots.length).1 + j) % h.slots.length ∧
      ∀ j', j' < j → isslotempty h (((hashindex k h.slots.length).1 + j') % h.slots.length) = false
  load : 3 * (h.count + h.ndel) ≤ 2 * h.slots.length
  free : h.slots = [] ∨ ∃ i, i < h.slots.length ∧ isslotempty h i = true

-- The byte stored for a slot.
def byteOf (s : Slot (K × V)) : UInt8 :=
  match s with
  | .empty => 0x00
  | .tomb => 0x7f
  | .full a => shorthash7 (Key.hash a.1)

theorem Bytes.eq_map {slots : List UInt8} {t : List (Slot (K × V))} (hb : Bytes slots t) :
    slots = t.map byteOf := by
  refine List.ext_getElem (by rw [hb.length, List.length_map]) fun i hi _ => ?_
  have hbyte := hb.byte i (by rw [← hb.length]; exact hi)
  have hlt : i < t.length := by rw [← hb.length]; exact hi
  simp only [slotAt, slot, List.getD, List.getElem?_eq_getElem hi, List.getElem?_eq_getElem hlt,
    Option.getD_some] at hbyte
  rw [List.getElem_map]
  cases hslot : t[i] with
  | empty => rwa [hslot] at hbyte
  | tomb => rwa [hslot] at hbyte
  | full a => rwa [hslot] at hbyte

theorem byteOf_filled (s : Slot (K × V)) : (byteOf s &&& 0x80 != 0) = s.value?.isSome := by
  cases s with
  | empty => exact (by decide : ((0x00 : UInt8) &&& 0x80 != 0) = false)
  | tomb => exact (by decide : ((0x7f : UInt8) &&& 0x80 != 0) = false)
  | full a => simp [byteOf, shorthash7_and, Slot.value?]

theorem byteOf_missing (s : Slot (K × V)) : (byteOf s == 0x7f) = s.isTomb := by
  cases s with
  | empty => rfl
  | tomb => rfl
  | full a => simp [byteOf, shorthash7_ne_missing, Slot.isTomb]

theorem Inv.wellFormed {h : Dict K V} {t : List (Slot (K × V))} (hinv : Inv h t) (hlow : Low t) :
    WellFormed h := by
  have hs := hinv.toStored
  have hslots := hs.bytes.eq_map
  have hlen := hs.length_slots
  refine ⟨by rw [hs.length_keys, hs.length_vals, hlen]; exact ⟨rfl, rfl⟩, ?_, ?_, ?_, fun i hi hfilled => ?_,
    fun i hi hfilled => ?_, ?_, ?_⟩
  · obtain hz | ⟨-, hpow⟩ := hs.size
    · exact .inl (List.eq_nil_of_length_eq_zero (by omega))
    · exact .inr (by rwa [hlen])
  · rw [hs.count, entries, List.length_filterMap_eq_countP, hslots, List.countP_map]
    exact congrArg _ (List.countP_congr fun s _ => by rw [Function.comp_apply, byteOf_filled])
  · rw [hs.ndel, tombs, hslots, List.count, List.countP_map]
    exact congrArg _ (List.countP_congr fun s _ => by rw [Function.comp_apply, byteOf_missing])
  · obtain ⟨a, ha⟩ := (isslotfilled_iff hs (by omega)).1 hfilled
    exact hs.floor i a ha
  · obtain ⟨a, ha⟩ := (isslotfilled_iff hs (by omega)).1 hfilled
    obtain ⟨j, hj, heq, hpath⟩ := hs.valid i a ha
    have hhash := hashindex_eq hs a.1 (by omega)
    rw [hs.length_keys] at hhash
    rw [hlen]
    refine ⟨a.1, (hinv.vals_of_full ha).1, j, hj, by rw [hhash]; exact heq, fun j' hj' => ?_⟩
    rw [hhash, Bool.eq_false_iff]
    intro hempty
    exact hpath j' hj' ((isslotempty_iff hs (probe_lt (by omega) _ _)).1 hempty)
  · rw [hs.count, hs.ndel, hlen]
    rw [Low] at hlow
    omega
  · by_cases hz : t.length = 0
    · exact .inl (List.eq_nil_of_length_eq_zero (by omega))
    · obtain ⟨j, -, hempty⟩ := exists_empty_probe (hinv.load.resolve_left hz) (show 0 < t.length by omega)
      have hlt := probe_lt (n := t.length) (by omega) 0 j
      exact .inr ⟨_, by omega, (isslotempty_iff hs hlt).2 hempty⟩

theorem Reachable.inv [LawfulKey K] {h : Dict K V} (hreach : Reachable h) :
    ∃ t, Inv h t ∧ Low t ∧ ∃ m : FiniteMap K V, m.bindings = entries t := by
  induction hreach with
  | new => exact ⟨[], inv_new, Nat.le_refl _, .empty, rfl⟩
  | step _ hgrows hexec ih =>
      obtain ⟨t, hinv, hlow, m, hm⟩ := ih
      obtain ⟨h', u, r, m', hexec', hinv', hm', -, hlow'⟩ := exec_spec hinv hm (.inr hgrows)
      rw [hexec] at hexec'
      cases hexec'
      exact ⟨u, hinv', hlow' hgrows hlow, m', hm'⟩

-- Every reachable table is well formed, so every search and every call on it ends.
theorem dict_wellFormed [LawfulKey K] {h : Dict K V} (hreach : Reachable h) :
    WellFormed h ∧ (∀ key, (htKeyindex h key).isSome) ∧
      (∀ key, (htKeyindex2Shorthash (calls h) h key).isSome) ∧
      (∀ newsz, h.count < newsz → (rehash h newsz).isSome) ∧
      ∀ op, Grows h op → (exec h op).isSome := by
  obtain ⟨t, hinv, hlow, m, hm⟩ := hreach.inv
  refine ⟨hinv.wellFormed hlow, fun key => ?_, fun key => ?_, fun newsz hlt => ?_, fun op hgrows => ?_⟩
  · obtain ⟨r, hr, -⟩ := htKeyindex_spec hinv.toStored key
    rw [hr]
    rfl
  · obtain ⟨h', u, r, hcall, -⟩ := calls_spec hinv key
    rw [hcall]
    rfl
  · obtain ⟨h', u, hre, -⟩ := rehash_spec hinv.toStored (Int.lt_of_lt_of_le hlt (tablesz_spec newsz).1)
    rw [hre]
    rfl
  · obtain ⟨h', u, r, m', hexec, -⟩ := exec_spec hinv hm (.inr hgrows)
    rw [hexec]
    rfl

theorem dict_wellFormed_insert : ∃ h : Dict ℕ ℕ, exec .new (.setindex 10 1) = some (h, .done) ∧
    h.slots.length = 16 ∧ WellFormed h := by
  refine ⟨_, rfl, rfl, (dict_wellFormed (.step .new ?_ (rfl : exec .new (.setindex 10 1) = _))).1⟩
  exact trivial

end Joolia.Hashtable
