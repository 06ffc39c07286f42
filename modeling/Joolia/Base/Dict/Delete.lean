import Joolia.Base.Dict.Insert

namespace Joolia.Hashtable

open Probing

variable {K V : Type} [Key K]

-- The bytes of a slot array, without its keys and values.
def Byte (b : UInt8) (s : Slot (K × V)) : Prop :=
  match s with
  | .empty => b = 0x00
  | .tomb => b = 0x7f
  | .full a => b = shorthash7 (Key.hash a.1)

structure Bytes (slots : List UInt8) (t : List (Slot (K × V))) : Prop where
  length : slots.length = t.length
  byte : ∀ i, i < t.length → Byte (slotAt slots i) (slot t i)

theorem Stored.bytes {h : Dict K V} {t : List (Slot (K × V))} (hs : Stored h t) : Bytes h.slots t := by
  refine ⟨hs.length_slots, fun i hi => ?_⟩
  have hc := hs.cell i hi
  cases hslot : slot t i with
  | empty => rwa [hslot] at hc
  | tomb => rwa [hslot] at hc
  | full a =>
      rw [hslot] at hc
      exact hc.1

theorem Bytes.set {slots : List UInt8} {t : List (Slot (K × V))} (hb : Bytes slots t) {i : ℕ}
    (hi : i < t.length) {b : UInt8} {s : Slot (K × V)} (hbyte : Byte b s) :
    Bytes (slots.set i b) (t.set i s) := by
  refine ⟨by simp [hb.length], fun j hj => ?_⟩
  rw [List.length_set] at hj
  rw [slot_set _ hi, slotAt, getD_set _ (by rw [hb.length]; exact hi)]
  split
  · exact hbyte
  · exact hb.byte j hj

theorem Bytes.tomb_iff {slots : List UInt8} {t : List (Slot (K × V))} (hb : Bytes slots t) {i : ℕ}
    (hi : i < t.length) : slotAt slots i = 0x7f ↔ slot t i = .tomb := by
  have hbyte := hb.byte i hi
  cases hslot : slot t i with
  | empty =>
      rw [hslot] at hbyte
      simp [show slotAt slots i = 0x00 from hbyte]
  | tomb =>
      rw [hslot] at hbyte
      simp [show slotAt slots i = 0x7f from hbyte]
  | full a =>
      rw [hslot] at hbyte
      simp [show slotAt slots i = shorthash7 (Key.hash a.1) from hbyte, shorthash7_ne_missing]

-- `(index - 1) & (sz-1)` is the slot before `index`.
theorem maskInt_pred {n m i : ℕ} (hn : n = 2 ^ m) (hi : i < n) :
    maskInt ((i : ℤ) - 1) n < n ∧ (maskInt ((i : ℤ) - 1) n + 1) % n = i := by
  have hmask := maskInt_two_pow ((i : ℤ) - 1) m
  rw [show (2 ^ m : ℤ) = (n : ℤ) by rw [hn]; push_cast; rfl, ← hn] at hmask
  cases i with
  | zero =>
      have hmod : ((0 : ℕ) - 1 : ℤ) % n = n - 1 := by
        rw [← Int.add_emod_right, Int.emod_eq_of_lt (by omega) (by omega)]
        omega
      rw [hmod] at hmask
      have heq : maskInt (((0 : ℕ) : ℤ) - 1) n = n - 1 := by omega
      rw [heq, show n - 1 + 1 = n by omega, Nat.mod_self]
      omega
  | succ i =>
      rw [Int.emod_eq_of_lt (by omega) (by omega)] at hmask
      have heq : maskInt (((i + 1 : ℕ) : ℤ) - 1) n = i := by omega
      rw [heq, Nat.mod_eq_of_lt hi]
      omega

-- The sweep empties slot `i` and the tombs before it. None of them is on the path of
-- an entry, since the slot after them is never-used.
theorem sweep_spec {home : K × V → ℕ} {bound m : ℕ} (fuel : ℕ) {slots : List UInt8} {t : List (Slot (K × V))}
    (hb : Bytes slots t) (hvalid : Valid home bound t) (hm : t.length = 2 ^ m) {i : ℕ} (hi : i < t.length)
    (hnext : slot t ((i + 1) % t.length) = .empty) (hfuel : tombs (t.set i .empty) < fuel) (nd : ℤ) :
    ∃ slots' nd' u, sweep t.length fuel slots i nd = some (slots', nd') ∧ Bytes slots' u ∧
      u.length = t.length ∧ Valid home bound u ∧
      (∀ j, (slot u j).value? = if j = i then none else (slot t j).value?) ∧
      tombs u ≤ tombs (t.set i .empty) ∧ nd' = nd - 1 - tombs (t.set i .empty) + tombs u := by
  induction fuel generalizing slots t i nd with
  | zero => omega
  | succ fuel ih =>
      have hb1 : Bytes (slots.set i 0x00) (t.set i .empty) := hb.set hi rfl
      have hvalid1 := hvalid.set_empty hi hnext
      have hlen1 : (t.set i .empty).length = t.length := List.length_set
      have hentry1 : ∀ j, (slot (t.set i .empty) j).value? = if j = i then none else (slot t j).value? := by
        intro j
        rw [slot_set _ hi]
        split <;> rfl
      obtain ⟨hplt, hpsucc⟩ := maskInt_pred hm hi
      simp only [sweep]
      generalize maskInt ((i : ℤ) - 1) t.length = p at *
      by_cases htomb : slot (t.set i .empty) p = .tomb
      · rw [if_pos ((hb1.tomb_iff (by omega)).2 htomb)]
        have hcount := tombs_set (t.set i .empty) (i := p) (by omega) .empty
        rw [htomb] at hcount
        simp only [Slot.isTomb, if_true, Bool.false_eq_true, if_false] at hcount
        obtain ⟨slots', nd', u, hsweep, hbu, hulen, hvu, hentry, hle, hnd⟩ :=
          ih hb1 hvalid1 (by omega) (i := p) (by omega)
            (by rw [hlen1, hpsucc, slot_set _ hi, if_pos rfl]) (by omega) (nd - 1)
        rw [hlen1] at hsweep
        refine ⟨slots', nd', u, hsweep, hbu, by omega, hvu, fun j => ?_, by omega, by omega⟩
        rw [hentry, ← hentry1]
        split
        · rename_i hj
          rw [hj, htomb]
          rfl
        · rfl
      · rw [if_neg (mt (hb1.tomb_iff (by omega)).1 htomb)]
        exact ⟨_, _, _, rfl, hb1, hlen1, hvalid1, hentry1, Nat.le_refl _, by omega⟩

-- Removing the entry of slot `i`.
theorem Stored.remove {h : Dict K V} {t : List (Slot (K × V))} (hs : Stored h t) {i : ℕ} {a : K × V}
    (ha : slot t i = .full a) {u : List (Slot (K × V))} (hlen : u.length = t.length) {slots : List UInt8}
    (hb : Bytes slots u) (hvalid : Valid (home t.length) h.maxprobe u)
    (hentry : ∀ j, (slot u j).value? = if j = i then none else (slot t j).value?) {nd : ℤ}
    (hnd : h.ndel + nd = tombs u) (hcount : (entries t).length = (entries u).length + 1) :
    Stored (clearSlot h i slots nd) u := by
  have hi : i < t.length := lt_length_of_slot (by rw [ha]; simp)
  have hlkeys := hs.length_keys
  have hlvals := hs.length_vals
  have hfull : ∀ j b, slot u j = .full b → j ≠ i ∧ slot t j = .full b := by
    intro j b hj
    have hj' := hentry j
    rw [hj] at hj'
    split at hj'
    · cases hj'
    · exact ⟨‹_›, Slot.value?_eq_some.1 hj'.symm⟩
  refine ⟨hb.length, by simp [clearSlot, hlkeys, hlen], by simp [clearSlot, hlvals, hlen], by rw [hlen]; exact hs.size,
    fun j hj => ?_, ?_, hnd, fun j b hj => hs.floor j b (hfull j b hj).2, by rw [hlen]; exact hvalid,
    fun j k b c hj hk => hs.distinct j k b c (hfull j b hj).2 (hfull k c hk).2, by rw [hlen]; exact hs.maxprobe⟩
  · have hbyte := hb.byte j hj
    cases hslot : slot u j with
    | empty => rwa [hslot] at hbyte
    | tomb => rwa [hslot] at hbyte
    | full b =>
        rw [hslot] at hbyte
        obtain ⟨hne, htj⟩ := hfull j b hslot
        have hc := hs.cell j (by omega)
        rw [htj] at hc
        refine ⟨hbyte, ?_, ?_⟩
        · rw [clearSlot, getD_set _ (by omega), if_neg hne, hc.2.1]
        · rw [clearSlot, getD_set _ (by omega), if_neg hne, hc.2.2]
  · change h.count - 1 = _
    rw [hs.count]
    omega

-- `_delete!` removes the entry of slot `i` and nothing else.
theorem deleteAt_spec {h : Dict K V} {t : List (Slot (K × V))} (hinv : Inv h t) {i : ℕ} {a : K × V}
    (ha : slot t i = .full a) :
    ∃ h' u, deleteAt h i = some h' ∧ Inv h' u ∧ u.length = t.length ∧
      (∀ j, (slot u j).value? = if j = i then none else (slot t j).value?) ∧
      entries u = entries (t.set i .tomb) ∧ (Low t → Low u) := by
  have hs := hinv.toStored
  have hi : i < t.length := lt_length_of_slot (by rw [ha]; simp)
  obtain ⟨m, hm⟩ : ∃ m, t.length = 2 ^ m := (hs.size.resolve_left (by omega)).2
  have hnextind : maskNat (i + 1) h.slots.length = (i + 1) % t.length := by
    rw [hs.length_slots, hm, maskNat_two_pow]
  have hcount := length_entries_set_tomb t ha
  -- What both branches share, from the new slots on.
  have hfinish : ∀ slots nd u, Bytes slots u → u.length = t.length → Valid (home t.length) h.maxprobe u →
      (∀ j, (slot u j).value? = if j = i then none else (slot t j).value?) →
      tombs u ≤ tombs t + 1 → h.ndel + nd = tombs u →
      Inv (clearSlot h i slots nd) u ∧ u.length = t.length ∧
        (∀ j, (slot u j).value? = if j = i then none else (slot t j).value?) ∧
        entries u = entries (t.set i .tomb) ∧ (Low t → Low u) := by
    intro slots nd u hb hlen hvalid hentry hle hnd
    have heq : entries u = entries (t.set i .tomb) := by
      refine entries_congr (by simpa using hlen) fun j => ?_
      rw [hentry, slot_set _ hi]
      split <;> rfl
    rw [← heq] at hcount
    refine ⟨⟨hs.remove ha hlen hb hvalid hentry hnd hcount, .inr ?_⟩, hlen, hentry, heq, fun hlow => ?_⟩
    · have := hinv.load
      omega
    · rw [Low] at hlow ⊢
      omega
  simp only [deleteAt, hnextind]
  have hnlt : (i + 1) % t.length < t.length := Nat.mod_lt _ (by omega)
  by_cases hempty : slot t ((i + 1) % t.length) = .empty
  · have htombs := tombs_set t hi .empty
    rw [ha] at htombs
    simp only [Slot.isTomb, Bool.false_eq_true, if_false, Nat.add_zero] at htombs
    have hlen := length_eq t
    have hload := hinv.load
    obtain ⟨slots', nd', u, hsweep, hb, hulen, hvalid, hentry, hle, hnd⟩ :=
      sweep_spec t.length hs.bytes hs.valid hm hi hempty (by omega) 1
    refine ⟨_, u, ?_, hfinish slots' nd' u hb hulen hvalid hentry (by omega) ?_⟩
    · rw [if_pos ((isslotempty_iff hs hnlt).2 hempty), hs.length_slots, hsweep]
      rfl
    · rw [hs.ndel]
      omega
  · have htombs := tombs_set t hi .tomb
    rw [ha] at htombs
    simp only [Slot.isTomb, Bool.false_eq_true, if_false, Nat.add_zero, if_true] at htombs
    refine ⟨_, t.set i .tomb, ?_, hfinish (h.slots.set i 0x7f) 1 (t.set i .tomb) (hs.bytes.set hi rfl)
      List.length_set (hs.valid.set_tomb hi) (fun j => ?_) (by omega) ?_⟩
    · rw [if_neg (mt (isslotempty_iff hs hnlt).1 hempty)]
      rfl
    · rw [slot_set _ hi]
      split <;> rfl
    · rw [hs.ndel]
      omega

end Joolia.Hashtable
