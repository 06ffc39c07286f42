import Joolia.Base.Dict.Rehash

namespace Joolia.Hashtable

open Probing

variable {K V : Type} [Key K]

-- At most two thirds of the slots are used or deleted.
def Low (t : List (Slot (K × V))) : Prop := 3 * ((entries t).length + tombs t) ≤ 2 * t.length

-- The bindings other than that of `key`.
def without (key : K) (l : List (K × V)) : List (K × V) := l.filter fun b => !Key.isequal key b.1

theorem without_of_absent {key : K} {t : List (Slot (K × V))} (h : Absent key t) :
    without key (entries t) = entries t := by
  rw [without, List.filter_eq_self]
  intro b hb
  obtain ⟨i, hi⟩ := mem_entries.1 hb
  have hm := h i
  rw [hi] at hm
  rw [show Key.isequal key b.1 = false from hm]
  rfl

theorem Stored.unmatched_of_ne [LawfulKey K] {h : Dict K V} {t : List (Slot (K × V))} (hs : Stored h t)
    {key : K} {i : ℕ} (hm : slotMatches key (slot t i) = true) {j : ℕ} {b : K × V} (hne : j ≠ i)
    (hb : slot t j = .full b) : Key.isequal key b.1 = false ∧ Key.isequal b.1 key = false := by
  obtain ⟨a, ha, heq⟩ := slotMatches_iff.1 hm
  have hno : ¬Key.isequal key b.1 = true := fun hkb =>
    hne (hs.distinct j i b a hb ha (LawfulKey.trans (LawfulKey.symm hkb) heq))
  refine ⟨Bool.eq_false_iff.2 hno, Bool.eq_false_iff.2 fun hbk => hno (LawfulKey.symm hbk)⟩

-- Removing the binding of a stored key.
theorem without_of_matches [LawfulKey K] {h : Dict K V} {t : List (Slot (K × V))} (hs : Stored h t)
    {key : K} {i : ℕ} (hm : slotMatches key (slot t i) = true) :
    (without key (entries t)).Perm (entries (t.set i .tomb)) := by
  obtain ⟨a, ha, heq⟩ := slotMatches_iff.1 hm
  have hi : i < t.length := lt_length_of_slot (by rw [ha]; simp)
  have hperm : (a :: entries (t.set i .tomb)).Perm (entries t) := by
    have hset := entries_set t hi .tomb
    rw [ha] at hset
    exact hset
  have hrest : without key (entries (t.set i .tomb)) = entries (t.set i .tomb) := by
    rw [without, List.filter_eq_self]
    intro b hb
    obtain ⟨j, hj⟩ := mem_entries.1 hb
    rw [slot_set _ hi] at hj
    split at hj
    · cases hj
    · rw [(hs.unmatched_of_ne hm ‹_› hj).1]
      rfl
  refine (hperm.filter _).symm.trans ?_
  rw [List.filter_cons_of_neg (by simp [heq])]
  exact List.Perm.of_eq hrest

-- What a search for insertion returns.
def Found (h : Dict K V) (t : List (Slot (K × V))) (key : K) (r : ℤ) : Prop :=
  (∃ i : ℕ, r = i ∧ slotMatches key (slot t i) = true) ∨
    ∃ p : ℕ, r = -(p + 1 : ℤ) ∧ FreeSlot t key h.maxprobe p

theorem Inv.setMaxprobe {h : Dict K V} {t : List (Slot (K × V))} (hinv : Inv h t) {b : ℕ}
    (hb : h.maxprobe ≤ b) (hlt : b < t.length) : Inv { h with maxprobe := b } t :=
  ⟨⟨hinv.length_slots, hinv.length_keys, hinv.length_vals, hinv.size,
    fun i hi => (hinv.cell i hi).congr rfl rfl rfl, hinv.count, hinv.ndel, hinv.floor,
    hinv.valid.mono hb, hinv.distinct, .inr hlt⟩, hinv.load⟩

-- The first insertion allocates the table.
theorem htKeyindex2_of_empty [LawfulKey K] {h : Dict K V} {t : List (Slot (K × V))} (hinv : Inv h t)
    (key : K) (hz : t.length = 0) (fuel : ℕ) :
    ∃ h' u r, htKeyindex2Shorthash (fuel + 1) h key = some (h', r, shorthash7 (Key.hash key)) ∧
      Inv h' u ∧ (entries u).Perm (entries t) ∧ Low u ∧ Found h' u key r := by
  have hnil : t = [] := List.eq_nil_of_length_eq_zero hz
  have hcount := hinv.count
  rw [hnil] at hcount
  obtain ⟨h', u, hre, hinv', hperm, htombs, hulen⟩ := rehash_spec hinv.toStored (x := 4)
    (by rw [hcount]; exact Int.ofNat_lt.2 (show 0 < 16 by omega))
  have hulen16 : u.length = 16 := hulen
  have hentries : entries u = [] := by
    rw [hnil] at hperm
    exact hperm.eq_nil
  have hnone : ∀ i a, slot u i ≠ .full a := by
    intro i a ha
    have := mem_entries.2 ⟨i, ha⟩
    rw [hentries] at this
    cases this
  have habsent : Absent key u := by
    intro i
    cases hslot : slot u i with
    | full a => exact (hnone i a hslot).elim
    | empty => rfl
    | tomb => rfl
  refine ⟨h', u, -(keyHome u.length key + 1 : ℤ), ?_, hinv', hperm, ?_,
    .inr ⟨_, rfl, Nat.mod_lt _ (by omega), hnone _, ⟨0, Nat.zero_le _, ?_, by omega⟩, habsent⟩⟩
  · simp only [htKeyindex2Shorthash, hinv.length_keys, hz, if_true]
    rw [hre]
    simp only [Option.bind_eq_bind, Option.bind_some, hashindex_eq hinv'.toStored key (by omega)]
  · rw [Low, hentries, htombs, hulen16, List.length_nil]
    omega
  · rw [probe, Nat.add_zero, keyHome, Nat.mod_mod]

-- One call on an allocated table: it finds the key or a place for it, or all of the
-- first `maxallowed` slots are filled and it starts again after a rehash.
theorem htKeyindex2_call [LawfulKey K] {h : Dict K V} {t : List (Slot (K × V))} (hinv : Inv h t)
    (key : K) (hn : 0 < t.length) (fuel : ℕ) :
    (∃ h' r, htKeyindex2Shorthash (fuel + 1) h key = some (h', r, shorthash7 (Key.hash key)) ∧
      Inv h' t ∧ Found h' t key r) ∨
    max 16 (t.length / 64) ≤ (entries t).length ∧ htKeyindex2Shorthash (fuel + 1) h key =
      (rehash h (if h.count > 64000 then t.length * 2 else t.length * 4)).bind
        fun h => htKeyindex2Shorthash fuel h key := by
  have hs := hinv.toStored
  have hzero : keyHome t.length key = probe t.length (keyHome t.length key) 0 := by
    rw [probe, Nat.add_zero, keyHome, Nat.mod_mod]
  have hhome : keyHome t.length key < t.length := Nat.mod_lt _ hn
  obtain ⟨scan, hscan, hres⟩ := scanLoop_spec hs hn h.maxprobe (by omega)
    (Scanned.zero t key)
  rw [← hzero] at hscan
  have hkeys : ¬h.keys.length = 0 := by rw [hs.length_keys]; omega
  simp only [htKeyindex2Shorthash, if_neg hkeys, hashindex_eq hs key hn]
  rw [hscan]
  simp only [Option.bind_some]
  cases scan with
  | done r => exact .inl ⟨h, r, rfl, hinv, hres⟩
  | exhausted avail index =>
      obtain ⟨hscanned, rfl⟩ := hres
      have habsent := absent_of_scanned hs key hscanned.unmatched (.inl (Nat.lt_succ_self _))
      by_cases havail : avail < 0
      · simp only [if_pos havail]
        exact .inl ⟨h, avail, rfl, hinv, .inr (hscanned.freeSlot hn (Nat.le_refl _) habsent (by omega))⟩
      · simp only [if_neg havail]
        obtain ⟨hz, hfull⟩ : avail = 0 ∧ ∀ j', j' < h.maxprobe + 1 →
            ∃ a, slot t (probe t.length (keyHome t.length key) j') = .full a := by
          obtain hall | ⟨jp, -, heq, -⟩ := hscanned.avail
          · exact hall
          · omega
        have hcap : max maxallowedprobe (h.keys.length >>> maxprobeshift) = max 16 (t.length / 64) := by
          rw [hs.length_keys, Nat.shiftRight_eq_div_pow]
          rfl
        rw [hcap]
        have hload : (entries t).length + tombs t < t.length := hinv.load.resolve_left (by omega)
        obtain ⟨hnone, hall⟩ | ⟨j, hj, hjlt, hsome, hfree, hpath⟩ :=
          freeLoop_spec hs hn (max 16 (t.length / 64) - (h.maxprobe + 1)) hfull
        · rw [hnone]
          have h16 : 16 ≤ t.length := by
            obtain hz | ⟨h16, -⟩ := hs.size
            · omega
            · exact h16
          refine .inr ⟨le_length_entries t hhome (by omega) fun j hj => hall j (by omega), ?_⟩
          simp only [hs.length_keys]
          rfl
        · rw [hsome]
          have hjlen : j < t.length := by
            by_contra hge
            have := le_length_entries t hhome (Nat.le_refl _) fun j' hj' => hpath j' (by omega)
            omega
          refine .inl ⟨_, _, rfl, hinv.setMaxprobe (by omega) hjlen, .inr ⟨_, rfl, probe_lt hn _ _, hfree,
            ⟨j, Nat.le_refl j, rfl, fun j' hj' => ?_⟩, habsent⟩⟩
          obtain ⟨a, ha⟩ := hpath j' hj'
          rw [ha]
          simp

-- Every further call works on a table at least twice as large, so the calls end.
theorem htKeyindex2_spec [LawfulKey K] {h : Dict K V} {t : List (Slot (K × V))} (hinv : Inv h t)
    (key : K) (fuel : ℕ) (hfuel : t.length = 0 ∨ 64 * ((entries t).length + 1) ≤ t.length * 2 ^ fuel) :
    ∃ h' u r, htKeyindex2Shorthash (fuel + 1) h key = some (h', r, shorthash7 (Key.hash key)) ∧
      Inv h' u ∧ (entries u).Perm (entries t) ∧ (Low t → Low u) ∧ Found h' u key r := by
  induction fuel generalizing h t with
  | zero =>
      by_cases hz : t.length = 0
      · obtain ⟨h', u, r, hcall, hinv', hperm, hlow, hfound⟩ := htKeyindex2_of_empty hinv key hz 0
        exact ⟨h', u, r, hcall, hinv', hperm, fun _ => hlow, hfound⟩
      · obtain ⟨h', r, hcall, hinv', hfound⟩ | ⟨hfull, -⟩ := htKeyindex2_call hinv key (by omega) 0
        · exact ⟨h', t, r, hcall, hinv', .refl _, id, hfound⟩
        · omega
  | succ fuel ih =>
      by_cases hz : t.length = 0
      · obtain ⟨h', u, r, hcall, hinv', hperm, hlow, hfound⟩ := htKeyindex2_of_empty hinv key hz (fuel + 1)
        exact ⟨h', u, r, hcall, hinv', hperm, fun _ => hlow, hfound⟩
      · obtain ⟨h', r, hcall, hinv', hfound⟩ | ⟨hfull, hcall⟩ :=
          htKeyindex2_call hinv key (by omega) (fuel + 1)
        · exact ⟨h', t, r, hcall, hinv', .refl _, id, hfound⟩
        · have hload := hinv.load.resolve_left hz
          have hcount := hinv.count
          obtain ⟨x, hx⟩ : ∃ x : ℤ, (if h.count > 64000 then (t.length : ℤ) * 2 else t.length * 4) = x :=
            ⟨_, rfl⟩
          have hxge : (t.length : ℤ) * 2 ≤ x := by
            rw [← hx]
            split <;> omega
          have hsz := (tablesz_spec x).1
          rw [hx] at hcall
          obtain ⟨h1, u, hre, hinv1, hperm, htombs, hulen⟩ := rehash_spec hinv.toStored (x := x) (by omega)
          have hlen := hperm.length_eq
          have hgrow : 64 * ((entries u).length + 1) ≤ u.length * 2 ^ fuel := by
            have hle : t.length * 2 ≤ u.length := by omega
            have hmul := Nat.mul_le_mul_right (2 ^ fuel) hle
            have hleft := hfuel.resolve_left hz
            rw [Nat.pow_succ, Nat.mul_comm (2 ^ fuel), ← Nat.mul_assoc] at hleft
            omega
          obtain ⟨h', w, r, hrec, hinv', hperm', hlow, hfound⟩ := ih hinv1 (.inr hgrow)
          refine ⟨h', w, r, ?_, hinv', hperm'.trans hperm, fun _ => hlow ?_, hfound⟩
          · rw [hcall, hre]
            exact hrec
          · rw [Low]
            omega

theorem calls_spec [LawfulKey K] {h : Dict K V} {t : List (Slot (K × V))} (hinv : Inv h t) (key : K) :
    ∃ h' u r, htKeyindex2Shorthash (calls h) h key = some (h', r, shorthash7 (Key.hash key)) ∧
      Inv h' u ∧ (entries u).Perm (entries t) ∧ (Low t → Low u) ∧ Found h' u key r := by
  apply htKeyindex2_spec hinv key
  obtain hz | ⟨h16, -⟩ := hinv.size
  · exact .inl hz
  · right
    have hcount := hinv.count
    have hpow : (entries t).length < 2 ^ (entries t).length := Nat.lt_two_pow_self
    rw [show h.count.toNat + 7 = (entries t).length + 7 by omega, Nat.pow_add]
    have := Nat.mul_le_mul_right (2 ^ (entries t).length * 2 ^ 7) h16
    omega

theorem FreeSlot.entries_set {t : List (Slot (K × V))} {key : K} {bound p : ℕ} (hfree : FreeSlot t key bound p)
    (a : K × V) : (entries (t.set p (.full a))).Perm (a :: entries t) := by
  have hset := Probing.entries_set t hfree.lt (.full a)
  have hnone : (slot t p).value? = none := by
    cases hslot : slot t p with
    | full b => exact (hfree.not_full b hslot).elim
    | empty => rfl
    | tomb => rfl
  rw [hnone] at hset
  exact hset

theorem writeSlot_spec [LawfulKey K] {h : Dict K V} {t : List (Slot (K × V))} (hs : Stored h t) {key : K}
    {p : ℕ} (hfree : FreeSlot t key h.maxprobe p) (v : V) :
    Stored (writeSlot h v key p (shorthash7 (Key.hash key))) (t.set p (.full (key, v))) := by
  have hp := hfree.lt
  refine hs.fill hp (Nat.le_refl _) (hs.maxprobe.resolve_left (by omega)) hfree.placed
    (fun i b hne hb => ?_) rfl rfl rfl ?_ ?_ ?_
  · have hm : Key.isequal key b.1 = false := by
      have := hfree.absent i
      rwa [hb] at this
    refine ⟨hm, Bool.eq_false_iff.2 fun hbk => ?_⟩
    rw [LawfulKey.symm hbk] at hm
    cases hm
  · change h.count + 1 = _
    rw [hs.count, (hfree.entries_set (key, v)).length_eq]
    rfl
  · change h.ndel - _ = _
    have htombs := tombs_set t hp (.full (key, v))
    rw [hs.ndel]
    cases hslot : slot t p with
    | full a => exact (hfree.not_full a hslot).elim
    | empty =>
        rw [hslot] at htombs
        rw [if_neg (by rw [isslotmissing_iff hs hp, hslot]; simp)]
        simp only [Slot.isTomb, Bool.false_eq_true, if_false] at htombs
        omega
    | tomb =>
        rw [hslot] at htombs
        rw [if_pos ((isslotmissing_iff hs hp).2 hslot)]
        simp only [Slot.isTomb, if_true, Bool.false_eq_true, if_false] at htombs
        omega
  · change (if p < h.idxfloor then p else h.idxfloor) ≤ p ∧ (if p < h.idxfloor then p else h.idxfloor) ≤ h.idxfloor
    split <;> omega

-- `_setindex!` adds a binding; if the table is then too full, it is rehashed.
theorem setindexAt_spec [LawfulKey K] {h : Dict K V} {t : List (Slot (K × V))} (hs : Stored h t) {key : K}
    {p : ℕ} (hfree : FreeSlot t key h.maxprobe p) (v : V) :
    ∃ h' u, setindexAt h v key p (shorthash7 (Key.hash key)) = some h' ∧ Inv h' u ∧
      (entries u).Perm ((key, v) :: entries t) ∧ Low u := by
  have hperm := hfree.entries_set (key, v)
  have hw := writeSlot_spec hs hfree v
  have hlen : (t.set p (.full (key, v))).length = t.length := List.length_set
  have hp := hfree.lt
  have hcount := hw.count
  have hndel := hw.ndel
  have hpos : 0 < (entries (t.set p (.full (key, v)))).length := by
    rw [hperm.length_eq]
    exact Nat.succ_pos _
  simp only [setindexAt, hw.length_keys, hlen]
  generalize writeSlot h v key p (shorthash7 (Key.hash key)) = hf at *
  by_cases hbig : (hf.count + hf.ndel) * 3 > t.length * 2
  · rw [if_pos hbig]
    obtain ⟨x, hx⟩ : ∃ x : ℤ, (if hf.count > 64000 then hf.count * 2 else max (hf.count * 4) 4) = x :=
      ⟨_, rfl⟩
    have hxge : hf.count * 2 ≤ x := by
      rw [← hx]
      split <;> omega
    have hsz := (tablesz_spec x).1
    rw [hx]
    obtain ⟨h', u, hre, hinv', hperm', htombs', hulen⟩ := rehash_spec hw (x := x) (by omega)
    have hlen' := hperm'.length_eq
    refine ⟨h', u, hre, hinv', hperm'.trans hperm, ?_⟩
    rw [Low]
    omega
  · rw [if_neg hbig]
    refine ⟨hf, _, rfl, ⟨hw, .inr ?_⟩, hperm, ?_⟩
    · rw [hlen]
      omega
    · rw [Low, hlen]
      omega

-- Overwriting the binding of a key that the table has.
theorem overwrite_spec [LawfulKey K] {h : Dict K V} {t : List (Slot (K × V))} (hinv : Inv h t) {key : K}
    {i : ℕ} (hm : slotMatches key (slot t i) = true) (v : V) :
    Inv { h with age := h.age + 1, keys := h.keys.set i (some key), vals := h.vals.set i (some v) }
      (t.set i (.full (key, v))) ∧
    (entries (t.set i (.full (key, v)))).Perm ((key, v) :: without key (entries t)) ∧
    tombs (t.set i (.full (key, v))) = tombs t := by
  have hs := hinv.toStored
  obtain ⟨a, ha, heq⟩ := slotMatches_iff.1 hm
  have hi : i < t.length := lt_length_of_slot (by rw [ha]; simp)
  have hhash := LawfulKey.hash_eq heq
  have hcell := hs.cell i hi
  rw [ha] at hcell
  have htombs := tombs_set t hi (.full (key, v))
  rw [ha] at htombs
  have hset := Probing.entries_set t hi (.full (key, v))
  rw [ha] at hset
  have hlen := hset.length_eq
  have hperm : (entries (t.set i (.full (key, v)))).Perm ((key, v) :: without key (entries t)) := by
    have htomb := Probing.entries_set (t.set i .tomb) (i := i) (by simpa using hi) (.full (key, v))
    rw [slot_set _ hi, if_pos rfl, List.set_set] at htomb
    exact htomb.trans ((without_of_matches hs hm).symm.cons _)
  simp only [Slot.isTomb, Bool.false_eq_true, if_false, Nat.add_zero] at htombs
  simp only [Slot.value?, Option.toList_some, List.singleton_append, List.length_cons] at hlen
  refine ⟨⟨hs.fill hi (Nat.le_refl _) (hs.maxprobe.resolve_left (by omega)) ?_
    (fun j b hne hb => hs.unmatched_of_ne hm hne hb) ?_ rfl rfl ?_ ?_
    ⟨hs.floor i a ha, Nat.le_refl _⟩, ?_⟩, hperm, htombs⟩
  · have hplaced := hs.valid i a ha
    rwa [home, ← hhash] at hplaced
  · change h.slots = h.slots.set i (shorthash7 (Key.hash key))
    rw [hhash, ← hcell.1, slotAt, List.getD, List.getElem?_eq_getElem (by rw [hs.length_slots]; exact hi),
      Option.getD_some, List.set_getElem_self]
  · change h.count = _
    rw [hs.count]
    omega
  · change h.ndel = _
    rw [hs.ndel, htombs]
  · have := hinv.load
    rw [List.length_set]
    omega

theorem store_spec [LawfulKey K] {h : Dict K V} {t : List (Slot (K × V))} (hinv : Inv h t) {key : K} {r : ℤ}
    (hfound : Found h t key r) (v : V) :
    ∃ h' u, store h v key r (shorthash7 (Key.hash key)) = some h' ∧ Inv h' u ∧
      (entries u).Perm ((key, v) :: without key (entries t)) ∧ (Low t → Low u) := by
  obtain ⟨i, rfl, hm⟩ | ⟨p, rfl, hfree⟩ := hfound
  · obtain ⟨hinv', hperm, htombs⟩ := overwrite_spec hinv hm v
    refine ⟨_, _, by rw [store, if_pos (by omega)]; rfl, hinv', hperm, fun hlow => ?_⟩
    have hcount := hinv'.count
    have hcount' := hinv.count
    rw [Low, List.length_set, htombs] at *
    change h.count = _ at hcount
    omega
  · obtain ⟨h', u, hset, hinv', hperm, hlow⟩ := setindexAt_spec hinv.toStored hfree v
    refine ⟨h', u, ?_, hinv', by rwa [without_of_absent hfree.absent], fun _ => hlow⟩
    rw [store, if_neg (by omega), show (-(-(p + 1 : ℤ)) - 1).toNat = p by omega]
    exact hset

theorem setindex_spec [LawfulKey K] {h : Dict K V} {t : List (Slot (K × V))} (hinv : Inv h t) (v : V) (key : K) :
    ∃ h' u, setindex h v key = some h' ∧ Inv h' u ∧
      (entries u).Perm ((key, v) :: without key (entries t)) ∧ (Low t → Low u) := by
  obtain ⟨h1, w, r, hcall, hinv1, hperm1, hlow1, hfound⟩ := calls_spec hinv key
  obtain ⟨h', u, hstore, hinv', hperm, hlow⟩ := store_spec hinv1 hfound v
  refine ⟨h', u, ?_, hinv', hperm.trans ((hperm1.filter _).cons _), fun h => hlow (hlow1 h)⟩
  rw [setindex, hcall]
  exact hstore

-- `get!` with a constant default: the bound value, or the default, which it stores.
theorem getOrStore_spec [LawfulKey K] {h : Dict K V} {t : List (Slot (K × V))} (hinv : Inv h t) (key : K) (v : V) :
    ∃ h' u w, getOrStore h key (fun h => some (h, v)) = some (h', w) ∧ Inv h' u ∧ (Low t → Low u) ∧
      ((∃ k, (k, w) ∈ entries t ∧ Key.isequal key k = true ∧ (entries u).Perm (entries t)) ∨
        (∀ b ∈ entries t, Key.isequal key b.1 = false) ∧ w = v ∧ (entries u).Perm ((key, v) :: entries t)) := by
  obtain ⟨h1, u1, r, hcall, hinv1, hperm1, hlow1, hfound⟩ := calls_spec hinv key
  rw [getOrStore, hcall]
  simp only [Option.bind_some]
  obtain ⟨i, rfl, hm⟩ | ⟨p, rfl, hfree⟩ := id hfound
  · obtain ⟨a, ha, heq⟩ := slotMatches_iff.1 hm
    have hcell := hinv1.cell i (lt_length_of_slot (by rw [ha]; simp))
    rw [ha] at hcell
    have hmem : a ∈ entries t := hperm1.mem_iff.1 (mem_entries.2 ⟨i, ha⟩)
    refine ⟨h1, u1, a.2, ?_, hinv1, hlow1, .inl ⟨a.1, hmem, heq, hperm1⟩⟩
    rw [if_pos (by omega), Int.toNat_natCast, hcell.2.2]
    rfl
  · obtain ⟨h', u, hstore, hinv', hperm, hlow⟩ := store_spec hinv1 hfound v
    rw [without_of_absent hfree.absent] at hperm
    refine ⟨h', u, v, ?_, hinv', fun h => hlow (hlow1 h), .inr ⟨fun b hb => ?_, rfl, hperm.trans (hperm1.cons _)⟩⟩
    · rw [if_neg (by omega), if_neg (by simp)]
      simp only [Option.bind_some]
      rw [hstore]
      rfl
    · obtain ⟨i, hi⟩ := mem_entries.1 (hperm1.mem_iff.2 hb)
      have := hfree.absent i
      rwa [hi] at this

end Joolia.Hashtable
