import Joolia.Base.Dict.Table

namespace Joolia.Hashtable

open Probing

variable {K V : Type} [Key K]

-- The home slot of a key.
def keyHome (n : ℕ) (key : K) : ℕ := (Key.hash key).toNat % n

-- Whether a slot holds a key equal to `key`.
def slotMatches (key : K) (s : Slot (K × V)) : Bool :=
  match s with
  | .full a => Key.isequal key a.1
  | _ => false

def Absent (key : K) (t : List (Slot (K × V))) : Prop := ∀ i, slotMatches key (slot t i) = false

theorem slotMatches_iff {key : K} {s : Slot (K × V)} :
    slotMatches key s = true ↔ ∃ a, s = .full a ∧ Key.isequal key a.1 = true := by
  cases s <;> simp [slotMatches]

theorem scanned_succ {p : ℕ → Bool} {j : ℕ} (hscan : ∀ j', j' < j → p j' = false)
    (hj : p j = false) : ∀ j', j' < j + 1 → p j' = false := by
  intro j' hj'
  by_cases heq : j' = j
  · rw [heq, hj]
  · exact hscan j' (by omega)

section Loops

variable {h : Dict K V} {t : List (Slot (K × V))} (hs : Stored h t) (key : K)
include hs

theorem hashindex_eq (hn : 0 < t.length) :
    hashindex key h.keys.length = (keyHome t.length key, shorthash7 (Key.hash key)) := by
  obtain hz | ⟨-, m, hm⟩ := hs.size
  · omega
  · simp only [hashindex, keyHome, hs.length_keys, hm, maskNat_two_pow]

theorem maskNat_probe (hn : 0 < t.length) (home j : ℕ) :
    maskNat (probe t.length home j + 1) h.keys.length = probe t.length home (j + 1) := by
  obtain hz | ⟨-, m, hm⟩ := hs.size
  · omega
  · rw [hs.length_keys, ← probe_succ, hm, maskNat_two_pow]

variable [LawfulKey K]

theorem matchesAt_eq {i : ℕ} (hi : i < t.length) :
    matchesAt h key (shorthash7 (Key.hash key)) i = some (slotMatches key (slot t i)) := by
  have hc := hs.cell i hi
  unfold matchesAt
  cases hslot : slot t i with
  | empty =>
      rw [hslot] at hc
      rw [show slotAt h.slots i = 0x00 from hc, if_neg (shorthash7_ne_zero _)]
      rfl
  | tomb =>
      rw [hslot] at hc
      rw [show slotAt h.slots i = 0x7f from hc, if_neg (shorthash7_ne_missing _)]
      rfl
  | full a =>
      rw [hslot] at hc
      obtain ⟨hbyte, hkey, -⟩ := hc
      rw [hbyte, hkey]
      have hegal : (Key.egal key a.1 || Key.isequal key a.1) = Key.isequal key a.1 := by
        cases he : Key.egal key a.1 with
        | true => rw [LawfulKey.isequal_of_egal he]; rfl
        | false => rfl
      by_cases hsh : shorthash7 (Key.hash key) = shorthash7 (Key.hash a.1)
      · rw [if_pos hsh]
        simp [hegal, slotMatches]
      · rw [if_neg hsh]
        cases heq : Key.isequal key a.1 with
        | true => exact (hsh (by rw [LawfulKey.hash_eq heq])).elim
        | false => simp [slotMatches, heq]

-- A key not met before a never-used slot, or within `maxprobe`, is not in the table.
theorem absent_of_scanned {j : ℕ}
    (hscan : ∀ j', j' < j → slotMatches key (slot t (probe t.length (keyHome t.length key) j')) = false)
    (hend : h.maxprobe < j ∨ slot t (probe t.length (keyHome t.length key) j) = .empty) :
    Absent key t := by
  intro i
  rw [Bool.eq_false_iff]
  intro hmatch
  obtain ⟨a, ha, heq⟩ := slotMatches_iff.1 hmatch
  obtain ⟨j', hj', hi, hpath⟩ := hs.valid i a ha
  have hhome : home t.length a = keyHome t.length key := by
    rw [home, keyHome, LawfulKey.hash_eq heq]
  rw [hhome] at hi hpath
  have hge : j ≤ j' := by
    by_contra hlt
    rw [hi, hscan j' (by omega)] at hmatch
    cases hmatch
  rcases hend with hmax | hempty
  · omega
  · by_cases hlt : j < j'
    · exact hpath j hlt hempty
    · obtain rfl : j = j' := by omega
      rw [hi, hempty] at ha
      cases ha

-- `ht_keyindex` returns the slot of the key, or -1 exactly when the key is absent.
theorem keyindexLoop_spec (hn : 0 < t.length) (rest j : ℕ) (hrest : j + rest = h.maxprobe)
    (hscan : ∀ j', j' < j →
      slotMatches key (slot t (probe t.length (keyHome t.length key) j')) = false) :
    ∃ r, keyindexLoop h key (shorthash7 (Key.hash key)) rest
        (probe t.length (keyHome t.length key) j) = some r ∧
      ((∃ i : ℕ, r = i ∧ slotMatches key (slot t i) = true) ∨ (r = -1 ∧ Absent key t)) := by
  have hidx : ∀ j, probe t.length (keyHome t.length key) j < t.length := probe_lt hn _
  induction rest using Nat.strong_induction_on generalizing j with
  | h rest ih =>
      unfold keyindexLoop
      by_cases hempty : slot t (probe t.length (keyHome t.length key) j) = .empty
      · rw [if_pos ((isslotempty_iff hs (hidx j)).2 hempty)]
        exact ⟨-1, rfl, .inr ⟨rfl, absent_of_scanned hs key hscan (.inr hempty)⟩⟩
      · rw [if_neg (mt (isslotempty_iff hs (hidx j)).1 hempty), matchesAt_eq hs key (hidx j)]
        cases hm : slotMatches key (slot t (probe t.length (keyHome t.length key) j)) with
        | true => exact ⟨_, rfl, .inl ⟨_, rfl, hm⟩⟩
        | false =>
            simp only [Option.bind_some, Bool.false_eq_true, if_false]
            have hnext := scanned_succ hscan hm
            cases rest with
            | zero => exact ⟨-1, rfl, .inr ⟨rfl, absent_of_scanned hs key hnext (.inl (by omega))⟩⟩
            | succ rest =>
                simp only [maskNat_probe hs hn]
                exact ih rest (by omega) (j + 1) (by omega) hnext

theorem htKeyindex_spec : ∃ r, htKeyindex h key = some r ∧
    ((∃ i : ℕ, r = i ∧ slotMatches key (slot t i) = true) ∨ (r = -1 ∧ Absent key t)) := by
  unfold htKeyindex
  by_cases hz : h.count = 0
  · rw [if_pos hz]
    refine ⟨-1, rfl, .inr ⟨rfl, fun i => ?_⟩⟩
    rw [Bool.eq_false_iff]
    intro hm
    obtain ⟨a, ha, -⟩ := slotMatches_iff.1 hm
    have hmem : a ∈ entries t := mem_entries.2 ⟨i, ha⟩
    have hcount := hs.count
    rw [hz] at hcount
    rw [List.eq_nil_of_length_eq_zero (by omega : (entries t).length = 0)] at hmem
    cases hmem
  · rw [if_neg hz]
    have hn : 0 < t.length := by
      have hlen := length_eq t
      have hcount := hs.count
      omega
    have hmax : h.maxprobe < h.keys.length := by
      rw [hs.length_keys]
      exact hs.maxprobe.resolve_left (by omega)
    rw [if_neg (not_not.2 hmax), hashindex_eq hs key hn]
    have hzero : keyHome t.length key = probe t.length (keyHome t.length key) 0 := by
      rw [probe, Nat.add_zero, keyHome, Nat.mod_mod]
    simp only
    rw [hzero]
    have hloop := keyindexLoop_spec hs key hn h.maxprobe 0 (by omega) (by omega)
    rwa [← hzero] at hloop ⊢

end Loops

-- A place where `key` can be stored: not filled, and found by every later search.
structure FreeSlot (t : List (Slot (K × V))) (key : K) (bound p : ℕ) : Prop where
  lt : p < t.length
  not_full : ∀ a, slot t p ≠ .full a
  placed : Placed t (keyHome t.length key) bound p
  absent : Absent key t

-- What the first loop has seen after `j` slots: no key, no never-used slot, and in
-- `avail` the first tomb, if any.
structure Scanned (t : List (Slot (K × V))) (key : K) (j : ℕ) (avail : ℤ) : Prop where
  unmatched : ∀ j', j' < j → slotMatches key (slot t (probe t.length (keyHome t.length key) j')) = false
  nonempty : ∀ j', j' < j → slot t (probe t.length (keyHome t.length key) j') ≠ .empty
  avail : (avail = 0 ∧ ∀ j', j' < j → ∃ a, slot t (probe t.length (keyHome t.length key) j') = .full a) ∨
    ∃ jp, jp < j ∧ avail = -(probe t.length (keyHome t.length key) jp + 1 : ℤ) ∧
      slot t (probe t.length (keyHome t.length key) jp) = .tomb

section Scan

variable {h : Dict K V} {t : List (Slot (K × V))} (hs : Stored h t) {key : K} {j : ℕ} {avail : ℤ}

theorem Scanned.zero (t : List (Slot (K × V))) (key : K) : Scanned t key 0 0 := by
  refine ⟨by omega, by omega, .inl ⟨rfl, by omega⟩⟩

-- The tomb remembered in `avail` can take the key.
theorem Scanned.freeSlot (hn : 0 < t.length) (hscan : Scanned t key j avail) (hj : j ≤ h.maxprobe + 1)
    (habsent : Absent key t) (havail : avail ≠ 0) :
    ∃ p : ℕ, avail = -(p + 1 : ℤ) ∧ FreeSlot t key h.maxprobe p := by
  obtain ⟨hz, -⟩ | ⟨jp, hjp, heq, htomb⟩ := hscan.avail
  · exact (havail hz).elim
  · refine ⟨_, heq, probe_lt hn _ _, by simp [htomb], ⟨jp, by omega, rfl, fun j' hj' => ?_⟩, habsent⟩
    exact hscan.nonempty j' (by omega)

theorem Scanned.step_tomb (hscan : Scanned t key j avail)
    (htomb : slot t (probe t.length (keyHome t.length key) j) = .tomb) :
    Scanned t key (j + 1)
      (if avail = 0 then -(probe t.length (keyHome t.length key) j + 1 : ℤ) else avail) := by
  refine ⟨scanned_succ hscan.unmatched (by rw [htomb]; rfl), fun j' hj' => ?_, .inr ?_⟩
  · by_cases heq : j' = j
    · rw [heq, htomb]
      simp
    · exact hscan.nonempty j' (by omega)
  · obtain ⟨hz, -⟩ | ⟨jp, hjp, heq, hjt⟩ := hscan.avail
    · exact ⟨j, by omega, by rw [if_pos hz], htomb⟩
    · exact ⟨jp, by omega, by rw [if_neg (by omega), heq], hjt⟩

theorem Scanned.step_full (hscan : Scanned t key j avail) {a : K × V}
    (hfull : slot t (probe t.length (keyHome t.length key) j) = .full a)
    (hm : slotMatches key (slot t (probe t.length (keyHome t.length key) j)) = false) :
    Scanned t key (j + 1) avail := by
  refine ⟨scanned_succ hscan.unmatched hm, fun j' hj' => ?_, ?_⟩
  · by_cases heq : j' = j
    · rw [heq, hfull]
      simp
    · exact hscan.nonempty j' (by omega)
  · obtain ⟨hz, hall⟩ | ⟨jp, hjp, heq, hjt⟩ := hscan.avail
    · refine .inl ⟨hz, fun j' hj' => ?_⟩
      by_cases heq : j' = j
      · exact ⟨a, by rw [heq, hfull]⟩
      · exact hall j' (by omega)
    · exact .inr ⟨jp, by omega, heq, hjt⟩

-- How the first loop ends.
def ScanResult (h : Dict K V) (t : List (Slot (K × V))) (key : K) (scan : Scan) : Prop :=
  match scan with
  | .done r => (∃ i : ℕ, r = i ∧ slotMatches key (slot t i) = true) ∨
      ∃ p : ℕ, r = -(p + 1 : ℤ) ∧ FreeSlot t key h.maxprobe p
  | .exhausted avail index => Scanned t key (h.maxprobe + 1) avail ∧
      index = probe t.length (keyHome t.length key) (h.maxprobe + 1)

include hs

theorem scanLoop_spec [LawfulKey K] (hn : 0 < t.length) (rest : ℕ) (hrest : j + rest = h.maxprobe)
    (hscan : Scanned t key j avail) :
    ∃ scan, scanLoop h key (shorthash7 (Key.hash key)) rest
        (probe t.length (keyHome t.length key) j) avail = some scan ∧ ScanResult h t key scan := by
  have hidx : ∀ j, probe t.length (keyHome t.length key) j < t.length := probe_lt hn _
  induction rest using Nat.strong_induction_on generalizing j avail with
  | h rest ih =>
      unfold scanLoop
      cases hslot : slot t (probe t.length (keyHome t.length key) j) with
      | empty =>
          rw [if_pos ((isslotempty_iff hs (hidx j)).2 hslot)]
          have habsent := absent_of_scanned hs key hscan.unmatched (.inr hslot)
          refine ⟨_, rfl, .inr ?_⟩
          by_cases havail : avail = 0
          · refine ⟨_, if_neg (by omega), hidx j, by simp [hslot], ⟨j, by omega, rfl, ?_⟩, habsent⟩
            exact hscan.nonempty
          · obtain ⟨p, hp, hfree⟩ := hscan.freeSlot hn (h := h) (by omega) habsent havail
            exact ⟨p, by rw [if_pos (by omega), hp], hfree⟩
      | tomb =>
          rw [if_neg (mt (isslotempty_iff hs (hidx j)).1 (by simp [hslot])),
            if_pos ((isslotmissing_iff hs (hidx j)).2 hslot)]
          have hnext := hscan.step_tomb hslot
          cases rest with
          | zero =>
              obtain rfl : j = h.maxprobe := by omega
              exact ⟨_, rfl, hnext, maskNat_probe hs hn _ _⟩
          | succ rest =>
              simp only [maskNat_probe hs hn]
              exact ih rest (by omega) (by omega) hnext
      | full a =>
          rw [if_neg (mt (isslotempty_iff hs (hidx j)).1 (by simp [hslot])),
            if_neg (mt (isslotmissing_iff hs (hidx j)).1 (by simp [hslot])),
            matchesAt_eq hs key (hidx j)]
          cases hm : slotMatches key (slot t (probe t.length (keyHome t.length key) j)) with
          | true => exact ⟨_, rfl, .inl ⟨_, rfl, hm⟩⟩
          | false =>
              simp only [Option.bind_some, Bool.false_eq_true, if_false]
              have hnext := hscan.step_full hslot hm
              cases rest with
              | zero =>
                  obtain rfl : j = h.maxprobe := by omega
                  exact ⟨_, rfl, hnext, maskNat_probe hs hn _ _⟩
              | succ rest =>
                  simp only [maskNat_probe hs hn]
                  exact ih rest (by omega) (by omega) hnext

-- The second loop: past `maxprobe`, every passed slot is filled.
theorem freeLoop_spec (hn : 0 < t.length) (rest : ℕ)
    (hfull : ∀ j', j' < j → ∃ a, slot t (probe t.length (keyHome t.length key) j') = .full a) :
    (freeLoop h rest (probe t.length (keyHome t.length key) j) j = none ∧
      ∀ j', j' < j + rest → ∃ a, slot t (probe t.length (keyHome t.length key) j') = .full a) ∨
    ∃ j', j ≤ j' ∧ j' < j + rest ∧
      freeLoop h rest (probe t.length (keyHome t.length key) j) j =
        some (probe t.length (keyHome t.length key) j', j') ∧
      (∀ a, slot t (probe t.length (keyHome t.length key) j') ≠ .full a) ∧
      ∀ i, i < j' → ∃ a, slot t (probe t.length (keyHome t.length key) i) = .full a := by
  induction rest generalizing j with
  | zero => exact .inl ⟨rfl, by simpa using hfull⟩
  | succ rest ih =>
      have hidx : probe t.length (keyHome t.length key) j < t.length := probe_lt hn _ _
      unfold freeLoop
      by_cases hfilled : isslotfilled h (probe t.length (keyHome t.length key) j) = true
      · rw [hfilled]
        simp only [Bool.not_true, Bool.false_eq_true, if_false, maskNat_probe hs hn]
        obtain ⟨a, ha⟩ := (isslotfilled_iff hs hidx).1 hfilled
        have hnext : ∀ j', j' < j + 1 →
            ∃ a, slot t (probe t.length (keyHome t.length key) j') = .full a := by
          intro j' hj'
          by_cases heq : j' = j
          · exact ⟨a, by rw [heq, ha]⟩
          · exact hfull j' (by omega)
        obtain ⟨hnone, hall⟩ | ⟨j', hle, hlt, hrest⟩ := ih hnext
        · exact .inl ⟨hnone, fun j' hj' => hall j' (by omega)⟩
        · exact .inr ⟨j', by omega, by omega, hrest⟩
      · refine .inr ⟨j, Nat.le_refl j, by omega, ?_, fun a ha => ?_, hfull⟩
        · rw [Bool.eq_false_iff.2 hfilled]
          rfl
        · exact hfilled ((isslotfilled_iff hs hidx).2 ⟨a, ha⟩)

end Scan

end Joolia.Hashtable
