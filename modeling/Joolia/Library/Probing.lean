import Mathlib.Data.List.Basic
import Mathlib.Data.List.Count
import Mathlib.Data.List.Perm.Basic
import Mathlib.Data.Nat.Init

namespace Probing

variable {α : Type*}

-- A slot of an open-addressing table: never used, deleted, or holding an entry.
inductive Slot (α : Type*)
  | empty
  | tomb
  | full (a : α)

def Slot.value? (s : Slot α) : Option α :=
  match s with
  | .full a => some a
  | _ => none

def Slot.isTomb (s : Slot α) : Bool :=
  match s with
  | .tomb => true
  | _ => false

def Slot.isEmpty (s : Slot α) : Bool :=
  match s with
  | .empty => true
  | _ => false

theorem Slot.value?_eq_none {s : Slot α} : s.value? = none ↔ ∀ a, s ≠ .full a := by
  cases s <;> simp [Slot.value?]

@[simp] theorem Slot.value?_eq_some {s : Slot α} {a : α} : s.value? = some a ↔ s = .full a := by
  cases s <;> simp [Slot.value?]

def slot (t : List (Slot α)) (i : ℕ) : Slot α := t.getD i .empty

def entries (t : List (Slot α)) : List α := t.filterMap Slot.value?

def tombs (t : List (Slot α)) : ℕ := t.countP Slot.isTomb

-- The slot visited after `j` steps from `home` around the table.
def probe (n home j : ℕ) : ℕ := (home + j) % n

-- Slot `i` is met within `bound` steps from `home`, past no never-used slot.
def Placed (t : List (Slot α)) (home bound i : ℕ) : Prop :=
  ∃ j, j ≤ bound ∧ i = probe t.length home j ∧
    ∀ j', j' < j → slot t (probe t.length home j') ≠ .empty

-- Every entry is placed with respect to its own home slot.
def Valid (home : α → ℕ) (bound : ℕ) (t : List (Slot α)) : Prop :=
  ∀ i a, slot t i = .full a → Placed t (home a) bound i

theorem slot_set (t : List (Slot α)) {i : ℕ} (hi : i < t.length) (s : Slot α) (k : ℕ) :
    slot (t.set i s) k = if k = i then s else slot t k := by
  simp only [slot, List.getD, List.getElem?_set]
  by_cases h : i = k
  · subst h
    simp [hi]
  · simp [h, Ne.symm h]

theorem slot_of_length_le {t : List (Slot α)} {i : ℕ} (h : t.length ≤ i) : slot t i = .empty := by
  simp [slot, List.getD, List.getElem?_eq_none h]

theorem lt_length_of_slot {t : List (Slot α)} {i : ℕ} (h : slot t i ≠ .empty) : i < t.length := by
  by_contra hge
  exact h (slot_of_length_le (by omega))

theorem mem_entries {t : List (Slot α)} {a : α} : a ∈ entries t ↔ ∃ i, slot t i = .full a := by
  simp only [entries, List.mem_filterMap, Slot.value?_eq_some]
  constructor
  · rintro ⟨s, hs, rfl⟩
    obtain ⟨i, hi, heq⟩ := List.getElem_of_mem hs
    exact ⟨i, by simp [slot, List.getD, hi, heq]⟩
  · rintro ⟨i, hi⟩
    have hlt := lt_length_of_slot (t := t) (i := i) (by rw [hi]; simp)
    refine ⟨_, List.getElem_mem hlt, ?_⟩
    simpa [slot, List.getD, hlt] using hi

theorem slot_replicate (n i : ℕ) : slot (List.replicate n (.empty : Slot α)) i = .empty := by
  simp only [slot, List.getD, List.getElem?_replicate]
  split <;> rfl

theorem entries_replicate (n : ℕ) : entries (List.replicate n (.empty : Slot α)) = [] := by
  rw [List.eq_nil_iff_forall_not_mem]
  intro a ha
  obtain ⟨i, hi⟩ := mem_entries.1 ha
  rw [slot_replicate] at hi
  cases hi

theorem tombs_replicate (n : ℕ) : tombs (List.replicate n (.empty : Slot α)) = 0 := by
  rw [tombs, List.countP_replicate]
  rfl

-- Overwriting one slot exchanges its entry.
theorem entries_set (t : List (Slot α)) {i : ℕ} (hi : i < t.length) (s : Slot α) :
    ((slot t i).value?.toList ++ entries (t.set i s)).Perm (s.value?.toList ++ entries t) := by
  have hperm := (List.getD_set_perm_cons t i s).filterMap Slot.value?
  have hget : t[i]?.getD s = slot t i := by simp [slot, List.getD, hi]
  rw [hget, List.filterMap_cons, List.filterMap_cons] at hperm
  cases h1 : (slot t i).value? <;> cases h2 : s.value? <;> simpa [h1, h2, entries] using hperm

theorem entries_take_succ (t : List (Slot α)) {i : ℕ} (hi : i < t.length) :
    entries (t.take (i + 1)) = entries (t.take i) ++ (slot t i).value?.toList := by
  rw [entries, List.take_add_one, List.filterMap_append, slot, List.getD, List.getElem?_eq_getElem hi]
  simp only [Option.toList_some, Option.getD_some, List.filterMap_cons, List.filterMap_nil]
  cases t[i].value? <;> rfl

-- The entries from slot `i` on, in slot order.
def entriesFrom (t : List (Slot α)) (i : ℕ) : List α :=
  (List.range' i (t.length - i)).filterMap fun j => (slot t j).value?

theorem entriesFrom_zero (t : List (Slot α)) : entriesFrom t 0 = entries t := by
  have hget : (List.range' 0 (t.length - 0)).map (slot t) = t := by
    apply List.ext_getElem
    · simp
    · intro i h1 h2
      simp [slot, List.getD, h2]
  have hmap := List.filterMap_map (f := slot t) (g := Slot.value?) (l := List.range' 0 (t.length - 0))
  rw [hget] at hmap
  exact hmap.symm

theorem entriesFrom_of_le {t : List (Slot α)} {i : ℕ} (h : t.length ≤ i) : entriesFrom t i = [] := by
  rw [entriesFrom, Nat.sub_eq_zero_of_le h]
  rfl

theorem entriesFrom_succ {t : List (Slot α)} {i : ℕ} (h : i < t.length) :
    entriesFrom t i = (slot t i).value?.toList ++ entriesFrom t (i + 1) := by
  rw [entriesFrom, show t.length - i = t.length - (i + 1) + 1 by omega, List.range'_succ,
    List.filterMap_cons, entriesFrom]
  cases (slot t i).value? <;> rfl

-- Slots without an entry add nothing.
theorem entriesFrom_skip {t : List (Slot α)} {i j : ℕ} (hij : i ≤ j)
    (h : ∀ k, i ≤ k → k < j → (slot t k).value? = none) : entriesFrom t i = entriesFrom t j := by
  induction j, hij using Nat.le_induction with
  | base => rfl
  | succ j hij ih =>
      rw [ih fun k hik hkj => h k hik (by omega)]
      by_cases hj : j < t.length
      · rw [entriesFrom_succ hj, h j hij (Nat.lt_succ_self j)]
        rfl
      · rw [entriesFrom_of_le (by omega), entriesFrom_of_le (by omega)]

-- The entries are determined slot by slot.
theorem entries_congr {t u : List (Slot α)} (hlen : u.length = t.length)
    (h : ∀ j, (slot u j).value? = (slot t j).value?) : entries u = entries t := by
  rw [← entriesFrom_zero, ← entriesFrom_zero, entriesFrom, entriesFrom, hlen]
  exact List.filterMap_congr fun j _ => h j

theorem entries_filter {t u : List (Slot α)} (p : α → Bool) (hlen : u.length = t.length)
    (h : ∀ j, (slot u j).value? = (slot t j).value?.filter p) : entries u = (entries t).filter p := by
  rw [← entriesFrom_zero, ← entriesFrom_zero, entriesFrom, entriesFrom, hlen, List.filter_filterMap]
  exact List.filterMap_congr fun j _ => h j

theorem tombs_set (t : List (Slot α)) {i : ℕ} (hi : i < t.length) (s : Slot α) :
    tombs (t.set i s) + (if (slot t i).isTomb then 1 else 0) = tombs t + if s.isTomb then 1 else 0 := by
  have hget : t[i] = slot t i := by simp [slot, List.getD, hi]
  have hpos : (slot t i).isTomb = true → 0 < tombs t := by
    intro h
    exact List.countP_pos_iff.2 ⟨t[i], List.getElem_mem hi, by rw [hget, h]⟩
  rw [tombs, List.countP_set hi, hget]
  change _ = tombs t + _
  change tombs t - _ + _ + _ = _
  by_cases h : (slot t i).isTomb = true
  · have := hpos h
    simp only [h, if_true]
    omega
  · simp only [h]
    simp

theorem probe_lt {n : ℕ} (hn : 0 < n) (home j : ℕ) : probe n home j < n := Nat.mod_lt _ hn

theorem probe_succ (n home j : ℕ) : (probe n home j + 1) % n = probe n home (j + 1) := by
  simp [probe, Nat.add_assoc]

-- The probe sequence meets every slot.
theorem exists_probe {n : ℕ} {home i : ℕ} (hhome : home < n) (hi : i < n) :
    ∃ j, j < n ∧ probe n home j = i := by
  by_cases h : home ≤ i
  · exact ⟨i - home, by omega, by rw [probe, Nat.add_sub_cancel' h, Nat.mod_eq_of_lt hi]⟩
  · refine ⟨n - home + i, by omega, ?_⟩
    rw [probe, show home + (n - home + i) = i + n by omega, Nat.add_mod_right, Nat.mod_eq_of_lt hi]

theorem probe_injective {n home j j' : ℕ} (hhome : home < n) (hj : j < n) (hj' : j' < n)
    (h : probe n home j = probe n home j') : j = j' := by
  unfold probe at h
  have hmod := Nat.add_mod home j n
  by_cases h1 : home + j < n <;> by_cases h2 : home + j' < n
  · rw [Nat.mod_eq_of_lt h1, Nat.mod_eq_of_lt h2] at h
    omega
  · rw [Nat.mod_eq_of_lt h1, Nat.mod_eq_sub_mod (by omega), Nat.mod_eq_of_lt (by omega)] at h
    omega
  · rw [Nat.mod_eq_of_lt h2, Nat.mod_eq_sub_mod (by omega), Nat.mod_eq_of_lt (by omega)] at h
    omega
  · rw [Nat.mod_eq_sub_mod (by omega), Nat.mod_eq_of_lt (by omega), Nat.mod_eq_sub_mod (by omega),
      Nat.mod_eq_of_lt (by omega)] at h
    omega

theorem length_eq (t : List (Slot α)) :
    (entries t).length + tombs t + t.countP Slot.isEmpty = t.length := by
  induction t with
  | nil => rfl
  | cons s t ih =>
      simp only [entries, tombs] at ih ⊢
      cases s <;> simp only [List.filterMap_cons, Slot.value?, List.countP_cons, Slot.isTomb,
        Slot.isEmpty, List.length_cons, if_true, Bool.false_eq_true, if_false] <;> omega

-- A table with fewer entries and tombs than slots has a never-used slot, and the probe
-- sequence of any home slot reaches one.
theorem exists_empty_probe {t : List (Slot α)} (h : (entries t).length + tombs t < t.length)
    {home : ℕ} (hhome : home < t.length) :
    ∃ j, j < t.length ∧ slot t (probe t.length home j) = .empty := by
  have hpos : 0 < t.countP Slot.isEmpty := by
    have := length_eq t
    omega
  obtain ⟨s, hs, hempty⟩ := List.countP_pos_iff.1 hpos
  obtain ⟨i, hi, rfl⟩ := List.getElem_of_mem hs
  obtain ⟨j, hj, hji⟩ := exists_probe hhome hi
  refine ⟨j, hj, ?_⟩
  simp only [hji, slot, List.getD, List.getElem?_eq_getElem hi, Option.getD_some]
  cases hslot : t[i] <;> simp [hslot, Slot.isEmpty] at hempty ⊢

theorem length_entries_set_tomb (t : List (Slot α)) {i : ℕ} {a : α} (ha : slot t i = .full a) :
    (entries t).length = (entries (t.set i .tomb)).length + 1 := by
  have hi : i < t.length := lt_length_of_slot (by rw [ha]; simp)
  have hperm := (entries_set t hi .tomb).length_eq
  rw [ha] at hperm
  simp [Slot.value?] at hperm
  omega

-- If the first `m` probed slots all hold entries, there are at least `m` of these.
theorem le_length_entries (t : List (Slot α)) {home m : ℕ} (hhome : home < t.length) (hm : m ≤ t.length)
    (h : ∀ j, j < m → ∃ a, slot t (probe t.length home j) = .full a) : m ≤ (entries t).length := by
  induction m generalizing t with
  | zero => exact Nat.zero_le _
  | succ m ih =>
      obtain ⟨a, ha⟩ := h m (Nat.lt_succ_self m)
      have hlt : probe t.length home m < t.length := probe_lt (by omega) _ _
      have hrest := ih (t.set (probe t.length home m) .tomb) (by rwa [List.length_set])
        (by rw [List.length_set]; omega) ?_
      · rw [length_entries_set_tomb t ha]
        omega
      · intro j hj
        obtain ⟨b, hb⟩ := h j (by omega)
        refine ⟨b, ?_⟩
        rw [List.length_set, slot_set _ hlt, if_neg, hb]
        intro heq
        have := probe_injective hhome (by omega) (by omega) heq
        omega

theorem Placed.set {t : List (Slot α)} {home bound i : ℕ} (h : Placed t home bound i) (k : ℕ)
    {s : Slot α} (hs : s ≠ .empty) : Placed (t.set k s) home bound i := by
  obtain ⟨j, hj, rfl, hpath⟩ := h
  refine ⟨j, hj, by rw [List.length_set], fun j' hj' => ?_⟩
  rw [List.length_set]
  have hne := hpath j' hj'
  by_cases hk : k < t.length
  · rw [slot_set _ hk]
    split
    · exact hs
    · exact hne
  · rw [List.set_eq_of_length_le (by omega)]
    exact hne

theorem Placed.mono {t : List (Slot α)} {home bound bound' i : ℕ} (h : Placed t home bound i)
    (hb : bound ≤ bound') : Placed t home bound' i := by
  obtain ⟨j, hj, hpath⟩ := h
  exact ⟨j, Nat.le_trans hj hb, hpath⟩

section Valid

variable {home : α → ℕ} {bound : ℕ} {t : List (Slot α)}

theorem Valid.mono (h : Valid home bound t) {bound' : ℕ} (hb : bound ≤ bound') :
    Valid home bound' t := fun i a ha => (h i a ha).mono hb

theorem Valid.replicate (n : ℕ) : Valid home bound (List.replicate n .empty) := by
  intro i a ha
  rw [slot_replicate] at ha
  cases ha

theorem Valid.set_full (h : Valid home bound t) {i : ℕ} (hi : i < t.length) {a : α}
    (hp : Placed t (home a) bound i) : Valid home bound (t.set i (.full a)) := by
  intro k b hb
  rw [slot_set _ hi] at hb
  split at hb
  · rename_i hk
    cases hb
    rw [hk]
    exact hp.set i (by simp)
  · exact (h k b hb).set i (by simp)

theorem Valid.set_tomb (h : Valid home bound t) {i : ℕ} (hi : i < t.length) :
    Valid home bound (t.set i .tomb) := by
  intro k b hb
  rw [slot_set _ hi] at hb
  split at hb
  · cases hb
  · exact (h k b hb).set i (by simp)

-- A slot before a never-used one is on no entry's path, so it may become never-used.
theorem Valid.set_empty (h : Valid home bound t) {i : ℕ} (hi : i < t.length)
    (hnext : slot t ((i + 1) % t.length) = .empty) : Valid home bound (t.set i .empty) := by
  intro k b hb
  rw [slot_set _ hi] at hb
  split at hb
  · cases hb
  · obtain ⟨j, hj, hk, hpath⟩ := h k b hb
    refine ⟨j, hj, by rw [List.length_set, hk], fun j' hj' => ?_⟩
    rw [List.length_set, slot_set _ hi]
    split
    · rename_i heq
      rw [← heq, probe_succ] at hnext
      by_cases hlast : j' + 1 = j
      · rw [hlast, ← hk, hb] at hnext
        cases hnext
      · exact (hpath (j' + 1) (by omega) hnext).elim
    · exact hpath j' hj'

end Valid

end Probing
