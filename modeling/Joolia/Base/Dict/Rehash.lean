import Joolia.Base.Dict.Lookup
import Joolia.Library.Iteration

namespace Joolia.Hashtable

open Probing

variable {K V : Type} [Key K]

theorem tablesz_spec (x : ℤ) : x ≤ tablesz x ∧ 16 ≤ tablesz x ∧ ∃ m, tablesz x = 2 ^ m := by
  unfold tablesz
  split
  · exact ⟨by omega, by omega, 4, rfl⟩
  · rename_i hx
    rw [Nat.shiftLeft_eq, Nat.one_mul]
    have hlog := Nat.lt_log2_self (n := (x - 1).toNat)
    have hle : 2 ^ 4 ≤ 2 ^ ((x - 1).toNat.log2 + 1) := by
      apply Nat.pow_le_pow_right (by omega)
      have := (Nat.le_log2 (n := (x - 1).toNat) (k := 3) (by omega)).2 (by omega)
      omega
    refine ⟨?_, hle, _, rfl⟩
    have hcast : ((x - 1).toNat : ℤ) < ((2 ^ ((x - 1).toNat.log2 + 1) : ℕ) : ℤ) := by
      exact_mod_cast hlog
    omega

-- The tables `rehash!` builds before they replace the old ones.
def Rehashed.dict (new : Rehashed K V) : Dict K V :=
  ⟨new.slots, new.keys, new.vals, 0, new.count, 0, 0, new.maxprobe⟩

-- A table of never-used slots.
theorem stored_fresh {n : ℕ} (hn : n = 0 ∨ 16 ≤ n ∧ ∃ m, n = 2 ^ m) {h : Dict K V}
    (hslots : h.slots = List.replicate n 0x00) (hkeys : h.keys = List.replicate n none)
    (hvals : h.vals = List.replicate n none) (hcount : h.count = 0) (hndel : h.ndel = 0)
    (hmax : h.maxprobe = 0) : Inv h (List.replicate n .empty) := by
  refine ⟨⟨by simp [hslots], by simp [hkeys], by simp [hvals], by simpa using hn, fun i hi => ?_,
    by simp [hcount, entries_replicate], by simp [hndel, tombs_replicate], fun i a ha => ?_,
    .replicate n, fun i j a b ha => ?_, ?_⟩, ?_⟩
  · rw [slot_replicate, Cell, slotAt, hslots]
    simp only [List.getD, List.getElem?_replicate]
    split <;> rfl
  · rw [slot_replicate] at ha
    cases ha
  · rw [slot_replicate] at ha
    cases ha
  · rw [List.length_replicate, hmax]
    omega
  · rw [List.length_replicate, entries_replicate, tombs_replicate, List.length_nil]
    omega

section Step

variable {h nd : Dict K V} {t u : List (Slot (K × V))} (hu : Stored nd u)

-- The search for a never-used slot ends.
include hu in
theorem rehashFind_spec (hn : 0 < u.length) {home j1 : ℕ} (fuel j : ℕ) (hj : j ≤ j1) (hfuel : j1 ≤ j + fuel)
    (hj1 : slot u (probe u.length home j1) = .empty)
    (hpath : ∀ j', j' < j → slot u (probe u.length home j') ≠ .empty) :
    ∃ j', j' ≤ j1 ∧ rehashFind nd.slots u.length fuel (probe u.length home j) =
        some (probe u.length home j') ∧ slot u (probe u.length home j') = .empty ∧
      ∀ i, i < j' → slot u (probe u.length home i) ≠ .empty := by
  have hidx : ∀ j, probe u.length home j < u.length := probe_lt hn _
  have hzero : ∀ j, slotAt nd.slots (probe u.length home j) = 0 ↔
      slot u (probe u.length home j) = .empty := by
    intro j
    rw [← isslotempty_iff hu (hidx j), isslotempty, beq_iff_eq]
  induction fuel generalizing j with
  | zero =>
      obtain rfl : j = j1 := by omega
      refine ⟨j, Nat.le_refl j, ?_, hj1, hpath⟩
      unfold rehashFind
      rw [if_pos ((hzero j).2 hj1)]
  | succ fuel ih =>
      unfold rehashFind
      by_cases hempty : slot u (probe u.length home j) = .empty
      · exact ⟨j, hj, by rw [if_pos ((hzero j).2 hempty)], hempty, hpath⟩
      · rw [if_neg (mt (hzero j).1 hempty)]
        have hne : j ≠ j1 := by
          rintro rfl
          exact hempty hj1
        have hmask := maskNat_probe hu hn home j
        rw [hu.length_keys] at hmask
        simp only [hmask]
        refine ih (j + 1) (by omega) (by omega) fun j' hj' => ?_
        by_cases heq : j' = j
        · rwa [heq]
        · exact hpath j' (by omega)

-- The distance `(index - index0) & (newsz-1)` is the number of steps.
theorem maskInt_probe {n m j : ℕ} (home : ℕ) (hn : n = 2 ^ m) (hj : j < n) :
    maskInt ((probe n home j : ℤ) - home) n = j := by
  have hmask := maskInt_two_pow ((probe n home j : ℤ) - home) m
  rw [← hn] at hmask
  have hmod : ((probe n home j : ℤ) - home) % 2 ^ m = j := by
    rw [show (2 ^ m : ℤ) = (n : ℤ) by rw [hn]; push_cast; rfl, probe]
    push_cast
    rw [Int.emod_sub_emod, show (home + j - home : ℤ) = j by omega,
      Int.emod_eq_of_lt (by omega) (by omega)]
  omega

-- The invariant of the loop of `rehash!`: the new tables hold the entries of the old
-- slots below `i`.
def RehashedTo (t : List (Slot (K × V))) (n i : ℕ) (new : Rehashed K V) : Prop :=
  ∃ u, Stored new.dict u ∧ u.length = n ∧ (entries u).Perm (entries (t.take i))

theorem rehashStep_spec [LawfulKey K] (hs : Stored h t) {n i : ℕ} {new : Rehashed K V}
    (hroom : (entries t).length < n) (hi : i < t.length) (hnew : RehashedTo t n i new) :
    ∃ new', rehashStep h n new i = some new' ∧ RehashedTo t n (i + 1) new' := by
  obtain ⟨u, hu, hulen, hperm⟩ := hnew
  have htake := entries_take_succ t hi
  unfold rehashStep
  cases hslot : slot t i with
  | full a =>
      obtain ⟨hbyte, hkey, hval⟩ : Cell h i (.full a) := by rw [← hslot]; exact hs.cell i hi
      rw [if_pos ((isslotfilled_iff hs hi).2 ⟨a, hslot⟩), hkey, hval]
      simp only [Option.bind_eq_bind, Option.bind_some]
      rw [hslot] at htake
      -- the entry differs from all entries moved before
      have hdist : ∀ b ∈ entries u, Key.isequal a.1 b.1 = false ∧ Key.isequal b.1 a.1 = false := by
        intro b hb
        obtain ⟨j, hj⟩ := mem_entries.1 (hperm.mem_iff.1 hb)
        have hjlt : j < i := by
          have := lt_length_of_slot (t := t.take i) (i := j) (by rw [hj]; simp)
          rw [List.length_take] at this
          omega
        have hjt : slot t j = .full b := by
          rw [← hj]
          simp [slot, List.getD, hjlt]
        refine ⟨?_, ?_⟩
        · rw [Bool.eq_false_iff]
          intro heq
          have := hs.distinct i j a b hslot hjt heq
          omega
        · rw [Bool.eq_false_iff]
          intro heq
          have := hs.distinct j i b a hjt hslot heq
          omega
      have hroomu : (entries u).length + tombs u < u.length := by
        have hndel := hu.ndel
        have hle := hperm.length_eq
        have hsub : (entries (t.take i)).length ≤ (entries t).length :=
          ((List.take_sublist i t).filterMap _).length_le
        simp only [Rehashed.dict] at hndel
        omega
      have hupos : 0 < u.length := by omega
      have hhome : keyHome u.length a.1 < u.length := Nat.mod_lt _ hupos
      obtain ⟨j1, hj1, hempty1⟩ := exists_empty_probe hroomu hhome
      obtain ⟨j, hj, hfind, hempty, hpath⟩ := rehashFind_spec hu hupos u.length 0 (Nat.zero_le j1)
        (by omega) hempty1 (by omega)
      obtain ⟨m, hm⟩ : ∃ m, u.length = 2 ^ m := by
        obtain hz | ⟨-, hpow⟩ := hu.size
        · omega
        · exact hpow
      have hzero : (hashindex a.1 n).1 = probe u.length (keyHome u.length a.1) 0 := by
        have hidx := congrArg Prod.fst (hashindex_eq hu a.1 hupos)
        rw [hu.length_keys, hulen] at hidx
        rw [hidx, probe, Nat.add_zero, hulen, keyHome, Nat.mod_mod]
      have hhome0 : probe u.length (keyHome u.length a.1) 0 = keyHome u.length a.1 := by
        rw [probe, Nat.add_zero, Nat.mod_eq_of_lt hhome]
      have hdisp := maskInt_probe (keyHome u.length a.1) hm (show j < u.length by omega)
      rw [hzero, ← hulen]
      simp only [Rehashed.dict] at hfind
      rw [hfind]
      simp only [Option.bind_some, hhome0, hdisp, hbyte]
      refine ⟨_, rfl, u.set (probe u.length (keyHome u.length a.1) j) (.full a), ?_,
        by rw [List.length_set], ?_⟩
      · have hndel := hu.ndel
        have hcount := hu.count
        have hset := entries_set u (probe_lt hupos (keyHome u.length a.1) j) (.full a)
        have htset := tombs_set u (probe_lt hupos (keyHome u.length a.1) j) (.full a)
        have hmaxu := hu.maxprobe
        rw [hempty] at hset htset
        simp only [Rehashed.dict, Slot.value?, Option.toList_none, List.nil_append, Option.toList_some,
          List.singleton_append, Slot.isTomb, Bool.false_eq_true, if_false] at hset htset hcount hndel hmaxu
        have hlen := hset.length_eq
        simp only [List.length_cons] at hlen
        refine hu.fill (probe_lt hupos _ _) ?_ ?_ ⟨j, ?_, rfl, hpath⟩ ?_ rfl rfl rfl ?_ ?_ ?_
        · simp only [Rehashed.dict]
          split <;> omega
        · simp only [Rehashed.dict]
          split <;> omega
        · simp only [Rehashed.dict]
          split <;> omega
        · exact fun i b _ hb => hdist b (mem_entries.2 ⟨i, hb⟩)
        · simp only [Rehashed.dict]
          omega
        · simp only [Rehashed.dict]
          omega
        · exact ⟨Nat.zero_le _, Nat.le_refl _⟩
      · have hset := entries_set u (probe_lt hupos (keyHome u.length a.1) j) (.full a)
        rw [hempty] at hset
        rw [htake]
        refine hset.trans ?_
        exact (hperm.cons a).trans (List.perm_append_singleton a _).symm
  | empty =>
      rw [if_neg]
      · rw [hslot] at htake
        exact ⟨new, rfl, u, hu, hulen, by rw [htake]; simpa [Slot.value?] using hperm⟩
      · intro hfilled
        obtain ⟨a, ha⟩ := (isslotfilled_iff hs hi).1 hfilled
        rw [hslot] at ha
        cases ha
  | tomb =>
      rw [if_neg]
      · rw [hslot] at htake
        exact ⟨new, rfl, u, hu, hulen, by rw [htake]; simpa [Slot.value?] using hperm⟩
      · intro hfilled
        obtain ⟨a, ha⟩ := (isslotfilled_iff hs hi).1 hfilled
        rw [hslot] at ha
        cases ha

end Step

-- `rehash!` moves every entry into a table without tombs.
theorem rehash_spec [LawfulKey K] {h : Dict K V} {t : List (Slot (K × V))} (hs : Stored h t) {x : ℤ}
    (hx : h.count < tablesz x) : ∃ h' u, rehash h x = some h' ∧ Inv h' u ∧
      (entries u).Perm (entries t) ∧ tombs u = 0 ∧ u.length = tablesz x := by
  obtain ⟨-, h16, hpow⟩ := tablesz_spec x
  have hcount := hs.count
  simp only [rehash]
  split
  · rename_i hz
    refine ⟨_, List.replicate (tablesz x) .empty, rfl,
      stored_fresh (.inr ⟨h16, hpow⟩) rfl rfl rfl hz rfl rfl, ?_, tombs_replicate _, by simp⟩
    rw [entries_replicate, List.eq_nil_of_length_eq_zero (show (entries t).length = 0 by omega)]
  · have hinit : RehashedTo t (tablesz x) 0 (⟨List.replicate (tablesz x) 0x00,
        List.replicate (tablesz x) none, List.replicate (tablesz x) none, 0, 0⟩ : Rehashed K V) :=
      ⟨_, (stored_fresh (.inr ⟨h16, hpow⟩) rfl rfl rfl rfl rfl rfl).toStored, by simp,
        by rw [entries_replicate, List.take_zero]; rfl⟩
    obtain ⟨new, hnew, u, hu, hulen, hperm⟩ := Loop.foldlM_range (RehashedTo t (tablesz x)) t.length hinit
      fun i new hi hnew => rehashStep_spec hs (by omega) hi hnew
    rw [List.take_length] at hperm
    rw [hs.length_slots, hnew]
    have hndel := hu.ndel
    simp only [Rehashed.dict] at hndel
    have hlen := hperm.length_eq
    refine ⟨_, u, rfl, ⟨?_, .inr (by omega)⟩, hperm, by omega, hulen⟩
    exact ⟨hu.length_slots, hu.length_keys, hu.length_vals, hu.size,
      fun i hi => (hu.cell i hi).congr rfl rfl rfl, hu.count, hu.ndel, hu.floor, hu.valid, hu.distinct,
      hu.maxprobe⟩

end Joolia.Hashtable
