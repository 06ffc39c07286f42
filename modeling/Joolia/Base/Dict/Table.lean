import Joolia.Base.Dict
import Joolia.Library.Probing
import Mathlib.Data.Nat.Bitwise

namespace Joolia.Hashtable

open Probing

variable {K V : Type}

section Masks

theorem maskNat_two_pow (x m : ℕ) : maskNat x (2 ^ m) = x % 2 ^ m := Nat.and_two_pow_sub_one_eq_mod x m

theorem ldiff_two_pow_sub_one (m n : ℕ) : Nat.ldiff (2 ^ m - 1) n = 2 ^ m - 1 - n % 2 ^ m := by
  have hmod := Nat.mod_lt n (Nat.two_pow_pos m)
  apply Nat.eq_of_testBit_eq
  intro i
  rw [Nat.testBit_ldiff, Nat.testBit_two_pow_sub_one, show 2 ^ m - 1 - n % 2 ^ m =
    2 ^ m - (n % 2 ^ m + 1) by omega, Nat.testBit_two_pow_sub_succ hmod, Nat.testBit_mod_two_pow]
  by_cases h : i < m <;> simp [h]

theorem maskInt_two_pow (x : ℤ) (m : ℕ) : (maskInt x (2 ^ m) : ℤ) = x % 2 ^ m := by
  have hpos := Nat.two_pow_pos m
  have hcast : (((2 ^ m : ℕ) : ℤ) - 1) = ((2 ^ m - 1 : ℕ) : ℤ) := by omega
  rw [maskInt, hcast]
  cases x with
  | ofNat n =>
      have hland : Int.land (Int.ofNat n) ((2 ^ m - 1 : ℕ) : ℤ) = ((n &&& (2 ^ m - 1) : ℕ) : ℤ) := rfl
      rw [hland, Int.toNat_natCast, Nat.and_two_pow_sub_one_eq_mod]
      simp
  | negSucc n =>
      have hland : Int.land (Int.negSucc n) ((2 ^ m - 1 : ℕ) : ℤ) = (Nat.ldiff (2 ^ m - 1) n : ℕ) := rfl
      rw [hland, Int.toNat_natCast, ldiff_two_pow_sub_one]
      have hmod := Nat.mod_lt n hpos
      rw [show (2 ^ m : ℤ) = ((2 ^ m : ℕ) : ℤ) by push_cast; rfl, Int.negSucc_emod_ofNat,
        Int.subNatNat_of_le (by omega)]
      omega

end Masks

section Hash

variable [Key K]

theorem or_high_and_high (b : BitVec 8) : (b ||| 0x80) &&& 0x80 = 0x80 := by
  apply BitVec.eq_of_getLsbD_eq
  intro i hi
  rw [BitVec.getLsbD_and, BitVec.getLsbD_or]
  cases BitVec.getLsbD 0x80#8 i <;> simp

theorem shorthash7_and (hsh : UInt64) : shorthash7 hsh &&& 0x80 = 0x80 :=
  UInt8.eq_of_toBitVec_eq (or_high_and_high _)

theorem shorthash7_ne_zero (hsh : UInt64) : shorthash7 hsh ≠ 0 := by
  intro h
  have hand := shorthash7_and hsh
  rw [h] at hand
  cases hand

theorem shorthash7_ne_missing (hsh : UInt64) : shorthash7 hsh ≠ 0x7f := by
  intro h
  have hand := shorthash7_and hsh
  rw [h] at hand
  cases hand

end Hash

theorem getD_set {α : Type} (l : List α) {p : ℕ} (hp : p < l.length) (x : α) (i : ℕ) (d : α) :
    (l.set p x).getD i d = if i = p then x else l.getD i d := by
  simp only [List.getD, List.getElem?_set]
  by_cases h : p = i
  · subst h
    simp [hp]
  · simp [h, Ne.symm h]

-- The byte, key and value stored for a slot of the abstract table.
def Cell [Key K] (h : Dict K V) (i : ℕ) (s : Slot (K × V)) : Prop :=
  match s with
  | .empty => slotAt h.slots i = 0x00
  | .tomb => slotAt h.slots i = 0x7f
  | .full (k, v) => slotAt h.slots i = shorthash7 (Key.hash k) ∧
      h.keys.getD i none = some k ∧ h.vals.getD i none = some v

def home [Key K] (n : ℕ) (a : K × V) : ℕ := (Key.hash a.1).toNat % n

-- The representation invariant of a table that may be too full.
structure Stored [Key K] (h : Dict K V) (t : List (Slot (K × V))) : Prop where
  length_slots : h.slots.length = t.length
  length_keys : h.keys.length = t.length
  length_vals : h.vals.length = t.length
  size : t.length = 0 ∨ 16 ≤ t.length ∧ ∃ m, t.length = 2 ^ m
  cell : ∀ i, i < t.length → Cell h i (slot t i)
  count : h.count = (entries t).length
  ndel : h.ndel = tombs t
  floor : ∀ i a, slot t i = .full a → h.idxfloor ≤ i
  valid : Valid (home t.length) h.maxprobe t
  distinct : ∀ i j a b, slot t i = .full a → slot t j = .full b →
    Key.isequal a.1 b.1 = true → i = j
  maxprobe : t.length = 0 ∨ h.maxprobe < t.length

-- A never-used slot is left.
structure Inv [Key K] (h : Dict K V) (t : List (Slot (K × V))) : Prop extends Stored h t where
  load : t.length = 0 ∨ (entries t).length + tombs t < t.length

section Cells

variable [Key K] {h : Dict K V} {t : List (Slot (K × V))} (hs : Stored h t) {i : ℕ} (hi : i < t.length)
include hs hi

theorem isslotempty_iff : isslotempty h i = true ↔ slot t i = .empty := by
  have hc := hs.cell i hi
  rw [isslotempty, beq_iff_eq]
  cases hslot : slot t i with
  | empty =>
      rw [hslot] at hc
      simp [show slotAt h.slots i = 0x00 from hc]
  | tomb =>
      rw [hslot] at hc
      simp [show slotAt h.slots i = 0x7f from hc]
  | full a =>
      rw [hslot] at hc
      simp [hc.1, shorthash7_ne_zero]

theorem isslotmissing_iff : isslotmissing h i = true ↔ slot t i = .tomb := by
  have hc := hs.cell i hi
  rw [isslotmissing, beq_iff_eq]
  cases hslot : slot t i with
  | empty =>
      rw [hslot] at hc
      simp [show slotAt h.slots i = 0x00 from hc]
  | tomb =>
      rw [hslot] at hc
      simp [show slotAt h.slots i = 0x7f from hc]
  | full a =>
      rw [hslot] at hc
      simp [hc.1, shorthash7_ne_missing]

theorem isslotfilled_iff : isslotfilled h i = true ↔ ∃ a, slot t i = .full a := by
  have hc := hs.cell i hi
  rw [isslotfilled, bne_iff_ne]
  cases hslot : slot t i with
  | empty =>
      rw [hslot] at hc
      simp [show slotAt h.slots i = 0x00 from hc]
  | tomb =>
      rw [hslot] at hc
      have hand : (0x7f : UInt8) &&& 0x80 = 0 := by decide
      simp [show slotAt h.slots i = 0x7f from hc, hand]
  | full a =>
      rw [hslot] at hc
      simp [hc.1, shorthash7_and]

end Cells

theorem Cell.congr [Key K] {h h' : Dict K V} {i : ℕ} {s : Slot (K × V)} (hc : Cell h i s)
    (hslot : slotAt h'.slots i = slotAt h.slots i) (hkey : h'.keys.getD i none = h.keys.getD i none)
    (hval : h'.vals.getD i none = h.vals.getD i none) : Cell h' i s := by
  cases s with
  | empty => exact hslot.trans hc
  | tomb => exact hslot.trans hc
  | full a => exact ⟨hslot.trans hc.1, hkey.trans hc.2.1, hval.trans hc.2.2⟩

-- Writing an entry into a slot where searches for its key pass.
theorem Stored.fill [Key K] {h : Dict K V} {t : List (Slot (K × V))} (hs : Stored h t) {p : ℕ}
    (hp : p < t.length) {a : K × V} {h' : Dict K V} (hmax : h.maxprobe ≤ h'.maxprobe)
    (hlt : h'.maxprobe < t.length) (hplaced : Placed t (home t.length a) h'.maxprobe p)
    (hdist : ∀ i b, i ≠ p → slot t i = .full b → Key.isequal a.1 b.1 = false ∧ Key.isequal b.1 a.1 = false)
    (hslots : h'.slots = h.slots.set p (shorthash7 (Key.hash a.1)))
    (hkeys : h'.keys = h.keys.set p (some a.1)) (hvals : h'.vals = h.vals.set p (some a.2))
    (hcount : h'.count = (entries (t.set p (.full a))).length)
    (hndel : h'.ndel = tombs (t.set p (.full a)))
    (hfloor : h'.idxfloor ≤ p ∧ h'.idxfloor ≤ h.idxfloor) : Stored h' (t.set p (.full a)) := by
  have hlslots := hs.length_slots
  have hlkeys := hs.length_keys
  have hlvals := hs.length_vals
  refine ⟨by simp [hslots, hlslots], by simp [hkeys, hlkeys], by simp [hvals, hlvals],
    by simpa using hs.size, fun i hi => ?_, hcount, hndel, fun i b hb => ?_, ?_, fun i j b c hb hc heq => ?_,
    .inr (by simpa using hlt)⟩
  · rw [List.length_set] at hi
    rw [slot_set _ hp]
    split
    · rename_i heq
      rw [heq]
      refine ⟨?_, ?_, ?_⟩
      · rw [slotAt, hslots, getD_set _ (by omega), if_pos rfl]
      · rw [hkeys, getD_set _ (by omega), if_pos rfl]
      · rw [hvals, getD_set _ (by omega), if_pos rfl]
    · rename_i hne
      refine (hs.cell i hi).congr ?_ ?_ ?_
      · rw [slotAt, hslots, getD_set _ (by omega), if_neg hne, slotAt]
      · rw [hkeys, getD_set _ (by omega), if_neg hne]
      · rw [hvals, getD_set _ (by omega), if_neg hne]
  · rw [slot_set _ hp] at hb
    split at hb
    · omega
    · have := hs.floor i b hb
      omega
  · rw [List.length_set]
    exact (hs.valid.mono hmax).set_full hp hplaced
  · rw [slot_set _ hp] at hb hc
    split at hb
    · split at hc
      · omega
      · cases hb
        rw [(hdist j c ‹_› hc).1] at heq
        cases heq
    · split at hc
      · cases hc
        rw [(hdist i b ‹_› hb).2] at heq
        cases heq
      · exact hs.distinct i j b c hb hc heq

end Joolia.Hashtable
