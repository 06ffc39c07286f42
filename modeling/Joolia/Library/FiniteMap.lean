import Mathlib.Data.Multiset.MapFold
import Mathlib.Data.Multiset.Filter
import Mathlib.Data.Multiset.AddSub
import Mathlib.Data.Multiset.ZeroCons

-- A finite map whose keys are compared by an equivalence: a bag of bindings in which
-- every class of keys is bound at most once.
structure FiniteMap (K V : Type*) [s : Setoid K] where
  bindings : Multiset (K × V)
  nodup : (bindings.map fun b => (Quotient.mk s b.1)).Nodup

namespace FiniteMap

variable {K V : Type*} [s : Setoid K]

@[ext]
theorem ext {m m' : FiniteMap K V} (h : m.bindings = m'.bindings) : m = m' := by
  cases m
  cases m'
  cases h
  rfl

def empty : FiniteMap K V := ⟨0, by simp⟩

theorem nodup_of_le {m : FiniteMap K V} {b : Multiset (K × V)} (h : b ≤ m.bindings) :
    (b.map fun b => (Quotient.mk s b.1)).Nodup :=
  Multiset.nodup_of_le (Multiset.map_le_map h) m.nodup

def filter (p : K × V → Bool) (m : FiniteMap K V) : FiniteMap K V :=
  ⟨m.bindings.filter fun b => p b = true, nodup_of_le (Multiset.filter_le _ _)⟩

open Classical in
noncomputable def erase (m : FiniteMap K V) (key : K) : FiniteMap K V :=
  ⟨m.bindings.filter fun b => ¬key ≈ b.1, nodup_of_le (Multiset.filter_le _ _)⟩

theorem mem_erase {m : FiniteMap K V} {key : K} {b : K × V} :
    b ∈ (m.erase key).bindings ↔ b ∈ m.bindings ∧ ¬key ≈ b.1 := by
  classical
  exact Multiset.mem_filter

theorem not_mem_erase (m : FiniteMap K V) (key : K) :
    Quotient.mk s key ∉ (m.erase key).bindings.map fun b => (Quotient.mk s b.1) := by
  intro h
  obtain ⟨b, hb, heq⟩ := Multiset.mem_map.1 h
  exact (mem_erase.1 hb).2 (Setoid.symm (Quotient.exact heq))

noncomputable def insert (m : FiniteMap K V) (key : K) (v : V) : FiniteMap K V :=
  ⟨(key, v) ::ₘ (m.erase key).bindings, by
    rw [Multiset.map_cons, Multiset.nodup_cons]
    exact ⟨not_mem_erase m key, (m.erase key).nodup⟩⟩

-- `key` is bound to `v`.
def Maps (m : FiniteMap K V) (key : K) (v : V) : Prop := ∃ k, (k, v) ∈ m.bindings ∧ key ≈ k

open Classical in
noncomputable def lookup (m : FiniteMap K V) (key : K) : Option V :=
  if h : ∃ v, m.Maps key v then some h.choose else none

def card (m : FiniteMap K V) : ℕ := Multiset.card m.bindings

-- Equal keys have one binding.
theorem eq_of_mem {m : FiniteMap K V} {a b : K × V} (ha : a ∈ m.bindings) (hb : b ∈ m.bindings)
    (h : a.1 ≈ b.1) : a = b :=
  Multiset.inj_on_of_nodup_map m.nodup a ha b hb (Quotient.sound h)

theorem Maps.unique {m : FiniteMap K V} {key : K} {v w : V} (hv : m.Maps key v) (hw : m.Maps key w) :
    v = w := by
  obtain ⟨k, hk, hkey⟩ := hv
  obtain ⟨k', hk', hkey'⟩ := hw
  have heq := eq_of_mem hk hk' (Setoid.trans (Setoid.symm hkey) hkey')
  cases heq
  rfl

theorem lookup_eq_some {m : FiniteMap K V} {key : K} {v : V} : m.lookup key = some v ↔ m.Maps key v := by
  unfold lookup
  constructor
  · intro h
    split at h
    · rename_i hex
      cases h
      exact hex.choose_spec
    · cases h
  · intro h
    rw [dif_pos ⟨v, h⟩]
    exact congrArg some (Maps.unique (Exists.choose_spec ⟨v, h⟩) h)

theorem lookup_eq_none {m : FiniteMap K V} {key : K} :
    m.lookup key = none ↔ ∀ b ∈ m.bindings, ¬key ≈ b.1 := by
  constructor
  · intro h b hb hkey
    have hsome : m.lookup key = some b.2 := lookup_eq_some.2 ⟨b.1, hb, hkey⟩
    rw [h] at hsome
    cases hsome
  · intro h
    cases hl : m.lookup key with
    | none => rfl
    | some v =>
        obtain ⟨k, hk, hkey⟩ := lookup_eq_some.1 hl
        exact (h (k, v) hk hkey).elim

-- Erasing a key that is not bound changes nothing.
theorem erase_of_lookup_eq_none {m : FiniteMap K V} {key : K} (h : m.lookup key = none) :
    m.erase key = m := by
  classical
  apply ext
  exact Multiset.filter_eq_self.2 (lookup_eq_none.1 h)

end FiniteMap
