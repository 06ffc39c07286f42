import Joolia.Base.Dict.Calls
import Joolia.Library.FiniteMap

namespace Joolia.Hashtable

open Probing Iteration

variable {K V : Type} [Key K]

inductive Op (K V : Type)
  | setindex (v : V) (key : K)
  | get (key : K) (default : V)
  | delete (key : K)
  | popKey (key : K)
  | popKeyDefault (key : K) (default : V)
  | pop
  | filter (pred : K × V → Bool)
  | empty
  | rehash (newsz : ℤ)

inductive Result (K V : Type)
  | done
  | value (v : V)
  | binding (key : K) (v : V)
  | error (err : DictError K)

-- One call: the table after it and what it returns or throws; `none` if it does not return.
def exec (h : Dict K V) (op : Op K V) : Option (Dict K V × Result K V) :=
  match op with
  | .setindex v key => (setindex h v key).map fun h' => (h', .done)
  | .get key default => (getOrStore h key fun h => some (h, default)).map fun (h', v) => (h', .value v)
  | .delete key => (delete h key).map fun h' => (h', .done)
  | .popKey key => (popKey h key).map fun
      | .ok (h', v) => (h', .value v)
      | .error err => (h, .error err)
  | .popKeyDefault key default => (popKeyDefault h key default).map fun (h', v) => (h', .value v)
  | .pop => (pop h).map fun
      | .ok (h', key, v) => (h', .binding key v)
      | .error err => (h, .error err)
  | .filter pred => (filter pred h).map fun h' => (h', .done)
  | .empty => some (empty h, .done)
  | .rehash newsz => (rehash h newsz).map fun h' => (h', .done)

-- `rehash!` is called with room for the entries.
def Allowed (h : Dict K V) (op : Op K V) : Prop :=
  match op with
  | .rehash newsz => h.count < newsz
  | _ => True

-- `rehash!` is called with at least the present number of slots.
def Grows (h : Dict K V) (op : Op K V) : Prop :=
  match op with
  | .rehash newsz => h.slots.length ≤ newsz
  | _ => True

-- Keys are compared by `isequal`.
instance keySetoid [LawfulKey K] : Setoid K where
  r a b := Key.isequal a b = true
  iseqv := ⟨LawfulKey.refl, LawfulKey.symm, LawfulKey.trans⟩

-- What the same call does on a finite map. `pop!(h)` may take any binding.
def Answers [LawfulKey K] (m : FiniteMap K V) (op : Op K V) (m' : FiniteMap K V) (r : Result K V) : Prop :=
  match op with
  | .setindex v key => m' = m.insert key v ∧ r = .done
  | .get key default =>
      match m.lookup key with
      | some v => m' = m ∧ r = .value v
      | none => m' = m.insert key default ∧ r = .value default
  | .delete key => m' = m.erase key ∧ r = .done
  | .popKey key =>
      match m.lookup key with
      | some v => m' = m.erase key ∧ r = .value v
      | none => m' = m ∧ r = .error (.KeyError key)
  | .popKeyDefault key default =>
      match m.lookup key with
      | some v => m' = m.erase key ∧ r = .value v
      | none => m' = m ∧ r = .value default
  | .pop => (m = .empty ∧ m' = m ∧ r = .error (.ArgumentError "dict must be non-empty")) ∨
      ∃ key v, (key, v) ∈ m.bindings ∧ m' = m.erase key ∧ r = .binding key v
  | .filter pred => m' = m.filter pred ∧ r = .done
  | .empty => m' = .empty ∧ r = .done
  | .rehash _ => m' = m ∧ r = .done

section Step

variable [LawfulKey K] {m : FiniteMap K V} {l : List (K × V)} (hm : m.bindings = l)
include hm

theorem erase_bindings (key : K) : (m.erase key).bindings = (without key l : List (K × V)) := by
  classical
  simp only [FiniteMap.erase, hm, Multiset.filter_coe, without]
  refine congrArg _ (List.filter_congr fun b _ => ?_)
  rw [Bool.eq_iff_iff, decide_eq_true_eq, Bool.not_eq_true', ← Bool.not_eq_true]
  rfl

theorem insert_bindings (key : K) (v : V) :
    (m.insert key v).bindings = ((key, v) :: without key l : List (K × V)) := by
  rw [← Multiset.cons_coe, ← erase_bindings hm key]
  rfl

theorem lookup_of_mem {key : K} {a : K × V} (ha : a ∈ l) (heq : Key.isequal key a.1 = true) :
    m.lookup key = some a.2 :=
  FiniteMap.lookup_eq_some.2 ⟨a.1, by rw [hm]; exact ha, heq⟩

theorem lookup_of_forall {key : K} (h : ∀ b ∈ l, Key.isequal key b.1 = false) : m.lookup key = none := by
  refine FiniteMap.lookup_eq_none.2 fun b hb heq => ?_
  rw [hm] at hb
  exact Bool.false_ne_true ((h b hb).symm.trans heq)

end Step

-- Every call returns, keeps the invariant, and answers as the finite map does.
theorem exec_spec [LawfulKey K] {h : Dict K V} {t : List (Slot (K × V))} {m : FiniteMap K V} (hinv : Inv h t)
    (hm : m.bindings = entries t) {op : Op K V}
    (hop : Allowed h op ∨ Grows h op) :
    ∃ h' u r, ∃ m' : FiniteMap K V, exec h op = some (h', r) ∧ Inv h' u ∧ m'.bindings = entries u ∧
      Answers m op m' r ∧ (Grows h op → Low t → Low u) := by
  cases op with
  | setindex v key =>
      obtain ⟨h', u, hcall, hinv', hperm, hlow⟩ := setindex_spec hinv v key
      refine ⟨h', u, .done, m.insert key v, by rw [exec, hcall]; rfl, hinv', ?_, ⟨rfl, rfl⟩, fun _ => hlow⟩
      rw [insert_bindings hm]
      exact Multiset.coe_eq_coe.2 hperm.symm
  | get key default =>
      obtain ⟨h', u, w, hcall, hinv', hlow, ⟨k, hk, heq, hperm⟩ | ⟨habsent, rfl, hperm⟩⟩ :=
        getOrStore_spec hinv key default
      · refine ⟨h', u, .value w, m, by rw [exec, hcall]; rfl, hinv', ?_, ?_, fun _ => hlow⟩
        · rw [hm]
          exact Multiset.coe_eq_coe.2 hperm.symm
        · rw [Answers, lookup_of_mem hm hk heq]
          exact ⟨rfl, rfl⟩
      · have hnone := lookup_of_forall hm habsent
        refine ⟨h', u, .value w, m.insert key w, by rw [exec, hcall]; rfl, hinv', ?_, ?_, fun _ => hlow⟩
        · rw [insert_bindings hm, ← Multiset.cons_coe, ← erase_bindings hm,
            FiniteMap.erase_of_lookup_eq_none hnone, hm, Multiset.cons_coe]
          exact Multiset.coe_eq_coe.2 hperm.symm
        · rw [Answers, hnone]
          exact ⟨rfl, rfl⟩
  | delete key =>
      obtain ⟨h', u, hcall, hinv', hperm, hlow⟩ := delete_spec hinv key
      refine ⟨h', u, .done, m.erase key, by rw [exec, hcall]; rfl, hinv', ?_, ⟨rfl, rfl⟩, fun _ => hlow⟩
      rw [erase_bindings hm]
      exact Multiset.coe_eq_coe.2 hperm.symm
  | popKey key =>
      obtain ⟨h', u, a, hcall, -, hinv', ha, heq, hperm, hlow⟩ | ⟨hcall, -, habsent⟩ := popKey_spec hinv key
      · refine ⟨h', u, .value a.2, m.erase key, by rw [exec, hcall]; rfl, hinv', ?_, ?_, fun _ => hlow⟩
        · rw [erase_bindings hm]
          exact Multiset.coe_eq_coe.2 hperm.symm
        · rw [Answers, lookup_of_mem hm ha heq]
          exact ⟨rfl, rfl⟩
      · refine ⟨h, t, .error (.KeyError key), m, by rw [exec, hcall]; rfl, hinv, hm, ?_, fun _ => id⟩
        rw [Answers, lookup_of_forall hm habsent]
        exact ⟨rfl, rfl⟩
  | popKeyDefault key default =>
      obtain ⟨h', u, a, -, hcall, hinv', ha, heq, hperm, hlow⟩ | ⟨-, hcall, habsent⟩ := popKey_spec hinv key
      · refine ⟨h', u, .value a.2, m.erase key, by rw [exec, hcall]; rfl, hinv', ?_, ?_, fun _ => hlow⟩
        · rw [erase_bindings hm]
          exact Multiset.coe_eq_coe.2 hperm.symm
        · rw [Answers, lookup_of_mem hm ha heq]
          exact ⟨rfl, rfl⟩
      · refine ⟨h, t, .value default, m, by rw [exec, hcall]; rfl, hinv, hm, ?_, fun _ => id⟩
        rw [Answers, lookup_of_forall hm habsent]
        exact ⟨rfl, rfl⟩
  | pop =>
      obtain ⟨hcall, hnil⟩ | ⟨h', u, a, hcall, hinv', ha, hperm, hlow⟩ := pop_spec hinv
      · refine ⟨h, t, _, m, by rw [exec, hcall]; rfl, hinv, hm, .inl ⟨?_, rfl, rfl⟩, fun _ => id⟩
        apply FiniteMap.ext
        rw [hm, hnil]
        rfl
      · refine ⟨h', u, .binding a.1 a.2, m.erase a.1, by rw [exec, hcall]; rfl, hinv', ?_,
          .inr ⟨a.1, a.2, by rw [hm]; exact ha, rfl, rfl⟩, fun _ => hlow⟩
        rw [erase_bindings hm]
        exact Multiset.coe_eq_coe.2 hperm.symm
  | filter pred =>
      obtain ⟨h', u, hcall, hinv', hentries, hlow⟩ := filter_spec pred hinv
      refine ⟨h', u, .done, m.filter pred, by rw [exec, hcall]; rfl, hinv', ?_, ⟨rfl, rfl⟩, fun _ => hlow⟩
      simp only [hentries, FiniteMap.filter, hm, Multiset.filter_coe]
      simp
  | empty =>
      obtain ⟨u, hinv', hentries, hlow⟩ := empty_spec hinv
      refine ⟨empty h, u, .done, .empty, rfl, hinv', ?_, ⟨rfl, rfl⟩, fun _ _ => hlow⟩
      rw [hentries]
      rfl
  | rehash newsz =>
      obtain ⟨hsz, h16, -⟩ := tablesz_spec newsz
      have hslots := hinv.length_slots
      have hlt : h.count < tablesz newsz := by
        have hcount := hinv.count
        have hload := hinv.load
        have hlen := length_eq t
        rcases hop with hlt | hge
        · exact Int.lt_of_lt_of_le hlt hsz
        · have hge : (h.slots.length : ℤ) ≤ newsz := hge
          omega
      obtain ⟨h', u, hcall, hinv', hperm, htombs, hulen⟩ := rehash_spec hinv.toStored hlt
      refine ⟨h', u, .done, m, by rw [exec, hcall]; rfl, hinv', ?_, ⟨rfl, rfl⟩, fun hgrows hlow => ?_⟩
      · rw [hm]
        exact Multiset.coe_eq_coe.2 hperm.symm
      · have hge : (h.slots.length : ℤ) ≤ newsz := hgrows
        have hlen := hperm.length_eq
        rw [Low] at hlow ⊢
        omega

-- The calls one after another, with what they return.
def run (h : Dict K V) (ops : List (Op K V)) : Option (Dict K V × List (Result K V)) :=
  match ops with
  | [] => some (h, [])
  | op :: ops =>
      (exec h op).bind fun (h, r) => (run h ops).map fun (h, rs) => (h, r :: rs)

def AllowedRun (h : Dict K V) (ops : List (Op K V)) : Prop :=
  match ops with
  | [] => True
  | op :: ops => Allowed h op ∧ ∀ h' r, exec h op = some (h', r) → AllowedRun h' ops

def AnswersRun [LawfulKey K] (m : FiniteMap K V) (ops : List (Op K V)) (m' : FiniteMap K V)
    (rs : List (Result K V)) : Prop :=
  match ops, rs with
  | [], [] => m' = m
  | op :: ops, r :: rs => ∃ m1, Answers m op m1 r ∧ AnswersRun m1 ops m' rs
  | _, _ => False

-- The table shows the finite map: to lookups, to `length` and to iteration.
structure Shows [LawfulKey K] (h : Dict K V) (m : FiniteMap K V) : Prop where
  bound : ∀ key v, m.lookup key = some v → ∃ (i : ℕ) (k : K), htKeyindex h key = some (i : ℤ) ∧
    h.keys.getD i none = some k ∧ Key.isequal key k = true ∧ h.vals.getD i none = some v
  unbound : ∀ key, m.lookup key = none → htKeyindex h key = some (-1)
  length : h.count = m.card
  iterate : ∃ l : List (K × V), m.bindings = l ∧
    Yields (iterate h) (iterate h h.idxfloor) (l.map fun b => (some b.1, some b.2))

theorem Inv.shows [LawfulKey K] {h : Dict K V} {t : List (Slot (K × V))} {m : FiniteMap K V} (hinv : Inv h t)
    (hm : m.bindings = entries t) : Shows h m := by
  refine ⟨fun key v hv => ?_, fun key hnone => ?_, ?_, entries t, hm, iterate_spec hinv.toStored⟩
  · obtain ⟨r, hr, ⟨i, rfl, hmatch⟩ | ⟨-, habsent⟩⟩ := htKeyindex_spec hinv.toStored key
    · obtain ⟨a, ha, heq⟩ := slotMatches_iff.1 hmatch
      obtain ⟨hkey, hval⟩ := hinv.vals_of_full ha
      refine ⟨i, a.1, hr, hkey, heq, ?_⟩
      rw [hval, ← lookup_of_mem hm (mem_entries.2 ⟨i, ha⟩) heq, hv]
    · rw [lookup_of_forall hm fun b => habsent.not_isequal] at hv
      cases hv
  · obtain ⟨r, hr, ⟨i, rfl, hmatch⟩ | ⟨rfl, -⟩⟩ := htKeyindex_spec hinv.toStored key
    · obtain ⟨a, ha, heq⟩ := slotMatches_iff.1 hmatch
      rw [lookup_of_mem hm (mem_entries.2 ⟨i, ha⟩) heq] at hnone
      cases hnone
    · exact hr
  · rw [hinv.count, FiniteMap.card, hm, Multiset.coe_card]

theorem run_spec [LawfulKey K] (ops : List (Op K V)) {h : Dict K V} {t : List (Slot (K × V))}
    {m : FiniteMap K V} (hinv : Inv h t) (hm : m.bindings = entries t) (hops : AllowedRun h ops) :
    ∃ h' u rs, ∃ m' : FiniteMap K V, run h ops = some (h', rs) ∧ Inv h' u ∧ m'.bindings = entries u ∧
      AnswersRun m ops m' rs := by
  induction ops generalizing h t m with
  | nil => exact ⟨h, t, [], m, rfl, hinv, hm, rfl⟩
  | cons op ops ih =>
      obtain ⟨hop, hrest⟩ := hops
      obtain ⟨h1, t1, r, m1, hexec, hinv1, hm1, hans, -⟩ := exec_spec hinv hm (.inl hop)
      obtain ⟨h', u, rs, m', hrun, hinv', hm', hanss⟩ := ih hinv1 hm1 (hrest h1 r hexec)
      refine ⟨h', u, r :: rs, m', ?_, hinv', hm', m1, hans, hanss⟩
      simp only [run, hexec, Option.bind_some, hrun, Option.map_some]

-- Any sequence of calls returns what the finite map returns, and the table it ends
-- with shows the finite map.
theorem dict_refines_finite_map [LawfulKey K] (ops : List (Op K V)) (hops : AllowedRun .new ops) :
    ∃ (h : Dict K V) (rs : List (Result K V)) (m : FiniteMap K V),
      run .new ops = some (h, rs) ∧ AnswersRun .empty ops m rs ∧ Shows h m := by
  obtain ⟨h, t, rs, m, hrun, hinv, hm, hans⟩ := run_spec ops inv_new (m := .empty) rfl hops
  exact ⟨h, rs, m, hrun, hans, hinv.shows hm⟩

section Witness

instance natKey : Key ℕ := ⟨fun n => UInt64.ofNat n, fun a b => a == b, fun a b => a == b⟩

instance : LawfulKey ℕ where
  refl a := beq_self_eq_true a
  symm h := by
    rw [show _ = _ from eq_of_beq h]
    exact beq_self_eq_true _
  trans h h' := by
    rw [show _ = _ from eq_of_beq h]
    exact h'
  isequal_of_egal h := h
  hash_eq h := by rw [show _ = _ from eq_of_beq h]

-- The keys 1 and 17 share a home slot.
theorem dict_refines_finite_map_collision :
    ∃ (h : Dict ℕ ℕ) (rs : List (Result ℕ ℕ)) (m : FiniteMap ℕ ℕ),
      run .new [.rehash 5, .setindex 10 1, .setindex 20 17, .delete 1, .get 17 0] = some (h, rs) ∧
      AnswersRun .empty [.rehash 5, .setindex 10 1, .setindex 20 17, .delete 1, .get 17 0] m rs ∧
      Shows h m :=
  dict_refines_finite_map _ ⟨by simp [Allowed, Dict.new], fun _ _ _ => ⟨trivial, fun _ _ _ =>
    ⟨trivial, fun _ _ _ => ⟨trivial, fun _ _ _ => ⟨trivial, fun _ _ _ => trivial⟩⟩⟩⟩⟩

end Witness

end Joolia.Hashtable
