import Joolia.Base.Hamt.Read
import Joolia.Library.FiniteMap

namespace Joolia.HashArrayMappedTries

open Iteration

variable {K V : Type} [Identity K] [DecidableEq K]

-- Everything that has been built: the heap and the versions of dictionaries in it.
structure World (K V : Type) where
  heap : Heap K V
  versions : List ℕ

-- The calls that build a version, from nothing or from the version with a number.
inductive Op (K V : Type)
  | new
  | init (key : K) (val : V)
  | set (version : ℕ) (key : K) (val : V)
  | delete (version : ℕ) (key : K)

-- One call; `none` if it does not return or there is no such version.
noncomputable def exec (w : World K V) (op : Op K V) : Option (World K V × Except String Unit) :=
  match op with
  | .new =>
      let (heap, dict) := keyvalueNew w.heap
      some (⟨heap, w.versions ++ [dict]⟩, .ok ())
  | .init key val =>
      let (heap, dict) := keyvalueInit w.heap key val
      some (⟨heap, w.versions ++ [dict]⟩, .ok ())
  | .set version key val => do
      let dict ← w.versions[version]?
      match ← keyvalueset w.heap dict key val with
      | (heap, .ok dict) => some (⟨heap, w.versions ++ [dict]⟩, .ok ())
      | (heap, .error err) => some (⟨heap, w.versions⟩, .error err)
  | .delete version key => do
      let dict ← w.versions[version]?
      let (heap, dict) ← keyvaluedelete w.heap dict key
      some (⟨heap, w.versions ++ [dict]⟩, .ok ())

-- Keys are compared by `===`.
scoped instance identitySetoid (K : Type) : Setoid K := ⟨Eq, eq_equivalence⟩

-- What the same call does on finite maps, one for each version. An insertion that meets
-- a perfect collision throws and builds nothing.
def Answers (w : World K V) (ms : List (FiniteMap K V)) (op : Op K V) (ms' : List (FiniteMap K V))
    (r : Except String Unit) : Prop :=
  match op with
  | .new => ms' = ms ++ [.empty] ∧ r = .ok ()
  | .init key val => ms' = ms ++ [FiniteMap.empty.insert key val] ∧ r = .ok ()
  | .set version key val => ∃ dict m, w.versions[version]? = some dict ∧ ms[version]? = some m ∧
      ((¬Collides w.heap dict key ∧ ms' = ms ++ [m.insert key val] ∧ r = .ok ()) ∨
        (Collides w.heap dict key ∧ ms' = ms ∧ r = .error "Perfect hash collision"))
  | .delete version key => ∃ m, ms[version]? = some m ∧ ms' = ms ++ [m.erase key] ∧ r = .ok ()

-- A version shows a finite map: to `get`, to `length` and to iteration.
structure Shows (heap : Heap K V) (dict : ℕ) (m : FiniteMap K V) : Prop where
  get : ∀ key, keyvalueget heap dict key = some (m.lookup key)
  length : length heap dict = some m.card
  iterate : ∃ l : List (K × V), m.bindings = l ∧ Drains (iterate heap) [(dict, 0)] l

-- The trie of a version holds the bindings of a map.
def Holds (heap : Heap K V) (dict : ℕ) (m : FiniteMap K V) : Prop :=
  ∃ t, Version heap dict t ∧ m.bindings = Trie.bindings 32 t

omit [DecidableEq K] in
theorem Holds.extends {heap heap' : Heap K V} (hext : Extends heap heap') {dict : ℕ} {m : FiniteMap K V}
    (h : Holds heap dict m) : Holds heap' dict m := by
  obtain ⟨t, ht, hm⟩ := h
  exact ⟨t, ⟨ht.rep.extends hext, ht.routed⟩, hm⟩

theorem Holds.shows {heap : Heap K V} {dict : ℕ} {m : FiniteMap K V} (h : Holds heap dict m) :
    Shows heap dict m := by
  obtain ⟨t, ht, hm⟩ := h
  refine ⟨fun key => ?_, ?_, Trie.bindings 32 t, hm, ?_⟩
  · rw [keyvalueget_spec ht]
    refine congrArg some (Option.ext fun v => ?_)
    rw [FiniteMap.lookup_eq_some, Trie.lookup_eq_some digit_lt ht.routed, FiniteMap.Maps, hm]
    constructor
    · exact fun hmem => ⟨key, hmem, rfl⟩
    · rintro ⟨k, hmem, rfl⟩
      exact hmem
  · rw [length_spec ht.rep, FiniteMap.card, hm, Multiset.coe_card]
  · have hdrains := iterate_spec ht.rep (show Drains (iterate heap) [] [] from .done (by rw [iterate_eq, iterateStep]))
    rwa [List.append_nil] at hdrains

omit [Identity K] in
theorem erase_bindings {m : FiniteMap K V} {l : List (K × V)} (hm : m.bindings = l) (key : K) :
    (m.erase key).bindings = (Trie.without key l : List (K × V)) := by
  classical
  simp only [FiniteMap.erase, hm, Multiset.filter_coe, Trie.without]
  refine congrArg _ (List.filter_congr fun a _ => ?_)
  rw [decide_eq_decide]
  exact not_congr ⟨Eq.symm, Eq.symm⟩

omit [Identity K] in
theorem insert_bindings {m : FiniteMap K V} {l : List (K × V)} (hm : m.bindings = l) (key : K) (val : V) :
    (m.insert key val).bindings = ((key, val) :: Trie.without key l : List (K × V)) := by
  rw [← Multiset.cons_coe, ← erase_bindings hm key]
  rfl

omit [DecidableEq K] in
theorem keyvalueNew_spec (heap : Heap K V) :
    Holds (keyvalueNew heap).1 (keyvalueNew heap).2 (.empty : FiniteMap K V) := by
  refine ⟨.node fun _ => .none, ⟨⟨_, _, _, rfl, get_append heap _, compressed_empty, fun _ _ => rfl⟩,
    Trie.routed_nil⟩, ?_⟩
  rw [Trie.bindings_nil]
  rfl

theorem keyvalueInit_spec (heap : Heap K V) (key : K) (val : V) :
    Holds (keyvalueInit heap key val).1 (keyvalueInit heap key val).2 (FiniteMap.empty.insert key val) := by
  have hlt := digit_lt 0 key
  refine ⟨.node (Function.update (fun _ => .none) (digit 0 key) (.leaf key val)),
    ⟨⟨_, _, _, rfl, get_append heap _, compressed_single hlt (.leaf key val), fun b hb => ?_⟩,
      Trie.routed_nil.update Trie.routed_leaf fun a ha => by rw [List.mem_singleton.1 ha]⟩, ?_⟩
  · by_cases h : b = digit 0 key
    · rw [h, Function.update_self, Function.update_self]
      rfl
    · rw [Function.update_of_ne h, Function.update_of_ne h]
      rfl
  · rw [insert_bindings (l := []) rfl]
    exact Multiset.coe_eq_coe.2 (Trie.perm_single hlt (.leaf key val)).symm

-- Every version holds the map with its number.
def Maps (w : World K V) (ms : List (FiniteMap K V)) : Prop := List.Forall₂ (Holds w.heap) w.versions ms

omit [DecidableEq K] in
theorem Maps.push {w : World K V} {ms : List (FiniteMap K V)} (h : Maps w ms) {heap : Heap K V}
    (hext : Extends w.heap heap) {dict : ℕ} {m : FiniteMap K V} (hm : Holds heap dict m) :
    Maps ⟨heap, w.versions ++ [dict]⟩ (ms ++ [m]) :=
  List.rel_append (h.imp fun _ _ hold => hold.extends hext) (.cons hm .nil)

omit [DecidableEq K] in
theorem Maps.version {w : World K V} {ms : List (FiniteMap K V)} (h : Maps w ms) {version : ℕ}
    (hlt : version < w.versions.length) :
    ∃ dict m, w.versions[version]? = some dict ∧ ms[version]? = some m ∧ Holds w.heap dict m := by
  have hlt' : version < ms.length := by rw [← h.length_eq]; exact hlt
  exact ⟨_, _, List.getElem?_eq_getElem hlt, List.getElem?_eq_getElem hlt', h.get hlt hlt'⟩

-- The version an operation starts from exists.
def Allowed (w : World K V) (op : Op K V) : Prop :=
  match op with
  | .set version _ _ => version < w.versions.length
  | .delete version _ => version < w.versions.length
  | _ => True

-- Every call returns, answers as the finite maps do, and keeps all versions.
theorem exec_spec (hsep : Separated K) {w : World K V} {ms : List (FiniteMap K V)} (hw : Maps w ms)
    {op : Op K V} (hop : Allowed w op) :
    ∃ w' r ms', exec w op = some (w', r) ∧ Answers w ms op ms' r ∧ Maps w' ms' := by
  cases op with
  | new => exact ⟨_, _, _, rfl, ⟨rfl, rfl⟩, hw.push (extends_append _ _) (keyvalueNew_spec w.heap)⟩
  | init key val =>
      exact ⟨_, _, _, rfl, ⟨rfl, rfl⟩, hw.push (extends_append _ _) (keyvalueInit_spec w.heap key val)⟩
  | set version key val =>
      obtain ⟨dict, m, hv, hms, t, ht, hm⟩ := hw.version hop
      obtain ⟨heap', hext, ⟨hno, hcall, t', ht', hperm⟩ | ⟨hyes, hcall⟩⟩ := keyvalueset_spec hsep ht key val
      · refine ⟨⟨heap', w.versions ++ [w.heap.length]⟩, .ok (), ms ++ [m.insert key val], ?_,
          ⟨_, _, hv, hms, .inl ⟨mt (collides_iff ht key).1 hno, rfl, rfl⟩⟩, hw.push hext ⟨t', ht', ?_⟩⟩
        · simp only [exec, hv, hcall, Option.bind_eq_bind, Option.bind_some]
        · rw [insert_bindings hm]
          exact Multiset.coe_eq_coe.2 hperm.symm
      · refine ⟨⟨heap', w.versions⟩, .error _, ms, ?_,
          ⟨_, _, hv, hms, .inr ⟨(collides_iff ht key).2 hyes, rfl, rfl⟩⟩,
          List.Forall₂.imp (fun _ _ hold => hold.extends hext) hw⟩
        simp only [exec, hv, hcall, Option.bind_eq_bind, Option.bind_some]
  | delete version key =>
      obtain ⟨dict, m, hv, hms, t, ht, hm⟩ := hw.version hop
      obtain ⟨heap', t', hcall, hext, ht', hperm⟩ := keyvaluedelete_spec ht key
      refine ⟨⟨heap', w.versions ++ [w.heap.length]⟩, .ok (), ms ++ [m.erase key], ?_,
        ⟨m, hms, rfl, rfl⟩, hw.push hext ⟨t', ht', ?_⟩⟩
      · simp only [exec, hv, hcall, Option.bind_eq_bind, Option.bind_some]
      · rw [erase_bindings hm]
        exact Multiset.coe_eq_coe.2 hperm.symm

-- The calls one after another, beside the finite maps.
inductive Run : World K V → List (FiniteMap K V) → List (Op K V) → World K V → List (FiniteMap K V) → Prop
  | nil {w : World K V} {ms : List (FiniteMap K V)} : Run w ms [] w ms
  | cons {w w1 w' : World K V} {ms ms1 ms' : List (FiniteMap K V)} {op : Op K V} {ops : List (Op K V)}
      {r : Except String Unit} : exec w op = some (w1, r) → Answers w ms op ms1 r →
      Run w1 ms1 ops w' ms' → Run w ms (op :: ops) w' ms'

def AllowedRun (w : World K V) (ops : List (Op K V)) : Prop :=
  match ops with
  | [] => True
  | op :: ops => Allowed w op ∧ ∀ w' r, exec w op = some (w', r) → AllowedRun w' ops

theorem run_spec (hsep : Separated K) (ops : List (Op K V)) {w : World K V} {ms : List (FiniteMap K V)}
    (hw : Maps w ms) (hops : AllowedRun w ops) : ∃ w' ms', Run w ms ops w' ms' ∧ Maps w' ms' := by
  induction ops generalizing w ms with
  | nil => exact ⟨w, ms, .nil, hw⟩
  | cons op ops ih =>
      obtain ⟨hop, hrest⟩ := hops
      obtain ⟨w1, r, ms1, hexec, hans, hw1⟩ := exec_spec hsep hw hop
      obtain ⟨w', ms', hrun, hw'⟩ := ih hw1 (hrest w1 r hexec)
      exact ⟨w', ms', .cons hexec hans hrun, hw'⟩

-- Any sequence of calls, each on any version built so far, answers as the finite maps
-- do, and in the end every version, old or new, shows its own map.
theorem persistent_dict_refines_finite_maps (hsep : Separated K) (ops : List (Op K V))
    (hops : AllowedRun ⟨[], []⟩ ops) :
    ∃ (w : World K V) (ms : List (FiniteMap K V)), Run ⟨[], []⟩ [] ops w ms ∧
      List.Forall₂ (Shows w.heap) w.versions ms := by
  obtain ⟨w, ms, hrun, hw⟩ := run_spec hsep ops (show Maps ⟨[], []⟩ [] from .nil) hops
  exact ⟨w, ms, hrun, hw.imp fun _ _ hold => hold.shows⟩

section Witness

-- Two keys whose ids differ only from the second digit on.
instance boolIdentity : Identity Bool := ⟨fun b => if b then 32 else 0, fun x _ => x⟩

theorem separated_bool : Separated Bool := by
  intro key key' hne
  refine ⟨1, ?_⟩
  have hdigit : ∀ key : Bool, digit 1 key = if key then 1 else 0 := by decide
  rw [hdigit, hdigit]
  cases key <;> cases key' <;> simp at hne ⊢

theorem persistent_dict_refines_finite_maps_grow :
    ∃ (w : World Bool ℕ) (ms : List (FiniteMap Bool ℕ)),
      Run ⟨[], []⟩ [] [.init true 1, .set 0 false 2] w ms ∧ List.Forall₂ (Shows w.heap) w.versions ms := by
  refine persistent_dict_refines_finite_maps separated_bool _ ⟨trivial, fun w r h => ?_⟩
  cases h
  exact ⟨Nat.zero_lt_one, fun _ _ _ => trivial⟩

end Witness

end Joolia.HashArrayMappedTries
