import Joolia.Base.Hamt.Update

namespace Joolia.HashArrayMappedTries

variable {K V : Type} [Identity K]

-- The digits of two keys differ at some depth.
def Separated (K : Type) [Identity K] : Prop := ∀ key key' : K, key ≠ key' → ∃ d, digit d key ≠ digit d key'

-- A part of a trie on the walk for `key`: its keys share the digits walked so far.
structure Under (key : K) (d : ℕ) (t : Trie K V) : Prop where
  routed : Trie.Routed 32 digit d t
  shared : ∀ a ∈ Trie.bindings 32 t, ∀ e, e < d → digit e a.1 = digit e key

theorem Under.step {key : K} {d : ℕ} {f f1 : ℕ → Trie K V} (h : Under key d (.node f))
    (hf : f (digit d key) = .node f1) : Under key (d + 1) (.node f1) := by
  have hlt := digit_lt d key
  obtain ⟨hrouted, hdigit⟩ := h.routed _ hlt
  rw [hf] at hrouted hdigit
  refine ⟨hrouted, fun a ha e he => ?_⟩
  by_cases heq : e = d
  · rw [heq, hdigit a ha]
  · exact h.shared a (Trie.mem_node.2 ⟨_, hlt, by rw [hf]; exact ha⟩) e (by omega)

-- The other key in the slot of `key` differs from it only further down.
theorem Under.lt_of_leaf {key k : K} {v : V} {d e : ℕ} {f : ℕ → Trie K V} (h : Under key d (.node f))
    (hf : f (digit d key) = .leaf k v) (hne : digit e key ≠ digit e k) : d < e := by
  have hlt := digit_lt d key
  have hmem : (k, v) ∈ Trie.bindings 32 (f (digit d key)) := by
    rw [hf]
    exact List.mem_singleton_self _
  by_contra hge
  by_cases heq : e = d
  · exact hne (by rw [heq, (h.routed _ hlt).2 _ hmem])
  · exact hne (h.shared _ (Trie.mem_node.2 ⟨_, hlt, hmem⟩) e (by omega)).symm

-- The walk for `key` ends at the leaf of another key with the same hash.
def Collision (key : K) (d : ℕ) (t : Trie K V) : Prop :=
  match t with
  | .node f => (∃ k v, f (digit d key) = .leaf k v ∧ k ≠ key ∧
      (HashState.atDepth d k).hash = (HashState.atDepth d key).hash) ∨ Collision key (d + 1) (f (digit d key))
  | _ => False

theorem collision_of_node {key : K} {d : ℕ} {f f1 : ℕ → Trie K V} (h : f (digit d key) = .node f1) :
    Collision key d (.node f) ↔ Collision key (d + 1) (.node f1) := by
  rw [Collision, h]
  exact or_iff_right fun ⟨k, v, heq, _⟩ => nomatch heq

theorem collision_of_leaf {key : K} {d : ℕ} {f : ℕ → Trie K V} {k : K} {v : V}
    (h : f (digit d key) = .leaf k v) : Collision key d (.node f) ↔
      k ≠ key ∧ (HashState.atDepth d k).hash = (HashState.atDepth d key).hash := by
  rw [Collision, h]
  constructor
  · rintro (⟨k', v', heq, hk⟩ | hfalse)
    · cases heq
      exact hk
    · exact hfalse.elim
  · exact fun hk => .inl ⟨k, v, rfl, hk⟩

theorem not_collision_of_none {key : K} {d : ℕ} {f : ℕ → Trie K V} (h : f (digit d key) = .none) :
    ¬Collision key d (.node f) := by
  rw [Collision, h]
  rintro (⟨k, v, heq, -⟩ | hfalse)
  · cases heq
  · exact hfalse

variable [DecidableEq K]

section Set

-- A throw leaves the heap as it is.
def outcome (heap : Heap K V) (r : Except String (Heap K V)) : Heap K V × Except String Unit :=
  match r with
  | .ok heap' => (heap', .ok ())
  | .error err => (heap, .error err)

-- `insert!` on the copied path.
noncomputable def insertAct (val : V) (heap : Heap K V) (p : Path K) : Option (Heap K V × Except String Unit) :=
  (insert heap p val).map (outcome heap)

-- What `insert!` makes of a trie.
def SetDone (key : K) (val : V) (d : ℕ) (t t' : Trie K V) (out : Except String Unit) : Prop :=
  match out with
  | .ok _ => ¬Collision key d t ∧ Trie.Changed 32 digit key [(key, val)] d t t'
  | .error err => err = "Perfect hash collision" ∧ Collision key d t

theorem SetDone.graft {key : K} {val : V} {d : ℕ} {f f1 : ℕ → Trie K V} {t' : Trie K V}
    {out : Except String Unit} (hunder : Under key d (.node f)) (hf : f (digit d key) = .node f1)
    (hdone : SetDone key val (d + 1) (.node f1) t' out) :
    SetDone key val d (.node f) (.node (Function.update f (digit d key) t')) out := by
  cases out with
  | ok _ =>
      refine ⟨by rw [collision_of_node hf]; exact hdone.1,
        Trie.Changed.graft (digit_lt d key) (fun a ha => ?_) hunder.routed ?_⟩
      · rw [List.mem_singleton.1 ha]
      · rw [hf]
        exact hdone.2
  | error err => exact ⟨hdone.1, (collision_of_node hf).2 hdone.2⟩

variable {base heap : Heap K V} {ref d : ℕ} {f : ℕ → Trie K V} {trie : HAMT K V}
  {g : ℕ → Option (Entry K V)} (hfresh : Fresh base heap ref f trie g) (key : K) (val : V)
  (hunder : Under key d (.node f))
include hunder

-- A leaf with the binding of `key`, or a trie with two bindings, takes the slot.
theorem setDone_of_child {c : Trie K V} (hno : ¬Collision key d (.node f))
    (hc : Trie.Routed 32 digit (d + 1) c)
    (hperm : (Trie.bindings 32 c).Perm ((key, val) :: Trie.without key (Trie.bindings 32 (f (digit d key))))) :
    SetDone key val d (.node f) (.node (Function.update f (digit d key) c)) (.ok ()) := by
  refine ⟨hno, Trie.Changed.graft (digit_lt d key) (fun a ha => ?_) hunder.routed ⟨hc, hperm⟩⟩
  rw [List.mem_singleton.1 ha]

include hfresh

theorem insert_free (hchild : f (digit d key) = .none) :
    ∃ heap' t' out, insertAct val heap ⟨true, false, ref, entryIndex trie (digit d key), digit d key,
        HashState.atDepth d key⟩ = some (heap', out) ∧
      Below ref heap heap' ∧ Rep heap' t' (some (.trie ref)) ∧ SetDone key val d (.node f) t' out := by
  have hlt := digit_lt d key
  have hrep := hfresh.child _ hlt
  rw [hchild] at hrep
  refine ⟨_, .node (Function.update f (digit d key) (.leaf key val)), .ok (), ?_, below_set heap ref _,
    hfresh.rep_update (below_set heap ref _) (List.getElem?_set_self (lt_of_get hfresh.get))
      (hfresh.compressed.insert hlt hrep (.leaf key val)) rfl,
    setDone_of_child key val hunder (not_collision_of_none hchild) Trie.routed_leaf ?_⟩
  · simp only [insertAct, insert, hfresh.get, Option.bind_eq_bind, Option.bind_some, if_true, Option.map_some,
      key_atDepth, outcome]
    rfl
  · rw [hchild]
    exact .refl _

theorem insert_replace {v : V} (hchild : f (digit d key) = .leaf key v) :
    ∃ heap' t' out, insertAct val heap ⟨true, true, ref, entryIndex trie (digit d key), digit d key,
        HashState.atDepth d key⟩ = some (heap', out) ∧
      Below ref heap heap' ∧ Rep heap' t' (some (.trie ref)) ∧ SetDone key val d (.node f) t' out := by
  have hlt := digit_lt d key
  have hrep := hfresh.child _ hlt
  rw [hchild] at hrep
  refine ⟨_, .node (Function.update f (digit d key) (.leaf key val)), .ok (), ?_, below_set heap ref _,
    hfresh.rep_update (below_set heap ref _) (List.getElem?_set_self (lt_of_get hfresh.get))
      ((hfresh.compressed.replace hlt hrep (.leaf key val)).set_of_some hlt (Function.update_self _ _ _)) rfl,
    setDone_of_child key val hunder (by rw [collision_of_leaf hchild]; exact fun h => h.1 rfl) Trie.routed_leaf ?_⟩
  · simp only [insertAct, insert, hfresh.get, Option.bind_eq_bind, Option.bind_some, if_true, Option.map_some,
      key_atDepth, outcome]
  · rw [hchild]
    simp [Trie.bindings, Trie.without]

-- Another key in the slot: a perfect collision, or the trie grows.
theorem insert_grow (hsep : Separated K) {k : K} {v : V} (hchild : f (digit d key) = .leaf k v) (hne : k ≠ key) :
    ∃ heap' t' out, insertAct val heap ⟨false, true, ref, entryIndex trie (digit d key), digit d key,
        HashState.atDepth d key⟩ = some (heap', out) ∧
      Below ref heap heap' ∧ Rep heap' t' (some (.trie ref)) ∧ SetDone key val d (.node f) t' out := by
  have hlt := digit_lt d key
  have hrep := hfresh.child _ hlt
  rw [hchild] at hrep
  have hinsert : insert heap ⟨false, true, ref, entryIndex trie (digit d key), digit d key,
      HashState.atDepth d key⟩ val =
      if (HashState.atDepth d k).hash = (HashState.atDepth d key).hash then
        some (.error "Perfect hash collision")
      else (growLoop heap true ref (entryIndex trie (digit d key)) (digit d key) (HashState.atDepth d key)
        (HashState.atDepth d k) (.leaf k v) val).map .ok := by
    simp only [insert, hfresh.get, Option.bind_eq_bind, Option.bind_some,
      hfresh.compressed.getElem? hlt hrep, depth_atDepth]
    rfl
  rw [insertAct, hinsert]
  by_cases hhash : (HashState.atDepth d k).hash = (HashState.atDepth d key).hash
  · rw [if_pos hhash]
    exact ⟨heap, .node f, .error _, rfl, fun _ _ => rfl, hfresh.rep,
      rfl, (collision_of_leaf hchild).2 ⟨hne, hhash⟩⟩
  · rw [if_neg hhash]
    obtain ⟨e, hdig⟩ := hsep key k (Ne.symm hne)
    obtain ⟨n, rfl⟩ := Nat.exists_eq_add_of_le (hunder.lt_of_leaf hchild hdig)
    obtain ⟨heap', hgrow, hbelow, ⟨trie', hget', hc'⟩, t, ht, hrouted, hperm⟩ :=
      growLoop_spec val v n hdig hfresh.get hfresh.compressed
        (show Storable _ _ true _ _ from ⟨rfl, _, hrep⟩)
    refine ⟨heap', .node (Function.update f (digit d key) t), .ok (), by rw [hgrow]; rfl, hbelow,
      hfresh.rep_update hbelow hget' hc' ht,
      setDone_of_child key val hunder (by rw [collision_of_leaf hchild]; exact fun h => hhash h.2) hrouted ?_⟩
    rw [hchild]
    simpa [Trie.bindings, Trie.without, hne] using hperm

end Set

section Delete

-- What `_keyvalueset(dict, key)` does on the copied path.
def deleteAct (heap : Heap K V) (p : Path K) : Option (Heap K V × Unit) := do
  let node ← heap[p.trie]?
  if p.found && p.present then
    some (heap.set p.trie (unset { node with data := node.data.eraseIdx p.i } p.bi), ())
  else some (heap, ())

def DeleteDone (key : K) (d : ℕ) (t t' : Trie K V) (_ : Unit) : Prop := Trie.Changed 32 digit key [] d t t'

theorem deleteDone_of_child {key : K} {d : ℕ} {f : ℕ → Trie K V} {c : Trie K V} (hunder : Under key d (.node f))
    (hc : Trie.Changed 32 digit key [] (d + 1) (f (digit d key)) c) :
    DeleteDone key d (.node f) (.node (Function.update f (digit d key) c)) () :=
  Trie.Changed.graft (digit_lt d key) nofun hunder.routed hc

theorem deleteAct_spec {base heap : Heap K V} {ref d : ℕ} {f : ℕ → Trie K V} {trie : HAMT K V}
    {g : ℕ → Option (Entry K V)} (hfresh : Fresh base heap ref f trie g) (key : K)
    (hunder : Under key d (.node f)) (hend : ∀ f', f (digit d key) ≠ .node f') :
    ∃ heap' t' out, deleteAct heap ⟨(endFlags key (f (digit d key))).1, (endFlags key (f (digit d key))).2, ref,
        entryIndex trie (digit d key), digit d key, HashState.atDepth d key⟩ = some (heap', out) ∧
      Below ref heap heap' ∧ Rep heap' t' (some (.trie ref)) ∧ DeleteDone key d (.node f) t' out := by
  have hlt := digit_lt d key
  have hrep := hfresh.child _ hlt
  simp only [deleteAct, hfresh.get, Option.bind_eq_bind, Option.bind_some]
  cases hchild : f (digit d key) with
  | none =>
      refine ⟨heap, .node f, (), rfl, fun _ _ => rfl, hfresh.rep, ?_⟩
      have hdone := deleteDone_of_child hunder (c := .none) (by rw [hchild]; exact ⟨trivial, .refl _⟩)
      rwa [← hchild, Function.update_eq_self] at hdone
  | leaf k v =>
      rw [hchild] at hrep
      by_cases hk : k = key
      · subst hk
        refine ⟨_, .node (Function.update f (digit d k) .none), (), if_pos (by simp [endFlags]),
          below_set heap ref _, hfresh.rep_update (below_set heap ref _)
            (List.getElem?_set_self (lt_of_get hfresh.get)) (hfresh.compressed.erase hlt hrep) rfl,
          deleteDone_of_child hunder ?_⟩
        rw [hchild]
        refine ⟨trivial, ?_⟩
        simp [Trie.bindings, Trie.without]
      · refine ⟨heap, .node f, (), if_neg (by simp [endFlags, hk]), fun _ _ => rfl, hfresh.rep, ?_⟩
        have hdone := deleteDone_of_child hunder (c := .leaf k v) (by
          rw [hchild]
          refine ⟨trivial, ?_⟩
          simp [Trie.bindings, Trie.without, hk])
        rwa [← hchild, Function.update_eq_self] at hdone
  | node f' => exact (hend f' hchild).elim

theorem DeleteDone.graft {key : K} {d : ℕ} {f f1 : ℕ → Trie K V} {t' : Trie K V} {out : Unit}
    (hunder : Under key d (.node f)) (hf : f (digit d key) = .node f1)
    (h : DeleteDone key (d + 1) (.node f1) t' out) :
    DeleteDone key d (.node f) (.node (Function.update f (digit d key) t')) out := by
  refine deleteDone_of_child hunder ?_
  rw [hf]
  exact h

end Delete

-- A reference that stands for a trie with every binding in its place.
structure Version (heap : Heap K V) (dict : ℕ) (t : Trie K V) : Prop where
  rep : Rep heap t (some (.trie dict))
  routed : Trie.Routed 32 digit 0 t

omit [Identity K] [DecidableEq K] in
theorem Rep.eq_node {heap : Heap K V} {t : Trie K V} {dict : ℕ} (h : Rep heap t (some (.trie dict))) :
    ∃ f, t = .node f := by
  cases t with
  | none => cases h
  | leaf k v => cases h
  | node f => exact ⟨f, rfl⟩

omit [DecidableEq K] in
theorem Version.under {heap : Heap K V} {dict : ℕ} {t : Trie K V} (h : Version heap dict t) (key : K) :
    Under key 0 t := ⟨h.routed, fun _ _ e he => absurd he (Nat.not_lt_zero e)⟩

omit [DecidableEq K] in
-- The copy of the root.
theorem Version.fresh {heap : Heap K V} {dict : ℕ} {t : Trie K V} (h : Version heap dict t) :
    ∃ f trie g, t = .node f ∧ heap[dict]? = some trie ∧
      Fresh heap (heap ++ [⟨trie.data, trie.bitmap⟩]) heap.length f trie g := by
  obtain ⟨f, rfl⟩ := h.rep.eq_node
  obtain ⟨ref, trie, g, heq, hget, hc, hchild⟩ := h.rep
  cases heq
  exact ⟨f, trie, g, rfl, hget, extends_append heap _, Nat.le_refl _, get_append heap _, hc, hchild⟩

theorem keyvalueset_spec (hsep : Separated K) {heap : Heap K V} {dict : ℕ} {t : Trie K V}
    (h : Version heap dict t) (key : K) (val : V) :
    ∃ heap', Extends heap heap' ∧
      ((¬Collision key 0 t ∧ keyvalueset heap dict key val = some (heap', .ok heap.length) ∧
        ∃ t', Version heap' heap.length t' ∧
          (Trie.bindings 32 t').Perm ((key, val) :: Trie.without key (Trie.bindings 32 t))) ∨
      (Collision key 0 t ∧
        keyvalueset heap dict key val = some (heap', .error "Perfect hash collision"))) := by
  obtain ⟨f, trie, g, rfl, hget, hfresh⟩ := h.fresh
  obtain ⟨heap', t', out, hrun, hbelow, hrep, hdone⟩ := pathLoop_copy key (insertAct val) (Under key)
    (SetDone key val) (fun d f f1 hunder hf => hunder.step hf)
    (fun heap ref d f trie g hfresh hunder hend => by
      cases hchild : f (digit d key) with
      | none => exact insert_free hfresh key val hunder hchild
      | leaf k v =>
          by_cases hk : k = key
          · subst hk
            simpa [endFlags] using insert_replace hfresh k val hunder hchild
          · simpa [endFlags, hk] using insert_grow hfresh key val hunder hsep hchild hk
      | node f' => exact (hend f' hchild).elim)
    (fun d f f1 t' out hunder hf hdone => hdone.graft hunder hf) rfl hfresh (h.under key)
  have hext : Extends heap heap' := hfresh.ext.of_below (Nat.le_refl _) hbelow
  have hcall : keyvalueset heap dict key val = some (heap', out.map fun _ => heap.length) := by
    simp only [keyvalueset, pathCopy, hget, Option.bind_eq_bind, Option.bind_some]
    rw [show HashState.ofKey key = HashState.atDepth 0 key from rfl]
    cases hpath : pathLoop true (heap ++ [⟨trie.data, trie.bitmap⟩]) heap.length (HashState.atDepth 0 key) with
    | none =>
        rw [hpath] at hrun
        cases hrun
    | some r =>
        obtain ⟨heap1, p⟩ := r
        rw [hpath] at hrun
        simp only [Option.bind_some, insertAct] at hrun ⊢
        cases hins : insert heap1 p val with
        | none =>
            rw [hins] at hrun
            cases hrun
        | some r =>
            rw [hins] at hrun
            cases r with
            | ok heap2 =>
                cases hrun
                rfl
            | error err =>
                cases hrun
                rfl
  refine ⟨heap', hext, ?_⟩
  cases out with
  | ok _ => exact .inl ⟨hdone.1, hcall, t', ⟨hrep, hdone.2.1⟩, hdone.2.2⟩
  | error err => exact .inr ⟨hdone.2, by rw [hcall, hdone.1]; rfl⟩

theorem keyvaluedelete_spec {heap : Heap K V} {dict : ℕ} {t : Trie K V} (h : Version heap dict t) (key : K) :
    ∃ heap' t', keyvaluedelete heap dict key = some (heap', heap.length) ∧ Extends heap heap' ∧
      Version heap' heap.length t' ∧ (Trie.bindings 32 t').Perm (Trie.without key (Trie.bindings 32 t)) := by
  obtain ⟨f, trie, g, rfl, hget, hfresh⟩ := h.fresh
  obtain ⟨heap', t', out, hrun, hbelow, hrep, hdone⟩ := pathLoop_copy key deleteAct (Under key)
    (DeleteDone key) (fun d f f1 hunder hf => hunder.step hf)
    (fun heap ref d f trie g hfresh hunder hend => deleteAct_spec hfresh key hunder hend)
    (fun d f f1 t' out hunder hf hdone => hdone.graft hunder hf) rfl hfresh (h.under key)
  obtain ⟨hrouted, hperm⟩ := hdone
  refine ⟨heap', t', ?_, hfresh.ext.of_below (Nat.le_refl _) hbelow, ⟨hrep, hrouted⟩, hperm⟩
  simp only [keyvaluedelete, pathCopy, hget, Option.bind_eq_bind, Option.bind_some]
  rw [show HashState.ofKey key = HashState.atDepth 0 key from rfl]
  cases hpath : pathLoop true (heap ++ [⟨trie.data, trie.bitmap⟩]) heap.length (HashState.atDepth 0 key) with
  | none =>
      rw [hpath] at hrun
      cases hrun
  | some r =>
      obtain ⟨heap1, p⟩ := r
      rw [hpath] at hrun
      simp only [Option.bind_some, deleteAct, Option.bind_eq_bind] at hrun ⊢
      cases hnode : heap1[p.trie]? with
      | none =>
          rw [hnode] at hrun
          cases hrun
      | some node =>
          rw [hnode] at hrun
          simp only [Option.bind_some] at hrun ⊢
          split at hrun
          · rename_i hflags
            cases hrun
            rw [if_pos hflags]
          · rename_i hflags
            cases hrun
            rw [if_neg hflags]

end Joolia.HashArrayMappedTries
