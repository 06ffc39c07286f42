import Joolia.Base.Hamt.Rep

namespace Joolia.HashArrayMappedTries

open Sparse

variable {K V : Type}

-- The objects before `ref` are unchanged.
def Below (ref : ℕ) (heap heap' : Heap K V) : Prop := ∀ i, i < ref → heap'[i]? = heap[i]?

-- An object allocated after `base`, whose children are still those of `base`.
structure Fresh (base heap : Heap K V) (ref : ℕ) (f : ℕ → Trie K V) (trie : HAMT K V)
    (g : ℕ → Option (Entry K V)) : Prop where
  ext : Extends base heap
  new : base.length ≤ ref
  get : heap[ref]? = some trie
  compressed : Compressed trie g
  child : ∀ b, b < 32 → Rep base (f b) (g b)

theorem lt_of_get {heap : Heap K V} {ref : ℕ} {trie : HAMT K V} (h : heap[ref]? = some trie) :
    ref < heap.length := by
  by_contra hge
  rw [List.getElem?_eq_none (by omega)] at h
  cases h

theorem Extends.of_below {base heap heap' : Heap K V} (hext : Extends base heap) {ref : ℕ}
    (hnew : base.length ≤ ref) (hbelow : Below ref heap heap') : Extends base heap' := by
  intro i trie hi
  rw [hbelow i (Nat.lt_of_lt_of_le (lt_of_get hi) hnew)]
  exact hext i trie hi

theorem Below.trans {ref ref' : ℕ} {heap heap' heap'' : Heap K V} (hle : ref ≤ ref')
    (h : Below ref heap heap') (h' : Below ref' heap' heap'') : Below ref heap heap'' := by
  intro i hi
  rw [h' i (by omega), h i hi]

theorem below_set (heap : Heap K V) (ref : ℕ) (trie : HAMT K V) : Below ref heap (heap.set ref trie) := by
  intro i hi
  rw [List.getElem?_set_ne (by omega)]

theorem extends_append (heap : Heap K V) (trie : HAMT K V) : Extends heap (heap ++ [trie]) := by
  intro i trie hi
  rwa [List.getElem?_append_left (lt_of_get hi)]

theorem get_append (heap : Heap K V) (trie : HAMT K V) : (heap ++ [trie])[heap.length]? = some trie := by
  rw [List.getElem?_append_right (Nat.le_refl _), Nat.sub_self]
  rfl

-- Allocating an object and storing into an older one.
theorem get_alloc {heap : Heap K V} {ref : ℕ} (href : ref < heap.length) (new trie : HAMT K V) :
    ((heap ++ [new]).set ref trie)[heap.length]? = some new ∧
      ((heap ++ [new]).set ref trie)[ref]? = some trie ∧
      Below ref heap ((heap ++ [new]).set ref trie) := by
  refine ⟨?_, ?_, fun i hi => ?_⟩
  · rw [List.getElem?_set_ne (by omega), get_append]
  · rw [List.getElem?_set_self (by rw [List.length_append]; omega)]
  · rw [List.getElem?_set_ne (by omega), List.getElem?_append_left (by omega)]

-- A node with one child exchanged.
theorem Fresh.rep_update {base heap heap' : Heap K V} {ref : ℕ} {f : ℕ → Trie K V} {trie : HAMT K V}
    {g : ℕ → Option (Entry K V)} (hfresh : Fresh base heap ref f trie g) (hbelow : Below ref heap heap')
    {b : ℕ} {c : Trie K V} {x : Option (Entry K V)} {trie' : HAMT K V} (hget : heap'[ref]? = some trie')
    (hc : Compressed trie' (Function.update g b x)) (hx : Rep heap' c x) :
    Rep heap' (.node (Function.update f b c)) (some (.trie ref)) := by
  refine ⟨ref, trie', _, rfl, hget, hc, fun b' hb' => ?_⟩
  by_cases heq : b' = b
  · rw [heq, Function.update_self, Function.update_self]
    exact hx
  · rw [Function.update_of_ne heq, Function.update_of_ne heq]
    exact (hfresh.child b' hb').extends (hfresh.ext.of_below hfresh.new hbelow)

theorem Fresh.rep {base heap : Heap K V} {ref : ℕ} {f : ℕ → Trie K V} {trie : HAMT K V}
    {g : ℕ → Option (Entry K V)} (hfresh : Fresh base heap ref f trie g) :
    Rep heap (.node f) (some (.trie ref)) :=
  ⟨ref, trie, g, rfl, hfresh.get, hfresh.compressed, fun b hb => (hfresh.child b hb).extends hfresh.ext⟩

-- Two leaves in one node.
theorem compressed_fork {bNew bOld : ℕ} (hNew : bNew < 32) (hOld : bOld < 32) (hne : bNew ≠ bOld)
    (new old : Entry K V) : Compressed (fork bNew bOld new old)
      (Function.update (Function.update (fun _ => none) bNew (some new)) bOld (some old)) := by
  have hfirst := compressed_empty.insert hNew (V := V) (K := K) rfl new
  refine hfirst.insert hOld ?_ old
  rw [Function.update_of_ne (Ne.symm hne)]

section Grow

variable [Identity K]

variable {key key' : K} (val val' : V) {heap : Heap K V} {present : Bool} {ref i d : ℕ}
  {trie : HAMT K V} {g : ℕ → Option (Entry K V)}

-- The node with the new trie stored in the slot of the key.
def grown (trie : HAMT K V) (present : Bool) (i bi newTrie : ℕ) : HAMT K V :=
  set (if present then { trie with data := trie.data.set i (.trie newTrie) }
    else { trie with data := trie.data.insertIdx (entryIndex trie bi) (.trie newTrie) }) bi

-- Where the loop can store: the slot holds the old leaf, or it is free.
def Storable (trie : HAMT K V) (g : ℕ → Option (Entry K V)) (present : Bool) (i bi : ℕ) : Prop :=
  if present then i = entryIndex trie bi ∧ ∃ x, g bi = some x else g bi = none

omit [Identity K] in
theorem Storable.compressed {bi : ℕ} (hbi : bi < 32) (hc : Compressed trie g)
    (hslot : Storable trie g present i bi) (newTrie : ℕ) :
    Compressed (grown trie present i bi newTrie) (Function.update g bi (some (.trie newTrie))) := by
  cases present with
  | true =>
      obtain ⟨rfl, x, hx⟩ := hslot
      exact (hc.replace hbi hx _).set_of_some hbi (Function.update_self _ _ _)
  | false => exact hc.insert hbi hslot _

-- What the loop has done when it ends.
def Grown (key key' : K) (val val' : V) (d : ℕ) (heap : Heap K V) (ref : ℕ) (g : ℕ → Option (Entry K V))
    (heap' : Heap K V) : Prop :=
  Below ref heap heap' ∧
    (∃ trie', heap'[ref]? = some trie' ∧
      Compressed trie' (Function.update g (digit d key) (some (.trie heap.length)))) ∧
    ∃ t, Rep heap' t (some (.trie heap.length)) ∧ Trie.Routed 32 digit (d + 1) t ∧
      (Trie.bindings 32 t).Perm [(key, val), (key', val')]

theorem growLoop_fork (hne : digit (d + 1) key ≠ digit (d + 1) key') (hget : heap[ref]? = some trie)
    (hc : Compressed trie g) (hslot : Storable trie g present i (digit d key)) :
    ∃ heap', growLoop heap present ref i (digit d key) (HashState.atDepth d key)
        (HashState.atDepth d key') (.leaf key' val') val = some heap' ∧
      Grown key key' val val' d heap ref g heap' := by
  have href := lt_of_get hget
  have hb := digit_lt (d + 1) key
  have hb' := digit_lt (d + 1) key'
  obtain ⟨hnew, hold, hbelow⟩ := get_alloc href HAMT.empty (grown trie present i (digit d key) heap.length)
  have htwo := compressed_fork hb hb' hne (.leaf (HashState.atDepth (d + 1) key).key val) (.leaf key' val')
  generalize htrie2 : fork (digit (d + 1) key) (digit (d + 1) key')
    (.leaf (HashState.atDepth (d + 1) key).key val) (.leaf key' val') = trie2 at htwo
  refine ⟨((heap ++ [HAMT.empty]).set ref (grown trie present i (digit d key) heap.length)).set heap.length trie2,
    ?_, hbelow.trans (Nat.le_of_lt href) (below_set _ _ _),
    ⟨_, (below_set _ _ _ ref href).trans hold, hslot.compressed (digit_lt d key) hc _⟩,
    .node (Function.update (Function.update (fun _ => .none) (digit (d + 1) key) (.leaf key val))
      (digit (d + 1) key') (.leaf key' val')), ?_, ?_, Trie.perm_pair hb hb' hne _ _⟩
  · rw [growLoop_eq, growStep, hget]
    simp only [Option.bind_eq_bind, Option.bind_some]
    rw [← htrie2]
    exact if_neg hne
  · refine ⟨heap.length, _, _, rfl, List.getElem?_set_self (lt_of_get hnew), htwo, fun b _ => ?_⟩
    by_cases h' : b = digit (d + 1) key'
    · rw [h', Function.update_self, Function.update_self]
      rfl
    · rw [Function.update_of_ne h', Function.update_of_ne h']
      by_cases h : b = digit (d + 1) key
      · rw [h, Function.update_self, Function.update_self]
        exact congrArg (fun k => some (Entry.leaf k val)) (key_atDepth (d + 1) key)
      · rw [Function.update_of_ne h, Function.update_of_ne h]
        rfl
  · have hfirst : Trie.Routed 32 digit (d + 1)
        (.node (Function.update (fun _ => .none) (digit (d + 1) key) (.leaf key val))) :=
      Trie.routed_nil.update Trie.routed_leaf fun a ha => by rw [List.mem_singleton.1 ha]
    exact hfirst.update Trie.routed_leaf fun a ha => by rw [List.mem_singleton.1 ha]

-- The loop of `insert!` ends at the first depth where the digits of the keys differ, and
-- the slot then leads to a trie with the two bindings.
theorem growLoop_spec (n : ℕ) (hsep : digit (d + 1 + n) key ≠ digit (d + 1 + n) key')
    (hget : heap[ref]? = some trie) (hc : Compressed trie g)
    (hslot : Storable trie g present i (digit d key)) :
    ∃ heap', growLoop heap present ref i (digit d key) (HashState.atDepth d key)
        (HashState.atDepth d key') (.leaf key' val') val = some heap' ∧
      Grown key key' val val' d heap ref g heap' := by
  induction n generalizing heap present ref i d trie g with
  | zero => exact growLoop_fork val val' hsep hget hc hslot
  | succ n ih =>
      by_cases heq : digit (d + 1) key = digit (d + 1) key'
      · have href := lt_of_get hget
        have hb := digit_lt (d + 1) key
        obtain ⟨hnew, hold, hbelow⟩ := get_alloc href HAMT.empty (grown trie present i (digit d key) heap.length)
        rw [show d + 1 + (n + 1) = d + 1 + 1 + n by omega] at hsep
        obtain ⟨heap', hrun, hbelow', ⟨trie', hget', hc'⟩, t, hrep, hrouted, hperm⟩ :=
          ih hsep hnew compressed_empty (show Storable _ _ false i _ from rfl)
        refine ⟨heap', ?_, hbelow.trans (Nat.le_of_lt href) hbelow',
          ⟨_, (hbelow' ref href).trans hold, hslot.compressed (digit_lt d key) hc _⟩,
          .node (Function.update (fun _ => .none) (digit (d + 1) key) t), ?_, ?_,
          (Trie.perm_single hb t).trans hperm⟩
        · rw [growLoop_eq, growStep, hget]
          simp only [Option.bind_eq_bind, Option.bind_some]
          exact (if_pos heq).trans hrun
        · refine ⟨heap.length, trie', _, rfl, hget', hc', fun b _ => ?_⟩
          by_cases h : b = digit (d + 1) key
          · rw [h, Function.update_self, Function.update_self]
            exact hrep
          · rw [Function.update_of_ne h, Function.update_of_ne h]
            rfl
        · refine Trie.routed_nil.update hrouted fun a ha => ?_
          have hmem := hperm.mem_iff.1 ha
          simp only [List.mem_cons, List.not_mem_nil, or_false] at hmem
          rcases hmem with rfl | rfl
          · rfl
          · exact heq.symm
      · exact growLoop_fork val val' heq hget hc hslot

end Grow

section Copy

variable [Identity K] [DecidableEq K]

-- What `path` finds at the end of its walk.
def endFlags (key : K) (c : Trie K V) : Bool × Bool :=
  match c with
  | .none => (true, false)
  | .leaf k _ => (decide (k = key), true)
  | .node _ => (false, false)

-- Path copying: what `act` does to the copy of the last node of the path, the whole
-- call does to the copy of the trie.
theorem pathLoop_copy {α : Type} {base : Heap K V} (key : K) (act : Heap K V → Path K → Option (Heap K V × α))
    (P : ℕ → Trie K V → Prop) (Q : ℕ → Trie K V → Trie K V → α → Prop)
    (hstep : ∀ d f f1, P d (.node f) → f (digit d key) = .node f1 → P (d + 1) (.node f1))
    (hend : ∀ heap ref d f trie g, Fresh base heap ref f trie g → P d (.node f) →
      (∀ f', f (digit d key) ≠ .node f') →
      ∃ heap' t' out, act heap ⟨(endFlags key (f (digit d key))).1, (endFlags key (f (digit d key))).2, ref,
          entryIndex trie (digit d key), digit d key, HashState.atDepth d key⟩ = some (heap', out) ∧
        Below ref heap heap' ∧ Rep heap' t' (some (.trie ref)) ∧ Q d (.node f) t' out)
    (hgraft : ∀ d f f1 t' out, P d (.node f) → f (digit d key) = .node f1 → Q (d + 1) (.node f1) t' out →
      Q d (.node f) (.node (Function.update f (digit d key) t')) out)
    {t : Trie K V} {heap : Heap K V} {ref d : ℕ} {f : ℕ → Trie K V} {trie : HAMT K V}
    {g : ℕ → Option (Entry K V)} (ht : t = .node f) (hfresh : Fresh base heap ref f trie g)
    (hP : P d (.node f)) :
    ∃ heap' t' out, (pathLoop true heap ref (HashState.atDepth d key)).bind (fun r => act r.1 r.2) =
        some (heap', out) ∧
      Below ref heap heap' ∧ Rep heap' t' (some (.trie ref)) ∧ Q d (.node f) t' out := by
  induction t generalizing heap ref d f trie g with
  | none => cases ht
  | leaf k v => cases ht
  | node f0 ih =>
      cases ht
      have hlt := digit_lt d key
      have hset := hfresh.compressed.isset_eq hlt
      have hrep := hfresh.child _ hlt
      rw [pathLoop_eq, pathStep, hfresh.get]
      simp only [Option.bind_eq_bind, Option.bind_some]
      rw [show bitmapIndex (HashState.atDepth d key) = digit d key from rfl, hset]
      cases hchild : f0 (digit d key) with
      | none =>
          rw [hchild] at hrep
          have hend' := hend heap ref d f0 trie g hfresh hP (fun f' h => by rw [hchild] at h; cases h)
          rw [hchild] at hend'
          rw [show g (digit d key) = none from hrep]
          exact hend'
      | leaf k v =>
          rw [hchild] at hrep
          have hend' := hend heap ref d f0 trie g hfresh hP (fun f' h => by rw [hchild] at h; cases h)
          rw [hchild] at hend'
          have hg : g (digit d key) = some (.leaf k v) := hrep
          rw [hg, hfresh.compressed.getElem? hlt hg]
          simp only [Option.isSome_some, if_true, Option.bind_some, key_atDepth]
          exact hend'
      | node f1 =>
          rw [hchild] at hrep
          obtain ⟨sub, subtrie, g1, hg, hsub, hc1, hchild1⟩ := hrep
          rw [hg, hfresh.compressed.getElem? hlt hg]
          simp only [Option.isSome_some, if_true, Option.bind_some, hfresh.ext sub subtrie hsub]
          obtain ⟨hnew, hold, hbelow⟩ := get_alloc (lt_of_get hfresh.get) ⟨subtrie.data, subtrie.bitmap⟩
            { trie with data := trie.data.set (entryIndex trie (digit d key)) (.trie heap.length) }
          have hfresh1 : Fresh base _ heap.length f1 subtrie g1 :=
            ⟨hfresh.ext.of_below hfresh.new hbelow,
              Nat.le_trans hfresh.new (Nat.le_of_lt (lt_of_get hfresh.get)), hnew, hc1, hchild1⟩
          obtain ⟨heap', t', out, hrun, hbelow', hrep', hQ⟩ := ih (digit d key) hchild hfresh1
            (hstep d f0 f1 hP hchild)
          refine ⟨heap', .node (Function.update f0 (digit d key) t'), out, hrun,
            hbelow.trans (Nat.le_of_lt (lt_of_get hfresh.get)) hbelow', ?_, ?_⟩
          · refine hfresh.rep_update (hbelow.trans (Nat.le_of_lt (lt_of_get hfresh.get)) hbelow') ?_
              (hfresh.compressed.replace hlt hg _) hrep'
            rw [hbelow' ref (lt_of_get hfresh.get), hold]
          · exact hgraft d f0 f1 t' out hP hchild hQ

end Copy

end Joolia.HashArrayMappedTries
