import Joolia.Base.Hamt.Set
import Joolia.Library.Iteration

namespace Joolia.HashArrayMappedTries

open Sparse Iteration

variable {K V : Type}

section Walk

variable [Identity K] [DecidableEq K]

-- Where the walk for `key` from a trie ends.
structure Reached (heap : Heap K V) (key : K) (d : ℕ) (t : Trie K V) (p : Path K) (trie : HAMT K V)
    (c : Trie K V) : Prop where
  get : heap[p.trie]? = some trie
  flags : (p.found, p.present) = endFlags key c
  entry : ∀ k v, c = .leaf k v → trie.data[p.i]? = some (.leaf k v)
  lookup : Trie.lookup digit key d t = Trie.lookup digit key (p.h.depth + 1) c
  collision : Collision key d t ↔ ∃ k v, c = .leaf k v ∧ k ≠ key ∧
    (HashState.atDepth p.h.depth k).hash = p.h.hash
  not_node : ∀ f, c ≠ .node f

theorem pathLoop_read {heap : Heap K V} (key : K) {t : Trie K V} {ref d : ℕ}
    (hrep : Rep heap t (some (.trie ref))) :
    ∃ p trie c, pathLoop false heap ref (HashState.atDepth d key) = some (heap, p) ∧
      Reached heap key d t p trie c := by
  induction t generalizing ref d with
  | none => cases hrep
  | leaf k v => cases hrep
  | node f ih =>
      obtain ⟨_, trie, g, heq, hget, hc, hchild⟩ := hrep
      cases heq
      have hlt := digit_lt d key
      have hrep := hchild _ hlt
      rw [pathLoop_eq, pathStep, hget]
      simp only [Option.bind_eq_bind, Option.bind_some]
      rw [show bitmapIndex (HashState.atDepth d key) = digit d key from rfl, hc.isset_eq hlt]
      cases hf : f (digit d key) with
      | none =>
          rw [hf] at hrep
          rw [show g (digit d key) = none from hrep]
          refine ⟨_, trie, .none, rfl, hget, rfl, fun _ _ h => (by cases h), ?_, ?_, fun _ h => (by cases h)⟩
          · rw [Trie.lookup_node, hf, depth_atDepth]
          · constructor
            · exact fun h => (not_collision_of_none hf h).elim
            · rintro ⟨_, _, h, _⟩
              cases h
      | leaf k v =>
          rw [hf] at hrep
          have hg : g (digit d key) = some (.leaf k v) := hrep
          rw [hg, hc.getElem? hlt hg]
          simp only [Option.isSome_some, if_true, Option.bind_some, key_atDepth]
          refine ⟨_, trie, .leaf k v, rfl, hget, rfl, fun k' v' h => ?_, ?_, ?_, fun _ h => (by cases h)⟩
          · cases h
            exact hc.getElem? hlt hg
          · rw [Trie.lookup_node, hf, depth_atDepth]
          · rw [collision_of_leaf hf, depth_atDepth]
            constructor
            · exact fun h => ⟨k, v, rfl, h⟩
            · rintro ⟨_, _, h, hk⟩
              cases h
              exact hk
      | node f1 =>
          rw [hf] at hrep
          obtain ⟨sub, subtrie, g1, hg, hsub, hc1, hchild1⟩ := hrep
          rw [hg, hc.getElem? hlt hg]
          simp only [Option.isSome_some, if_true, Option.bind_some, Bool.false_eq_true, if_false]
          obtain ⟨p, trie', c, hrun, hreached⟩ := ih (digit d key) (d := d + 1)
            (show Rep heap (f (digit d key)) (some (.trie sub)) by rw [hf]; exact ⟨sub, subtrie, g1, rfl, hsub, hc1, hchild1⟩)
          rw [hf] at hreached
          refine ⟨p, trie', c, hrun, hreached.get, hreached.flags, hreached.entry, ?_, ?_, hreached.not_node⟩
          · rw [Trie.lookup_node, hf, hreached.lookup]
          · rw [collision_of_node hf, hreached.collision]

-- `KeyValue.get` reads the binding of the key.
theorem keyvalueget_spec {heap : Heap K V} {dict : ℕ} {t : Trie K V} (h : Version heap dict t) (key : K) :
    keyvalueget heap dict key = some (Trie.lookup digit key 0 t) := by
  obtain ⟨f, rfl⟩ := h.rep.eq_node
  obtain ⟨_, trie, g, heq, hget, hc, hchild⟩ := id h.rep
  cases heq
  simp only [keyvalueget, hget, Option.bind_eq_bind, Option.bind_some]
  by_cases hempty : islevelEmpty trie = true
  · rw [if_pos hempty, Trie.lookup_node]
    have hrep := hchild _ (digit_lt 0 key)
    rw [hc.eq_none_of_islevelEmpty hempty (digit_lt 0 key)] at hrep
    cases hf : f (digit 0 key) with
    | none => rfl
    | leaf k v =>
        rw [hf] at hrep
        cases hrep
    | node f' =>
        rw [hf] at hrep
        obtain ⟨_, _, _, heq, -⟩ := hrep
        cases heq
  · rw [if_neg hempty, show HashState.ofKey key = HashState.atDepth 0 key from rfl]
    obtain ⟨p, trie', c, hrun, hreached⟩ := pathLoop_read key h.rep (d := 0)
    rw [hrun, hreached.lookup]
    simp only [Option.bind_some]
    have hflags := hreached.flags
    cases c with
    | none =>
        rw [(Prod.mk.inj hflags).2, Bool.and_false]
        rfl
    | leaf k v =>
        obtain ⟨hfound, hpresent⟩ := Prod.mk.inj hflags
        rw [hfound, hpresent, hreached.get]
        simp only [Option.bind_some, hreached.entry k v rfl, Bool.and_true, decide_eq_true_eq, Trie.lookup]
        split <;> rfl
    | node f' => exact (hreached.not_node f' rfl).elim

-- The insertion of `key` meets another key with an equal hash at the level where the
-- walk ends.
def Collides (heap : Heap K V) (dict : ℕ) (key : K) : Prop :=
  ∃ p node k v, pathLoop false heap dict (.ofKey key) = some (heap, p) ∧ p.present = true ∧
    heap[p.trie]? = some node ∧ node.data[p.i]? = some (.leaf k v) ∧ k ≠ key ∧
    (HashState.atDepth p.h.depth k).hash = p.h.hash

theorem collides_iff {heap : Heap K V} {dict : ℕ} {t : Trie K V} (h : Version heap dict t) (key : K) :
    Collides heap dict key ↔ Collision key 0 t := by
  obtain ⟨p, trie, c, hrun, hreached⟩ := pathLoop_read key h.rep (d := 0)
  have hflags := hreached.flags
  rw [hreached.collision]
  constructor
  · rintro ⟨p', node, k, v, hrun', hpresent, hget, hentry, hk⟩
    rw [show HashState.ofKey key = HashState.atDepth 0 key from rfl, hrun] at hrun'
    cases hrun'
    rw [hreached.get] at hget
    cases hget
    cases c with
    | none =>
        have habsent : p.present = false := (Prod.mk.inj hflags).2
        rw [hpresent] at habsent
        cases habsent
    | leaf k' v' =>
        rw [hreached.entry k' v' rfl] at hentry
        cases hentry
        exact ⟨k, v, rfl, hk⟩
    | node f => exact (hreached.not_node f rfl).elim
  · rintro ⟨k, v, rfl, hk⟩
    exact ⟨p, trie, k, v, hrun, (Prod.mk.inj hflags).2, hreached.get, hreached.entry k v rfl, hk⟩

end Walk

section Traverse

variable {heap : Heap K V}

-- `length` adds up the bindings of the children.
theorem length_spec {t : Trie K V} {ref : ℕ} (hrep : Rep heap t (some (.trie ref))) :
    length heap ref = some (Trie.bindings 32 t).length := by
  induction t generalizing ref with
  | none => cases hrep
  | leaf k v => cases hrep
  | node f ih =>
      obtain ⟨_, trie, g, heq, hget, hc, hchild⟩ := hrep
      cases heq
      have hfold : ∀ (bs : List ℕ) (sum : ℕ), (∀ b ∈ bs, Rep heap (f b) (g b)) →
          (bs.filterMap g).foldlM (lengthEntry (length heap)) sum =
            some (sum + (bs.flatMap fun b => Trie.bindings 32 (f b)).length) := by
        intro bs
        induction bs with
        | nil => exact fun sum _ => rfl
        | cons b bs ihbs =>
            intro sum hbs
            have hrep := hbs b List.mem_cons_self
            have hrest := fun sum => ihbs sum fun b' hb' => hbs b' (List.mem_cons_of_mem _ hb')
            rw [List.filterMap_cons, List.flatMap_cons, List.length_append, ← Nat.add_assoc]
            cases hf : f b with
            | none =>
                rw [hf] at hrep
                rw [show g b = none from hrep]
                exact hrest sum
            | leaf k v =>
                rw [hf] at hrep
                rw [show g b = some (.leaf k v) from hrep]
                exact hrest (sum + 1)
            | node f1 =>
                have hsub := hrep
                rw [hf] at hrep
                obtain ⟨sub, subtrie, g1, hg, hrep⟩ := hrep
                rw [hg] at hsub ⊢
                have hlen := ih b hsub
                rw [hf] at hlen
                simp only [List.foldlM_cons, lengthEntry, hlen, Option.bind_eq_bind, Option.bind_some]
                exact hrest _
      rw [length_eq, lengthStep, hget]
      simp only [Option.bind_eq_bind, Option.bind_some, hc.data, sparse]
      have := hfold (List.range 32) 0 fun b hb => hchild b (List.mem_range.1 hb)
      rwa [Nat.zero_add] at this

-- The depth-first walk yields the bindings of a trie, then goes on in its parent.
theorem iterate_spec {t : Trie K V} {ref : ℕ} (hrep : Rep heap t (some (.trie ref))) {parent : List (ℕ × ℕ)}
    {xs : List (K × V)} (hparent : Drains (iterate heap) parent xs) :
    Drains (iterate heap) ((ref, 0) :: parent) (Trie.bindings 32 t ++ xs) := by
  induction t generalizing ref parent xs with
  | none => cases hrep
  | leaf k v => cases hrep
  | node f ih =>
      obtain ⟨_, trie, g, heq, hget, hc, hchild⟩ := hrep
      cases heq
      -- By induction on the slots not yet visited.
      have hfrom : ∀ post pre, List.range 32 = pre ++ post →
          Drains (iterate heap) ((ref, (pre.filterMap g).length) :: parent)
            ((post.flatMap fun b => Trie.bindings 32 (f b)) ++ xs) := by
        intro post
        induction post with
        | nil =>
            intro pre hpre
            rw [List.append_nil] at hpre
            refine hparent.congr ?_
            rw [iterate_eq]
            simp only [iterateStep, hget, Option.bind_eq_bind, Option.bind_some, hc.data, sparse, hpre,
              List.getElem?_eq_none (Nat.le_refl _)]
        | cons b post ihpost =>
            intro pre hpre
            have hb : b < 32 := List.mem_range.1 (by rw [hpre]; simp)
            have hrest := ihpost (pre ++ [b]) (by rw [hpre, List.append_assoc]; rfl)
            have hrep := hchild b hb
            rw [List.filterMap_append, List.length_append] at hrest
            rw [List.flatMap_cons, List.append_assoc]
            have hdata : ∀ x, g b = some x → trie.data[(pre.filterMap g).length]? = some x := by
              intro x hx
              rw [hc.data, sparse, hpre, List.filterMap_append, List.getElem?_append_right (Nat.le_refl _),
                Nat.sub_self, List.filterMap_cons, hx]
              rfl
            cases hf : f b with
            | none =>
                rw [hf] at hrep
                rw [List.filterMap_cons, show g b = none from hrep] at hrest
                exact hrest
            | leaf k v =>
                rw [hf] at hrep
                have hg : g b = some (.leaf k v) := hrep
                rw [List.filterMap_cons, hg] at hrest
                refine .step ?_ hrest
                rw [iterate_eq]
                simp only [iterateStep, hget, Option.bind_eq_bind, Option.bind_some, hdata _ hg]
                rfl
            | node f1 =>
                have hsub := hrep
                rw [hf] at hrep
                obtain ⟨sub, subtrie, g1, hg, hrep⟩ := hrep
                rw [List.filterMap_cons, hg] at hrest
                rw [hg] at hsub
                have hinner := ih b hsub hrest
                rw [hf] at hinner
                refine hinner.congr ?_
                rw [iterate_eq]
                simp only [iterateStep, hget, Option.bind_eq_bind, Option.bind_some, hdata _ hg]
                rfl
      exact hfrom (List.range 32) [] rfl

end Traverse

end Joolia.HashArrayMappedTries
