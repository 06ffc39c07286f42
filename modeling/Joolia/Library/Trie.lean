import Joolia.Library.Window
import Mathlib.Data.List.Nodup
import Mathlib.Data.List.Perm.Basic

-- A trie whose inner nodes branch on one digit of the key.
inductive Trie (K V : Type*)
  | none
  | leaf (key : K) (val : V)
  | node (child : ℕ → Trie K V)

namespace Trie

variable {K V : Type*}

-- The bindings in depth-first order; a node has the children `0, ..., n - 1`.
def bindings (n : ℕ) (t : Trie K V) : List (K × V) :=
  match t with
  | none => []
  | leaf key val => [(key, val)]
  | node f => (List.range n).flatMap fun b => bindings n (f b)

-- Every binding stands where the digits of its key lead, from depth `d` on.
def Routed (n : ℕ) (digit : ℕ → K → ℕ) (d : ℕ) (t : Trie K V) : Prop :=
  match t with
  | none => True
  | leaf _ _ => True
  | node f => ∀ b, b < n → Routed n digit (d + 1) (f b) ∧ ∀ a ∈ bindings n (f b), digit d a.1 = b

section Node

variable {n : ℕ} {f : ℕ → Trie K V} {b : ℕ}

theorem mem_node {a : K × V} : a ∈ bindings n (node f) ↔ ∃ b, b < n ∧ a ∈ bindings n (f b) := by
  simp only [bindings, List.mem_flatMap, List.mem_range]

theorem perm_node (hb : b < n) (c : Trie K V) :
    (bindings n (node (Function.update f b c))).Perm
      (bindings n c ++ bindings n (node (Function.update f b none))) := by
  have hsplit : ∀ c : Trie K V, bindings n (node (Function.update f b c)) =
      ((List.range b).flatMap fun k => bindings n (f k)) ++ (bindings n c ++
        (List.range' (b + 1) (n - (b + 1))).flatMap fun k => bindings n (f k)) := by
    intro c
    rw [bindings, Sparse.range_split hb, List.flatMap_append, List.flatMap_cons, Function.update_self]
    congr 1
    · refine List.flatMap_congr fun k hk => ?_
      rw [Function.update_of_ne (Nat.ne_of_lt (List.mem_range.1 hk))]
    · congr 1
      refine List.flatMap_congr fun k hk => ?_
      have := (List.mem_range'_1.1 hk).1
      rw [Function.update_of_ne (by omega)]
  rw [hsplit c, hsplit none, bindings, List.nil_append]
  exact List.perm_append_comm_assoc _ _ _

end Node

-- The value the digits of `key` lead to.
def lookup [DecidableEq K] (digit : ℕ → K → ℕ) (key : K) (d : ℕ) (t : Trie K V) : Option V :=
  match t with
  | none => Option.none
  | leaf k v => if k = key then some v else Option.none
  | node f => lookup digit key (d + 1) (f (digit d key))

theorem lookup_node [DecidableEq K] (digit : ℕ → K → ℕ) (key : K) (d : ℕ) (f : ℕ → Trie K V) :
    lookup digit key d (node f) = lookup digit key (d + 1) (f (digit d key)) := rfl

theorem lookup_eq_some [DecidableEq K] {n : ℕ} {digit : ℕ → K → ℕ} (hn : ∀ d k, digit d k < n) {key : K}
    {v : V} {d : ℕ} {t : Trie K V} (h : Routed n digit d t) :
    lookup digit key d t = some v ↔ (key, v) ∈ bindings n t := by
  induction t generalizing d with
  | none => simp [lookup, bindings]
  | leaf k w =>
      rw [lookup, bindings, List.mem_singleton, Prod.mk.injEq]
      by_cases hk : k = key
      · rw [if_pos hk, Option.some.injEq, eq_comm (a := key), eq_comm (a := v)]
        exact (and_iff_right hk).symm
      · rw [if_neg hk]
        exact ⟨nofun, fun heq => (hk heq.1.symm).elim⟩
  | node f ih =>
      rw [lookup_node, ih (digit d key) (h _ (hn d key)).1, mem_node]
      constructor
      · exact fun hmem => ⟨digit d key, hn d key, hmem⟩
      · rintro ⟨b, hb, hmem⟩
        rwa [(h b hb).2 _ hmem]

-- The bindings of the other keys.
def without [DecidableEq K] (key : K) (l : List (K × V)) : List (K × V) := l.filter fun a => a.1 ≠ key

-- The trie `t` with the binding of `key` replaced by `new`.
def Changed [DecidableEq K] (n : ℕ) (digit : ℕ → K → ℕ) (key : K) (new : List (K × V)) (d : ℕ)
    (t t' : Trie K V) : Prop :=
  Routed n digit d t' ∧ (bindings n t').Perm (new ++ without key (bindings n t))

section Graft

variable {n : ℕ} {digit : ℕ → K → ℕ} {d : ℕ} {f : ℕ → Trie K V} {c : Trie K V} {b : ℕ}

theorem Routed.update (h : Routed n digit d (node f)) (hc : Routed n digit (d + 1) c)
    (hkeys : ∀ a ∈ bindings n c, digit d a.1 = b) : Routed n digit d (node (Function.update f b c)) := by
  intro b' hb'
  by_cases heq : b' = b
  · subst heq
    rw [Function.update_self]
    exact ⟨hc, hkeys⟩
  · rw [Function.update_of_ne heq]
    exact h b' hb'

theorem routed_nil : Routed n digit d (node fun _ => (none : Trie K V)) := fun _ _ => ⟨trivial, nofun⟩

theorem routed_leaf {key : K} {val : V} : Routed n digit d (leaf key val) := trivial

theorem bindings_nil : bindings n (node fun _ => (none : Trie K V)) = [] := by
  rw [List.eq_nil_iff_forall_not_mem]
  intro a ha
  obtain ⟨b, -, hmem⟩ := mem_node.1 ha
  cases hmem

theorem perm_single (hb : b < n) (c : Trie K V) :
    (bindings n (node (Function.update (fun _ => none) b c))).Perm (bindings n c) := by
  have hperm := perm_node (f := fun _ => (none : Trie K V)) hb c
  rwa [Function.update_eq_self, bindings_nil, List.append_nil] at hperm

theorem perm_pair {b' : ℕ} (hb : b < n) (hb' : b' < n) (hne : b ≠ b') (c c' : Trie K V) :
    (bindings n (node (Function.update (Function.update (fun _ => none) b c) b' c'))).Perm
      (bindings n c ++ bindings n c') := by
  have hperm := perm_node (f := Function.update (fun _ => (none : Trie K V)) b c) hb' c'
  have hself : Function.update (Function.update (fun _ => (none : Trie K V)) b c) b' none =
      Function.update (fun _ => none) b c := by
    rw [Function.update_eq_iff]
    exact ⟨(Function.update_of_ne (Ne.symm hne) c fun _ => none).symm, fun _ _ => rfl⟩
  rw [hself] at hperm
  exact hperm.trans (((perm_single hb c).append_left _).trans List.perm_append_comm)

-- A change below the child that the digit of the key selects is a change of the node.
theorem Changed.graft [DecidableEq K] {key : K} {new : List (K × V)} (hn : digit d key < n)
    (hnew : ∀ a ∈ new, a.1 = key) (h : Routed n digit d (node f))
    (hc : Changed n digit key new (d + 1) (f (digit d key)) c) :
    Changed n digit key new d (node f) (node (Function.update f (digit d key) c)) := by
  obtain ⟨hrouted, hperm⟩ := hc
  have hrest : without key (bindings n (node (Function.update f (digit d key) none))) =
      bindings n (node (Function.update f (digit d key) none)) := by
    rw [without, List.filter_eq_self]
    intro a ha
    rw [decide_eq_true_eq]
    rintro rfl
    obtain ⟨b', hb', hmem⟩ := mem_node.1 ha
    by_cases heq : b' = digit d a.1
    · rw [heq, Function.update_self] at hmem
      cases hmem
    · rw [Function.update_of_ne heq] at hmem
      exact heq ((h b' hb').2 a hmem).symm
  refine ⟨h.update hrouted fun a ha => ?_, ?_⟩
  · rcases List.mem_append.1 (hperm.mem_iff.1 ha) with hmem | hmem
    · rw [hnew a hmem]
    · exact (h _ hn).2 a (List.mem_of_mem_filter hmem)
  · have hself : (bindings n (node f)).Perm (bindings n (f (digit d key)) ++
        bindings n (node (Function.update f (digit d key) none))) := by
      have := perm_node (f := f) hn (f (digit d key))
      rwa [Function.update_eq_self] at this
    have hwithout : (without key (bindings n (node f))).Perm (without key (bindings n (f (digit d key))) ++
        bindings n (node (Function.update f (digit d key) none))) := by
      rw [← hrest, without, without, without, ← List.filter_append]
      exact hself.filter _
    refine (perm_node hn c).trans ((hperm.append_right _).trans ?_)
    rw [List.append_assoc]
    exact hwithout.symm.append_left new

end Graft

end Trie
