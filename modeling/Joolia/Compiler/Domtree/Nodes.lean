import Joolia.Compiler.Domtree
import Mathlib.Data.Finset.Card
import Mathlib.Order.Interval.Finset.Nat

namespace Joolia.Compiler

open Loop OneBased

-- The root above a block in the forest of immediate dominators, and its level.
inductive Depth (idom : ℕ → ℕ) : ℕ → ℕ → ℕ → Prop
  | root {b : ℕ} : idom b = 0 → Depth idom b b 1
  | child {root b k : ℕ} : idom b ≠ 0 → Depth idom root (idom b) k → Depth idom root b (k + 1)

-- The immediate dominators of the blocks `1, ..., n` form a forest.
structure Rooted (n : ℕ) (idom rank : ℕ → ℕ) : Prop where
  le : ∀ b, 0 < b → b ≤ n → idom b ≤ n
  lt : ∀ b, 0 < b → b ≤ n → idom b ≠ 0 → rank (idom b) < rank b

theorem Depth.unique {idom : ℕ → ℕ} {root root' b k k' : ℕ} (h : Depth idom root b k) (h' : Depth idom root' b k') :
    root = root' ∧ k = k' := by
  induction h generalizing k' with
  | root h0 =>
      cases h' with
      | root _ => exact ⟨rfl, rfl⟩
      | child hne _ => exact (hne h0).elim
  | child hne _ ih =>
      cases h' with
      | root h0 => exact (hne h0).elim
      | child _ h' =>
          obtain ⟨rfl, rfl⟩ := ih h'
          exact ⟨rfl, rfl⟩

theorem Depth.idom_root {idom : ℕ → ℕ} {root b k : ℕ} (h : Depth idom root b k) : idom root = 0 := by
  induction h with
  | root h0 => exact h0
  | child _ _ ih => exact ih

theorem Depth.root_pos {idom : ℕ → ℕ} {root b k : ℕ} (h : Depth idom root b k) (hb : 0 < b) : 0 < root := by
  induction h with
  | root _ => exact hb
  | child hne _ ih => exact ih (Nat.pos_of_ne_zero hne)

theorem Rooted.exists_depth {n : ℕ} {idom rank : ℕ → ℕ} (h : Rooted n idom rank) {b : ℕ} (hb : 0 < b) (hbn : b ≤ n) :
    ∃ root k, Depth idom root b k ∧ 0 < root ∧ root ≤ n := by
  induction hrank : rank b using Nat.strong_induction_on generalizing b with
  | h m ih =>
      by_cases h0 : idom b = 0
      · exact ⟨b, 1, .root h0, hb, hbn⟩
      · obtain ⟨root, k, hd, hr⟩ := ih _ (hrank ▸ h.lt b hb hbn h0) (Nat.pos_of_ne_zero h0) (h.le b hb hbn) rfl
        exact ⟨root, k + 1, .child h0 hd, hr⟩

def childList (n : ℕ) (idom : ℕ → ℕ) (d : ℕ) : List ℕ := (List.range' 1 n).filter (idom · = d)

theorem mem_childList {n : ℕ} {idom : ℕ → ℕ} {d c : ℕ} : c ∈ childList n idom d ↔ (0 < c ∧ c ≤ n) ∧ idom c = d := by
  simp only [childList, List.mem_filter, List.mem_range'_1, decide_eq_true_eq]
  omega

-- The loop of `update_level!`: the processed nodes have their levels, and the children
-- of a processed node are processed or on the worklist.
structure Levelling (n : ℕ) (idom : ℕ → ℕ) (root : ℕ) (nodes : List DomTreeNode) (done : Finset ℕ)
    (s : List (ℕ × ℕ) × List DomTreeNode) : Prop where
  length : s.2.length = n
  children : ∀ b, (val s.2 b).children = (val nodes b).children
  range : ∀ x ∈ s.1, 0 < x.1 ∧ x.1 ≤ n
  depth : ∀ x ∈ s.1, Depth idom root x.1 x.2
  nodup : (s.1.map Prod.fst).Nodup
  fresh : ∀ x ∈ s.1, x.1 ∉ done
  done_range : done ⊆ Finset.Icc 1 n
  level : ∀ b ∈ done, Depth idom root b (val s.2 b).level
  frame : ∀ b, b ∉ done → (val s.2 b).level = (val nodes b).level
  start : root ∈ done ∨ root ∈ s.1.map Prod.fst
  closed : ∀ b ∈ done, ∀ c ∈ childList n idom b, c ∈ done ∨ c ∈ s.1.map Prod.fst
  parent : ∀ b, b ∈ done ∨ b ∈ s.1.map Prod.fst → b = root ∨ idom b ∈ done

section Levels

variable {n : ℕ} {idom rank : ℕ → ℕ} {root : ℕ} {nodes : List DomTreeNode}

theorem Levelling.step (hforest : Rooted n idom rank) (hroot : idom root = 0)
    (hchildren : ∀ b, 0 < b → b ≤ n → (val nodes b).children = childList n idom b) {done : Finset ℕ}
    {s : List (ℕ × ℕ) × List DomTreeNode} (h : Levelling n idom root nodes done s) (hne : s.1 ≠ []) :
    ∃ done' s', done'.card = done.card + 1 ∧ levelStep s = some s' ∧ Levelling n idom root nodes done' s' := by
  obtain ⟨_ | ⟨⟨b, level⟩, worklist⟩, current⟩ := s
  · exact (hne rfl).elim
  obtain ⟨hb, hbn⟩ := h.range _ List.mem_cons_self
  have hdepth := h.depth _ List.mem_cons_self
  have hfresh := h.fresh _ List.mem_cons_self
  have hnodup := h.nodup
  simp only [List.map_cons, List.nodup_cons] at hb hbn hdepth hfresh hnodup
  have hread := read_eq (l := current) hb (h.length.symm ▸ hbn)
  have hkids : (val current b).children = childList n idom b := (h.children b).trans (hchildren b hb hbn)
  obtain ⟨current', hwrite, hlen, hval⟩ := write_spec (l := current) hb (h.length.symm ▸ hbn)
    (⟨level, childList n idom b⟩ : DomTreeNode)
  have hself : val current' b = ⟨level, childList n idom b⟩ := by rw [hval, Function.update_self]
  have hother : ∀ c, c ≠ b → val current' c = val current c := fun c hc => by rw [hval, Function.update_of_ne hc]
  have hmem : ∀ c, c ∈ ((childList n idom b).reverse.map (·, level + 1) ++ worklist).map Prod.fst ↔
      c ∈ childList n idom b ∨ c ∈ worklist.map Prod.fst := by
    intro c
    simp [List.map_append, List.map_map, Function.comp_def]
  -- A child of `b` is new: its parent `b` was not processed before.
  have hnew : ∀ c ∈ childList n idom b, c ≠ b ∧ c ∉ done ∧ c ∉ worklist.map Prod.fst := by
    intro c hc
    obtain ⟨⟨hc0, hcn⟩, hcb⟩ := mem_childList.1 hc
    have hcb0 : idom c ≠ 0 := by omega
    have hnot : ¬(c ∈ done ∨ c ∈ ((b, level) :: worklist).map Prod.fst) := by
      intro hin
      rcases h.parent c hin with rfl | hin
      · exact hcb0 hroot
      · exact hfresh (hcb ▸ hin)
    rw [not_or] at hnot
    refine ⟨?_, hnot.1, fun hin => hnot.2 (List.mem_cons_of_mem _ hin)⟩
    rintro rfl
    have := hforest.lt c hc0 hcn hcb0
    rw [hcb] at this
    omega
  refine ⟨insert b done, ((childList n idom b).reverse.map (·, level + 1) ++ worklist, current'), ?_, ?_, ?_⟩
  · exact Finset.card_insert_of_notMem hfresh
  · simp [levelStep, hread, hkids, hwrite]
  · constructor
    case length => exact hlen.trans h.length
    case children =>
        intro c
        by_cases hc : c = b
        · rw [hc]
          simp only [hself]
          rw [← hkids]
          exact h.children b
        · simp only [hother c hc]
          exact h.children c
    case range =>
        intro x hx
        rcases List.mem_append.1 hx with hx | hx
        · obtain ⟨c, hc, rfl⟩ := List.mem_map.1 hx
          exact (mem_childList.1 (List.mem_reverse.1 hc)).1
        · exact h.range x (List.mem_cons_of_mem _ hx)
    case depth =>
        intro x hx
        rcases List.mem_append.1 hx with hx | hx
        · obtain ⟨c, hc, rfl⟩ := List.mem_map.1 hx
          have hcb := (mem_childList.1 (List.mem_reverse.1 hc)).2
          exact .child (by simp only; omega) (by simpa only [hcb] using hdepth)
        · exact h.depth x (List.mem_cons_of_mem _ hx)
    case nodup =>
        simp only [List.map_append, List.map_map, Function.comp_def, List.map_id']
        refine List.nodup_append.2 ⟨List.nodup_reverse.2 (List.Nodup.filter _ List.nodup_range'), hnodup.2, ?_⟩
        rintro c hc d hd rfl
        exact (hnew c (List.mem_reverse.1 hc)).2.2 hd
    case fresh =>
        intro x hx hin
        rcases List.mem_append.1 hx with hx | hx
        · obtain ⟨c, hc, rfl⟩ := List.mem_map.1 hx
          obtain ⟨hcb, hcd, -⟩ := hnew c (List.mem_reverse.1 hc)
          exact (Finset.mem_insert.1 hin).elim hcb hcd
        · rcases Finset.mem_insert.1 hin with hxb | hin
          · exact hnodup.1 (hxb ▸ List.mem_map_of_mem hx)
          · exact h.fresh x (List.mem_cons_of_mem _ hx) hin
    case done_range => exact Finset.insert_subset (Finset.mem_Icc.2 ⟨hb, hbn⟩) h.done_range
    case level =>
        intro c hc
        by_cases hcb : c = b
        · subst hcb
          simpa only [hself] using hdepth
        · simp only [hother c hcb]
          exact h.level c ((Finset.mem_insert.1 hc).resolve_left hcb)
    case frame =>
        intro c hc
        rw [Finset.mem_insert, not_or] at hc
        simp only [hother c hc.1]
        exact h.frame c hc.2
    case start =>
        rcases h.start with hin | hin
        · exact .inl (Finset.mem_insert_of_mem hin)
        · rcases List.mem_cons.1 hin with rfl | hin
          · exact .inl (Finset.mem_insert_self _ _)
          · exact .inr ((hmem _).2 (.inr hin))
    case closed =>
        intro x hx c hc
        rcases Finset.mem_insert.1 hx with rfl | hx
        · exact .inr ((hmem c).2 (.inl hc))
        · rcases h.closed x hx c hc with hin | hin
          · exact .inl (Finset.mem_insert_of_mem hin)
          · rcases List.mem_cons.1 hin with rfl | hin
            · exact .inl (Finset.mem_insert_self _ _)
            · exact .inr ((hmem _).2 (.inr hin))
    case parent =>
        intro c hc
        have hold : c ∈ done ∨ c ∈ ((b, level) :: worklist).map Prod.fst → c = root ∨ idom c ∈ insert b done := fun hin =>
          (h.parent c hin).imp_right fun hd => Finset.mem_insert_of_mem hd
        rcases hc with hc | hc
        · rcases Finset.mem_insert.1 hc with rfl | hc
          · exact hold (.inr List.mem_cons_self)
          · exact hold (.inl hc)
        · rcases (hmem c).1 hc with hc | hc
          · right
            rw [(mem_childList.1 hc).2]
            exact Finset.mem_insert_self _ _
          · exact hold (.inr (List.mem_cons_of_mem _ hc))

-- `update_level!` sets the levels below a root and nothing else.
theorem updateLevel_spec (hforest : Rooted n idom rank) (hlen : nodes.length = n) (hroot : idom root = 0)
    (hr : 0 < root) (hrn : root ≤ n) (hchildren : ∀ b, 0 < b → b ≤ n → (val nodes b).children = childList n idom b) :
    ∃ nodes', updateLevel nodes root 1 = some nodes' ∧ nodes'.length = n ∧
      (∀ b, (val nodes' b).children = (val nodes b).children) ∧
      (∀ b k, 0 < b → b ≤ n → Depth idom root b k → (val nodes' b).level = k) ∧
      ∀ b, (∀ k, ¬Depth idom root b k) → (val nodes' b).level = (val nodes b).level := by
  have hinit : Levelling n idom root nodes ∅ ([(root, 1)], nodes) := by
    constructor <;> simp [hlen, hr, hrn, Depth.root hroot]
  obtain ⟨-, s, hloop, ⟨done, h, -⟩, hend⟩ := whileDo_spec (c := fun s => !s.1.isEmpty) (b := levelStep)
    (fun k s => ∃ done, Levelling n idom root nodes done s ∧ k + done.card = n)
    (fun k s ⟨done, h, hk⟩ hcond => by
      obtain ⟨done', s', hcard, hstep, h'⟩ := h.step hforest hroot hchildren (by simpa using hcond)
      have hle := Finset.card_le_card h'.done_range
      rw [Nat.card_Icc] at hle
      exact ⟨n - done'.card, s', by omega, hstep, done', h', by omega⟩)
    (n := nodes.length + 2) (k := n) ⟨∅, hinit, by simp⟩ (by omega)
  have hempty : s.1 = [] := by simpa using hend
  have hdone : ∀ {b k : ℕ}, 0 < b → b ≤ n → Depth idom root b k → b ∈ done := by
    intro b k hb hbn hd
    induction hd with
    | root _ => simpa [hempty] using h.start
    | @child b k hne hd ih =>
        have hdn := hforest.le b hb hbn
        have hin := ih (Nat.pos_of_ne_zero hne) hdn
        simpa [hempty] using h.closed _ hin b (mem_childList.2 ⟨⟨hb, hbn⟩, rfl⟩)
  refine ⟨s.2, by simp [updateLevel, hloop], h.length, h.children, fun b k hb hbn hd => ?_, fun b hno => ?_⟩
  · exact ((h.level b (hdone hb hbn hd)).unique hd).2
  · exact h.frame b fun hin => hno _ (h.level b hin)

end Levels

-- Children and levels describe the forest of immediate dominators.
structure HasNodes (n : ℕ) (idom : ℕ → ℕ) (nodes : List DomTreeNode) : Prop where
  length : nodes.length = n
  children : ∀ b, 0 < b → b ≤ n → (val nodes b).children = childList n idom b
  root : ∀ b, 0 < b → b ≤ n → idom b = 0 → (val nodes b).level = 1
  level : ∀ b, 0 < b → b ≤ n → idom b ≠ 0 → (val nodes b).level = (val nodes (idom b)).level + 1

theorem pushChild_spec (isPost : Bool) {idomsBB : List ℕ} (hle : ∀ b, 0 < b → b ≤ idomsBB.length → val idomsBB b ≤ idomsBB.length)
    (hroot : isPost = false → val idomsBB 1 = 0) {nodes : List DomTreeNode} (hnodes : nodes.length = idomsBB.length)
    (hval : ∀ b, val nodes b = ⟨1, []⟩) :
    ∃ nodes', (List.range' 1 idomsBB.length).foldlM (pushChild isPost idomsBB) nodes = some nodes' ∧
      nodes'.length = idomsBB.length ∧
      ∀ b, 0 < b → b ≤ idomsBB.length → val nodes' b = ⟨1, childList idomsBB.length (val idomsBB) b⟩ := by
  obtain ⟨nodes', hfold, hlen, hval'⟩ := foldlM_up (I := Unit) (a := 1) (b := idomsBB.length + 1) (s := nodes)
    (f := fun _ => pushChild isPost idomsBB)
    (fun k s => s.length = idomsBB.length ∧
      ∀ b, 0 < b → b ≤ idomsBB.length → val s b = ⟨1, (List.range' 1 (k - 1)).filter (val idomsBB · = b)⟩)
    (by omega) ⟨hnodes, fun b _ _ => by simp [hval]⟩
    (fun k s hk hkn ⟨hlen, hs⟩ => by
      have hread := read_eq (l := idomsBB) (i := k) hk (by omega)
      have hnext : List.range' 1 (k + 1 - 1) = List.range' 1 (k - 1) ++ [k] := by
        rw [show k + 1 - 1 = (k - 1) + 1 by omega, List.range'_concat]
        simp only [Nat.one_mul]
        rw [show 1 + (k - 1) = k by omega]
      by_cases h0 : val idomsBB k = 0
      · refine ⟨s, fun _ => by simp [pushChild, hread, h0], hlen, fun b hb hbn => ?_⟩
        rw [hs b hb hbn, hnext, List.filter_append]
        have hkb : (0 : ℕ) ≠ b := by omega
        simp [h0, hkb]
      · have hd := hle k hk (by omega)
        have hreadn := read_eq (l := s) (Nat.pos_of_ne_zero h0) (by omega)
        have hcond : ((!isPost && k == 1) || val idomsBB k == 0) = false := by
          cases isPost with
          | false =>
              have hk1 : k ≠ 1 := by
                rintro rfl
                exact h0 (hroot rfl)
              simp [hk1, h0]
          | true => simp [h0]
        obtain ⟨s', hwrite, hlen', hval'⟩ := write_spec (l := s) (Nat.pos_of_ne_zero h0) (by omega)
          ({ val s (val idomsBB k) with children := (val s (val idomsBB k)).children ++ [k] } : DomTreeNode)
        refine ⟨s', fun _ => ?_, hlen'.trans hlen, fun b hb hbn => ?_⟩
        · simp only [pushChild, hread, Option.bind_eq_bind, Option.bind_some, hcond, Bool.false_eq_true, if_false, hreadn, hwrite]
        · rw [hval', hnext, List.filter_append]
          by_cases hbk : b = val idomsBB k
          · rw [← hbk, Function.update_self, hs b hb hbn]
            simp [hbk]
          · rw [Function.update_of_ne hbk, hs b hb hbn]
            simp [Ne.symm hbk])
  exact ⟨nodes', hfold (), hlen, fun b hb hbn => hval' b hb hbn⟩

-- The loop of `compute_domtree_nodes!` over the roots of a post-dominator tree.
theorem updateLevels_spec {idomsBB : List ℕ} {rank : ℕ → ℕ} (hforest : Rooted idomsBB.length (val idomsBB) rank)
    {nodes : List DomTreeNode} (hlen : nodes.length = idomsBB.length)
    (hval : ∀ b, 0 < b → b ≤ idomsBB.length → val nodes b = ⟨1, childList idomsBB.length (val idomsBB) b⟩) :
    ∃ nodes', (List.range' 1 idomsBB.length).foldlM (fun nodes node => do
        let idom ← read idomsBB node
        if idom = 0 then updateLevel nodes node 1 else some nodes) nodes = some nodes' ∧
      nodes'.length = idomsBB.length ∧
      (∀ b, 0 < b → b ≤ idomsBB.length → (val nodes' b).children = childList idomsBB.length (val idomsBB) b) ∧
      ∀ root b k, 0 < b → b ≤ idomsBB.length → root ≤ idomsBB.length → Depth (val idomsBB) root b k → (val nodes' b).level = k := by
  obtain ⟨nodes', hfold, hlen', hchildren, hlow, -⟩ := foldlM_up (I := Unit) (a := 1) (b := idomsBB.length + 1) (s := nodes)
    (f := fun _ nodes node => do
      let idom ← read idomsBB node
      if idom = 0 then updateLevel nodes node 1 else some nodes)
    (fun i s => s.length = idomsBB.length ∧
      (∀ b, 0 < b → b ≤ idomsBB.length → (val s b).children = childList idomsBB.length (val idomsBB) b) ∧
      (∀ root b k, 0 < b → b ≤ idomsBB.length → root < i → Depth (val idomsBB) root b k → (val s b).level = k) ∧
      ∀ root b k, 0 < b → b ≤ idomsBB.length → i ≤ root → Depth (val idomsBB) root b k → (val s b).level = 1)
    (by omega)
    ⟨hlen, fun b hb hbn => by rw [hval b hb hbn], fun root b k hb hbn hr hd => by
      have := hd.root_pos hb
      omega, fun root b k hb hbn _ _ => by rw [hval b hb hbn]⟩
    (fun i s hi hin ⟨hlen, hchildren, hlow, hhigh⟩ => by
      have hread := read_eq (l := idomsBB) (i := i) hi (by omega)
      by_cases h0 : val idomsBB i = 0
      · obtain ⟨s', hs', hlen', hchildren', hset, hframe⟩ := updateLevel_spec hforest hlen h0 hi (by omega) hchildren
        refine ⟨s', fun _ => by simp [hread, h0, hs'], hlen', fun b hb hbn => (hchildren' b).trans (hchildren b hb hbn),
          fun root b k hb hbn hr hd => ?_, fun root b k hb hbn hr hd => ?_⟩
        · by_cases hri : root = i
          · subst hri
            exact hset b k hb hbn hd
          · rw [hframe b fun k' hd' => hri (hd.unique hd').1]
            exact hlow root b k hb hbn (by omega) hd
        · rw [hframe b fun k' hd' => by have := (hd.unique hd').1; omega]
          exact hhigh root b k hb hbn (by omega) hd
      · refine ⟨s, fun _ => by simp [hread, h0], hlen, hchildren, fun root b k hb hbn hr hd => ?_,
          fun root b k hb hbn hr hd => hhigh root b k hb hbn (by omega) hd⟩
        have hri : root ≠ i := by
          rintro rfl
          exact h0 hd.idom_root
        exact hlow root b k hb hbn (by omega) hd)
  exact ⟨nodes', hfold (), hlen', hchildren, fun root b k hb hbn hr hd => hlow root b k hb hbn (by omega) hd⟩

theorem computeDomtreeNodes_spec {isPost : Bool} {T : GenericDomTree isPost} {rank : ℕ → ℕ}
    (hforest : Rooted T.idomsBB.length (val T.idomsBB) rank) (hpos : 0 < T.idomsBB.length)
    (hroot : isPost = false → val T.idomsBB 1 = 0 ∧
      ∀ root b k, 0 < b → b ≤ T.idomsBB.length → Depth (val T.idomsBB) root b k → root = 1 ∨ k = 1) :
    ∃ nodes, computeDomtreeNodes T = some { T with nodes := nodes } ∧ HasNodes T.idomsBB.length (val T.idomsBB) nodes := by
  have hinit : ∀ b, val (resize ((T.nodes.take T.idomsBB.length).map fun _ => (⟨1, []⟩ : DomTreeNode)) T.idomsBB.length) b =
      ⟨1, []⟩ := by
    have hrep : resize ((T.nodes.take T.idomsBB.length).map fun _ => (⟨1, []⟩ : DomTreeNode)) T.idomsBB.length =
        List.replicate T.idomsBB.length default := by
      refine List.eq_replicate_iff.2 ⟨length_resize _ _, fun x hx => ?_⟩
      rcases List.mem_append.1 hx with hx | hx
      · obtain ⟨y, -, rfl⟩ := List.mem_map.1 (List.mem_of_mem_take hx)
        rfl
      · exact List.eq_of_mem_replicate hx
    intro b
    rw [hrep]
    exact val_replicate _ b
  obtain ⟨pushed, hpush, hlen, hval⟩ := pushChild_spec isPost hforest.le (fun h => (hroot h).1) (length_resize _ _) hinit
  have hlevels : ∃ nodes, (if isPost then
      (List.range' 1 T.idomsBB.length).foldlM (fun nodes node => do
        let idom ← read T.idomsBB node
        if idom = 0 then updateLevel nodes node 1 else some nodes) pushed
      else updateLevel pushed 1 1) = some nodes ∧ nodes.length = T.idomsBB.length ∧
      (∀ b, 0 < b → b ≤ T.idomsBB.length → (val nodes b).children = childList T.idomsBB.length (val T.idomsBB) b) ∧
      ∀ root b k, 0 < b → b ≤ T.idomsBB.length → root ≤ T.idomsBB.length → Depth (val T.idomsBB) root b k →
        (val nodes b).level = k := by
    cases isPost with
    | true => exact updateLevels_spec hforest hlen hval
    | false =>
        obtain ⟨hfirst, honly⟩ := hroot rfl
        obtain ⟨nodes, hnodes, hlen', hchildren, hset, hframe⟩ := updateLevel_spec hforest hlen hfirst Nat.one_pos hpos
          fun b hb hbn => by rw [hval b hb hbn]
        refine ⟨nodes, hnodes, hlen', fun b hb hbn => ?_, fun root b k hb hbn _ hd => ?_⟩
        · rw [hchildren b, hval b hb hbn]
        · by_cases hr : root = 1
          · subst hr
            exact hset b k hb hbn hd
          · rw [hframe b fun k' hd' => hr (hd.unique hd').1, hval b hb hbn]
            exact ((honly root b k hb hbn hd).resolve_left hr).symm
  obtain ⟨nodes, hnodes, hlen', hchildren, hlevel⟩ := hlevels
  refine ⟨nodes, ?_, hlen', hchildren, fun b hb hbn h0 => ?_, fun b hb hbn h0 => ?_⟩
  · simp only [computeDomtreeNodes, hpush, Option.bind_eq_bind, Option.bind_some]
    simp only [Option.bind_eq_bind] at hnodes
    by_cases hp : isPost = true
    · rw [if_pos hp] at hnodes ⊢
      rw [hnodes, Option.bind_some]
    · rw [if_neg hp] at hnodes ⊢
      rw [hnodes, Option.bind_some]
  · exact hlevel b b 1 hb hbn hbn (.root h0)
  · have hd0 := Nat.pos_of_ne_zero h0
    have hdn := hforest.le b hb hbn
    obtain ⟨root, k, hd, hr⟩ := hforest.exists_depth hd0 hdn
    rw [hlevel root b (k + 1) hb hbn hr.2 (.child h0 hd), hlevel root _ k hd0 hdn hr.2 hd]

end Joolia.Compiler
