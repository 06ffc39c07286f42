import Joolia.Compiler.Domtree.Theorems

namespace Joolia.Compiler

open Loop OneBased Flow

-- Every edge is recorded as often among the predecessors as among the successors.
structure Balanced (blocks : List BasicBlock) : Prop extends Consistent blocks where
  count_eq : ∀ a b, 0 < a → a ≤ blocks.length → 0 < b → b ≤ blocks.length →
    (val blocks a).succs.count b = (val blocks b).preds.count a

section Blocks

variable {blocks : List BasicBlock} {x y : ℕ}

-- Setting the predecessors of `y` and then the successors of `x`.
theorem setEdges_spec (hx : 0 < x ∧ x ≤ blocks.length) (hy : 0 < y ∧ y ≤ blocks.length) (preds succs : List ℕ) :
    ∃ mid last, write blocks y { val blocks y with preds := preds } = some mid ∧
      read mid x = some (val mid x) ∧ (val mid x).succs = (val blocks x).succs ∧
      write mid x { val mid x with succs := succs } = some last ∧ last.length = blocks.length ∧
      (∀ b, (val last b).preds = if b = y then preds else (val blocks b).preds) ∧
      ∀ b, (val last b).succs = if b = x then succs else (val blocks b).succs := by
  obtain ⟨mid, hmid, hlen, hval⟩ := write_spec hy.1 hy.2 ({ val blocks y with preds := preds } : BasicBlock)
  obtain ⟨last, hlast, hlen', hval'⟩ := write_spec (l := mid) hx.1 (by omega) ({ val mid x with succs := succs } : BasicBlock)
  have hsuccs : ∀ b, (val mid b).succs = (val blocks b).succs := fun b => by
    by_cases hb : b = y
    · simp [hval, hb]
    · rw [hval, Function.update_of_ne hb]
  have hpreds : ∀ b, (val mid b).preds = if b = y then preds else (val blocks b).preds := fun b => by
    by_cases hb : b = y
    · simp [hval, hb]
    · rw [hval, Function.update_of_ne hb, if_neg hb]
  refine ⟨mid, last, hmid, read_eq hx.1 (by omega), hsuccs x, hlast, hlen'.trans hlen, fun b => ?_, fun b => ?_⟩
  · rw [← hpreds b, hval']
    by_cases hb : b = x
    · simp [hb]
    · rw [Function.update_of_ne hb]
  · rw [hval']
    by_cases hb : b = x
    · simp [hb]
    · rw [Function.update_of_ne hb, if_neg hb, hsuccs b]

theorem cfgInsertEdge_spec (hcfg : Balanced blocks) (hx : 0 < x ∧ x ≤ blocks.length) (hy : 0 < y ∧ y ≤ blocks.length) :
    ∃ blocks', cfgInsertEdge blocks x y = some blocks' ∧ Balanced blocks' ∧ blocks'.length = blocks.length ∧
      ∀ a b, Flows false blocks' a b ↔ Flows false blocks a b ∨ (a = x ∧ b = y) := by
  obtain ⟨mid, last, hmid, hread, hsame, hlast, hlen, hpreds, hsuccs⟩ :=
    setEdges_spec hx hy ((val blocks y).preds ++ [x]) ((val blocks x).succs ++ [y])
  have hflows : ∀ a b, Flows false last a b ↔ Flows false blocks a b ∨ (a = x ∧ b = y) := by
    intro a b
    simp only [Flows, Bool.false_eq_true, if_false, hsuccs a]
    by_cases ha : a = x
    · simp [ha]
    · simp [ha]
  refine ⟨last, ?_, ⟨⟨hlen ▸ hcfg.nonempty, fun b hb hbn p hp => ?_, fun b hb hbn s hs => ?_, fun a b ha han hb hbn => ?_⟩,
    fun a b ha han hb hbn => ?_⟩, hlen, hflows⟩
  · simp [cfgInsertEdge, read_eq hy.1 hy.2, hmid, hread, hsame, hlast]
  · rw [hlen] at hbn ⊢
    rw [hpreds b] at hp
    by_cases hby : b = y
    · rw [if_pos hby, List.mem_append, List.mem_singleton] at hp
      rcases hp with hp | rfl
      · exact hcfg.preds_le y hy.1 hy.2 p hp
      · exact hx.2
    · rw [if_neg hby] at hp
      exact hcfg.preds_le b hb hbn p hp
  · rw [hlen] at hbn ⊢
    rcases (hflows b s).1 hs with hs | ⟨-, rfl⟩
    · exact hcfg.succs_range b hb hbn s hs
    · exact hy
  · rw [hlen] at han hbn
    have hmem := hcfg.mem_iff a b ha han hb hbn
    rw [hpreds b, hsuccs a]
    by_cases ha' : a = x <;> by_cases hb' : b = y <;> simp_all
  · rw [hlen] at han hbn
    have hcount := hcfg.count_eq a b ha han hb hbn
    rw [hpreds b, hsuccs a]
    by_cases ha' : a = x <;> by_cases hb' : b = y <;> simp_all [List.count_append, Ne.symm]

theorem cfgDeleteEdge_spec (hcfg : Balanced blocks) (hx : 0 < x ∧ x ≤ blocks.length) (hy : 0 < y ∧ y ≤ blocks.length)
    (hedge : y ∈ (val blocks x).succs) :
    ∃ blocks', cfgDeleteEdge blocks x y = some blocks' ∧ Balanced blocks' ∧ blocks'.length = blocks.length ∧
      (∀ a b, Flows false blocks' a b → Flows false blocks a b) ∧
      ∀ a b, Flows false blocks a b → ¬(a = x ∧ b = y) → Flows false blocks' a b := by
  obtain ⟨mid, last, hmid, hread, hsame, hlast, hlen, hpreds, hsuccs⟩ :=
    setEdges_spec hx hy ((val blocks y).preds.erase x) ((val blocks x).succs.erase y)
  have hmem := (hcfg.mem_iff x y hx.1 hx.2 hy.1 hy.2).1 hedge
  have hsub : ∀ a b, Flows false last a b → Flows false blocks a b := by
    intro a b
    simp only [Flows, Bool.false_eq_true, if_false, hsuccs a]
    by_cases ha : a = x
    · subst ha
      simpa using fun h => List.mem_of_mem_erase h
    · simp [ha]
  have hcount : ∀ a b, 0 < a → a ≤ last.length → 0 < b → b ≤ last.length →
      (val last a).succs.count b = (val last b).preds.count a := by
    intro a b ha han hb hbn
    have hcount := hcfg.count_eq a b ha (hlen ▸ han) hb (hlen ▸ hbn)
    rw [hpreds b, hsuccs a]
    by_cases ha' : a = x <;> by_cases hb' : b = y <;> simp_all [Ne.symm]
  refine ⟨last, ?_, ⟨⟨hlen ▸ hcfg.nonempty, fun b hb hbn p hp => ?_, fun b hb hbn s hs => ?_, fun a b ha han hb hbn => ?_⟩,
    hcount⟩, hlen, hsub, fun a b hab hne => ?_⟩
  · simp [cfgDeleteEdge, deleteFirst, read_eq hy.1 hy.2, hmem, hmid, hread, hsame, hedge, hlast]
  · rw [hlen] at hbn ⊢
    rw [hpreds b] at hp
    by_cases hby : b = y
    · rw [if_pos hby] at hp
      exact hcfg.preds_le y hy.1 hy.2 p (List.mem_of_mem_erase hp)
    · rw [if_neg hby] at hp
      exact hcfg.preds_le b hb hbn p hp
  · rw [hlen] at hbn ⊢
    exact hcfg.succs_range b hb hbn s (hsub b s hs)
  · rw [← List.count_pos_iff, hcount a b ha han hb hbn, List.count_pos_iff]
  · simp only [Flows, Bool.false_eq_true, if_false, hsuccs a] at hab ⊢
    by_cases ha : a = x
    · subst ha
      rw [if_pos rfl]
      exact (List.mem_erase_of_ne fun hby => hne ⟨rfl, hby⟩).2 hab
    · rwa [if_neg ha]

end Blocks

section Change

variable {blocks blocks' : List BasicBlock} {D : DFSTree} {T : DomTree}

-- A search tree stays one as long as its own edges are there and no edge leaves it or
-- leads across it forwards.
theorem IsDFSTree.change (hD : IsDFSTree false blocks D) (hlen : blocks'.length = blocks.length)
    (hclosed : ∀ p x, 1 ≤ p → p ≤ D.fromPre.length → Flows false blocks' (val D.fromPre p) x →
      ∃ q, 1 ≤ q ∧ q ≤ D.fromPre.length ∧ val D.fromPre q = x)
    (htree : ∀ w, 1 < w → w ≤ D.fromPre.length →
      Flows false blocks' (val D.fromPre (val D.toParentPre w)) (val D.fromPre w))
    (hforward : ∀ a b, 1 ≤ a → a < b → b ≤ D.fromPre.length → Flows false blocks' (val D.fromPre a) (val D.fromPre b) →
      Anc 1 (val D.toParentPre) a b) : IsDFSTree false blocks' D := by
  have hN := hD.numbering
  refine ⟨hD.toPre_length.trans hlen.symm, hD.toPost_length.trans hlen.symm, hD.toParentPre_length, hlen ▸ hD.range,
    ⟨hN.root_le, hN.root_eq, hN.pre_vertex, hN.unvisited, hclosed, ?_⟩, hD.post_order⟩
  refine { hN.numbered.toTreeOrder with range := fun a b hab => ?_, tree := fun w hr hw => ?_, forward := fun a b hab hlt => ?_ }
  · unfold NumberEdge at hab
    omega
  · obtain ⟨hpar, hlt⟩ := hN.numbered.par_lt w hr hw
    exact ⟨⟨hpar, by omega⟩, ⟨Nat.le_of_lt hr, hw⟩, htree w hr hw⟩
  · exact hforward a b hab.1.1 hlt hab.2.1.2 hab.2.2

-- The immediate dominators are determined by the graph.
theorem HasIdoms.unique (hD : IsDFSTree false blocks D) {i i' : List ℕ} (h : HasIdoms false blocks i)
    (h' : HasIdoms false blocks i') : i = i' := by
  refine ext_val (h.length.trans h'.length.symm) fun b hb hbn => ?_
  rw [h.length] at hbn
  by_cases hno : b = rootOf false ∨ ¬Reaches false blocks b
  · rw [h.none b hb hbn hno, h'.none b hb hbn hno]
  · rw [not_or, not_not] at hno
    have hi := h.idom b hb hbn hno.1 hno.2
    have hi' := h'.idom b hb hbn hno.1 hno.2
    obtain ⟨l, hwalk⟩ := hno.2
    obtain ⟨l', hwalk', -⟩ := hwalk.upTo (hi.dominates l hwalk)
    exact hD.numbering.dominates_antisymm ⟨l', hwalk'⟩ (hi'.least _ hi.ne hi.dominates) (hi.least _ hi'.ne hi'.dominates)

-- A tree stays valid when its search tree and its semidominators do.
theorem Valid.transfer (h : Valid false blocks T) (hlen : blocks'.length = blocks.length)
    (hD : IsDFSTree false blocks' T.dfsTree) (hsemis : HasSemis false blocks' T.dfsTree 2 T.sncaState) :
    Valid false blocks' T := by
  -- The immediate dominators are computed from the search tree and the semidominators.
  obtain ⟨idomsPre, hidomsPre, hlenI, hidoms⟩ := idomsPre_spec h.dfsTree h.length h.semis
  obtain ⟨idomsPre', hidomsPre', hlenI', hidoms'⟩ := idomsPre_spec hD h.length hsemis
  obtain rfl : idomsPre = idomsPre' := Option.some.inj (hidomsPre.symm.trans hidomsPre')
  obtain ⟨idomsBB, hidomsBB, hhas⟩ := idomsBB_spec h.dfsTree hlenI hidoms
  obtain ⟨idomsBB', hidomsBB', hhas'⟩ := idomsBB_spec hD hlenI' hidoms'
  rw [hlen] at hidomsBB'
  obtain rfl : idomsBB = idomsBB' := Option.some.inj (hidomsBB.symm.trans hidomsBB')
  have hsame : T.idomsBB = idomsBB := h.domtree.idoms.unique h.dfsTree hhas
  exact ⟨hD, h.length, hsemis, h.root, hsame ▸ hhas', hlen ▸ h.domtree.nodes⟩

-- A block that is not in the tree has no say in it.
theorem Valid.of_unreachable (h : Valid false blocks T) (hlen : blocks'.length = blocks.length) {x : ℕ}
    (hx : ∀ p, 1 ≤ p → p ≤ T.dfsTree.fromPre.length → val T.dfsTree.fromPre p ≠ x)
    (hflows : ∀ a b, a ≠ x → (Flows false blocks a b ↔ Flows false blocks' a b)) : Valid false blocks' T := by
  have hN := h.dfsTree.numbering
  have hD : IsDFSTree false blocks' T.dfsTree := by
    refine h.dfsTree.change hlen (fun p y hp hpn hE => ?_) (fun w hw hwn => ?_) fun a b ha hab hb hE => ?_
    · exact hN.closed p y hp hpn ((hflows _ y (hx p hp hpn)).2 hE)
    · obtain ⟨hpar, -, hE⟩ := hN.numbered.tree w hw hwn
      exact (hflows _ _ (hx _ hpar.1 hpar.2)).1 hE
    · exact hN.numbered.forward a b ⟨⟨ha, by omega⟩, ⟨by simp only [rootOf_false]; omega, hb⟩,
        (hflows _ _ (hx a ha (by omega))).2 hE⟩ hab
  have hedge : T.dfsTree.Edge false blocks' = T.dfsTree.Edge false blocks := by
    funext a b
    refine propext (and_congr_right fun ha => and_congr_right fun _ => ?_)
    exact (hflows _ _ (hx a ha.1 ha.2)).symm
  refine h.transfer hlen hD fun u hu hun => ?_
  rw [hedge]
  exact h.semis u hu hun

-- Only edges into the number of `y` change when only edges into `y` do.
theorem IsDFSTree.edge_iff (hD : IsDFSTree false blocks D) {y : ℕ}
    (hflows : ∀ a b, b ≠ y → (Flows false blocks a b ↔ Flows false blocks' a b)) (a b : ℕ) (hb : b ≠ val D.toPre y) :
    D.Edge false blocks a b ↔ D.Edge false blocks' a b := by
  refine and_congr_right fun _ => and_congr_right fun hrange => hflows _ _ fun heq => hb ?_
  rw [← heq, hD.numbering.pre_vertex b hrange.1 hrange.2]

theorem Valid.toPre_one (h : Valid false blocks T) : val T.dfsTree.toPre 1 = 1 := by
  have hroot : val T.dfsTree.toPre (val T.dfsTree.fromPre 1) = 1 :=
    h.dfsTree.numbering.pre_vertex 1 (Nat.le_refl 1) h.dfsTree.numbering.root_le
  have hvertex : val T.dfsTree.fromPre 1 = 1 := h.dfsTree.numbering.root_eq
  rwa [hvertex] at hroot

theorem Valid.bbUnreachable_eq (h : Valid false blocks T) {x : ℕ} (hx : 0 < x) (hxn : x ≤ blocks.length) :
    bbUnreachable T x = some (val T.dfsTree.toPre x == 0) := by
  by_cases hx1 : x = 1
  · simp [bbUnreachable, hx1, h.toPre_one]
  · simp [bbUnreachable, hx1, read_eq hx (h.dfsTree.toPre_length.symm ▸ hxn)]

theorem Valid.vertex_ne (h : Valid false blocks T) {x : ℕ} (hx : val T.dfsTree.toPre x = 0) (p : ℕ) (hp : 1 ≤ p)
    (hpn : p ≤ T.dfsTree.fromPre.length) : val T.dfsTree.fromPre p ≠ x := by
  rintro rfl
  rw [h.dfsTree.numbering.pre_vertex p hp hpn] at hx
  omega

theorem domtreeInsertEdge_spec (hcfg' : Balanced blocks') (h : Valid false blocks T) (hlen : blocks'.length = blocks.length)
    {x y : ℕ} (hx : 0 < x ∧ x ≤ blocks.length) (hy : 0 < y ∧ y ≤ blocks.length)
    (hflows : ∀ a b, Flows false blocks' a b ↔ Flows false blocks a b ∨ (a = x ∧ b = y)) :
    ∃ T', (∀ limit, domtreeInsertEdge limit T blocks' x y = some T') ∧ Valid false blocks' T' := by
  have hD := h.dfsTree
  have hN := hD.numbering
  have hunreach := h.bbUnreachable_eq hx.1 hx.2
  by_cases hpre : val T.dfsTree.toPre x = 0
  · refine ⟨T, fun limit => by simp [domtreeInsertEdge, hunreach, hpre], ?_⟩
    refine h.of_unreachable hlen (h.vertex_ne hpre) fun a b ha => ?_
    simp [hflows, ha]
  · have hreadx := read_eq hx.1 (hD.toPre_length.symm ▸ hx.2)
    have hready := read_eq hy.1 (hD.toPre_length.symm ▸ hy.2)
    have hpostx := read_eq hx.1 (hD.toPost_length.symm ▸ hx.2)
    have hposty := read_eq hy.1 (hD.toPost_length.symm ▸ hy.2)
    obtain ⟨hxrange, hxvertex⟩ := hD.of_toPre hpre
    by_cases hcond : val T.dfsTree.toPre y = 0 ∨ (val T.dfsTree.toPre x < val T.dfsTree.toPre y ∧
        val T.dfsTree.toPost x < val T.dfsTree.toPost y)
    · obtain ⟨T', hT', hvalid⟩ := updateDomtree_spec hcfg'.toConsistent T
      refine ⟨T', fun limit => ?_, hvalid⟩
      simp [domtreeInsertEdge, hunreach, hpre, hreadx, hready, hpostx, hposty, hcond, hT' limit]
    · have hpos : val T.dfsTree.toPre y ≠ 0 := fun hzero => hcond (.inl hzero)
      obtain ⟨hyrange, hyvertex⟩ := hD.of_toPre hpos
      have hD' : IsDFSTree false blocks' T.dfsTree := by
        refine hD.change hlen (fun p z hp hpn hE => ?_) (fun w hw hwn => ?_) fun a b ha hab hb hE => ?_
        · rcases (hflows _ z).1 hE with hE | ⟨-, rfl⟩
          · exact hN.closed p z hp hpn hE
          · exact ⟨_, hyrange.1, hyrange.2, hyvertex⟩
        · exact (hflows _ _).2 (.inl (hN.numbered.tree w hw hwn).2.2)
        · rcases (hflows _ _).1 hE with hE | ⟨hax, hby⟩
          · exact hN.numbered.forward a b ⟨⟨ha, by omega⟩, ⟨by simp only [rootOf_false]; omega, hb⟩, hE⟩ hab
          · -- The new edge leads forwards, so by the postorder numbers it leads down.
            have ha' : val T.dfsTree.toPre x = a := by rw [← hax, hN.pre_vertex a ha (by omega)]
            have hb' : val T.dfsTree.toPre y = b := by
              rw [← hby, hN.pre_vertex b (by simp only [rootOf_false]; omega) hb]
            by_contra hanc
            have hpost := hD.post_order a b ha hab hb hanc
            rw [hax, hby] at hpost
            exact hcond (.inr ⟨by omega, hpost⟩)
      have hsemis : HasSemis false blocks' T.dfsTree (val T.dfsTree.toPre y + 1) T.sncaState := by
        intro u hu hun
        refine (h.semis u (by simp only [rootOf_false]; omega) hun).of_edges hu fun a b hb => ?_
        refine hD.edge_iff (y := y) (fun a b hby => ?_) a b (by omega)
        simp [hflows, hby]
      obtain ⟨T', hT', hvalid, -⟩ := updateDomtree_partial_spec hcfg'.toConsistent hD' h.length (Nat.pos_of_ne_zero hpos)
        hyrange.2 hsemis
      refine ⟨T', fun limit => ?_, hvalid⟩
      simp [domtreeInsertEdge, hunreach, hpre, hreadx, hready, hpostx, hposty, hcond, hT' limit]

-- Following the semidominators down from a number ends.
theorem Valid.followSemis_total (h : Valid false blocks T) {semiY fuel b : ℕ} (hpos : 0 < semiY) (hb : b ≤ T.dfsTree.fromPre.length)
    (hfuel : b < fuel) : ∃ v, followSemis T.sncaState semiY fuel b = some v := by
  induction fuel generalizing b with
  | zero => omega
  | succ fuel ih =>
      rw [followSemis]
      by_cases hlt : b < semiY
      · exact ⟨false, by rw [if_pos hlt]⟩
      · by_cases heq : semiY = b
        · exact ⟨true, by rw [if_neg hlt, if_pos heq]⟩
        · have hread := read_eq (l := T.sncaState) (i := b) (by omega) (h.length.symm ▸ hb)
          obtain ⟨s, hs, hsr, hslt⟩ := h.dfsTree.numbering.numbered.exists_semi (w := b) (by simp only [rootOf_false]; omega) hb
          have hsemi := (h.semis b (by simp only [rootOf_false]; omega) hb).unique hs
          obtain ⟨v, hv⟩ := ih (b := (val T.sncaState b).semi) (by omega) (by omega)
          exact ⟨v, by rw [if_neg hlt, if_neg heq, hread]; exact hv⟩

-- When the deletion of an edge into `y` is judged not to affect the tree, the
-- semidominator of `y` still has a semidominator path without the edge.
def KeepsSemi (T : DomTree) (blocks' : List BasicBlock) (x y : ℕ) : Prop :=
  val T.dfsTree.toPre x ≠ 0 → isParent T.dfsTree x y = some false → onSemidominatorPath T x y = some false → y ≠ 1 →
    SemiPath (T.dfsTree.Edge false blocks') (val T.sncaState (val T.dfsTree.toPre y)).semi (val T.dfsTree.toPre y)

theorem domtreeDeleteEdge_spec (hcfg' : Balanced blocks') (h : Valid false blocks T) (hlen : blocks'.length = blocks.length)
    {x y : ℕ} (hx : 0 < x ∧ x ≤ blocks.length) (hy : 0 < y ∧ y ≤ blocks.length) (hedge : Flows false blocks x y)
    (hsub : ∀ a b, Flows false blocks' a b → Flows false blocks a b)
    (hrest : ∀ a b, Flows false blocks a b → ¬(a = x ∧ b = y) → Flows false blocks' a b)
    (hkeeps : KeepsSemi T blocks' x y) :
    ∃ T', (∀ limit, domtreeDeleteEdge limit T blocks' x y = some T') ∧ Valid false blocks' T' := by
  have hD := h.dfsTree
  have hN := hD.numbering
  have hunreach := h.bbUnreachable_eq hx.1 hx.2
  by_cases hpre : val T.dfsTree.toPre x = 0
  · refine ⟨T, fun limit => by simp [domtreeDeleteEdge, hunreach, hpre], ?_⟩
    refine h.of_unreachable hlen (h.vertex_ne hpre) fun a b ha => ?_
    exact ⟨fun hab => hrest a b hab fun heq => ha heq.1, hsub a b⟩
  · obtain ⟨hxrange, hxvertex⟩ := hD.of_toPre hpre
    -- The target of an edge from a reachable block is reachable.
    obtain ⟨q, hq, hqn, hqy⟩ := hN.closed _ y hxrange.1 hxrange.2 (hxvertex.symm ▸ hedge)
    have hpreq : val T.dfsTree.toPre y = q := by rw [← hqy, hN.pre_vertex q hq hqn]
    have hq0 : 0 < q := hq
    have hreadx := read_eq hx.1 (hD.toPre_length.symm ▸ hx.2)
    have hready := read_eq hy.1 (hD.toPre_length.symm ▸ hy.2)
    rw [hpreq] at hready
    have hreadp := read_eq (l := T.dfsTree.toParentPre) hq0 (hD.toParentPre_length.symm ▸ hqn)
    have hreads := read_eq (l := T.sncaState) hq0 (h.length.symm ▸ hqn)
    have hparent : isParent T.dfsTree x y = some (val T.dfsTree.toPre x == val T.dfsTree.toParentPre q) := by
      simp [isParent, hreadx, hready, hreadp]
    by_cases hpar : val T.dfsTree.toPre x = val T.dfsTree.toParentPre q
    · obtain ⟨T', hT', hvalid⟩ := updateDomtree_spec hcfg'.toConsistent T
      rw [beq_iff_eq.2 hpar] at hparent
      refine ⟨T', fun limit => ?_, hvalid⟩
      simp [domtreeDeleteEdge, hunreach, hpre, hparent, hT' limit]
    · have hD' : IsDFSTree false blocks' T.dfsTree := by
        refine hD.change hlen (fun p z hp hpn hE => hN.closed p z hp hpn (hsub _ _ hE)) (fun w hw hwn => ?_)
          fun a b ha hab hb hE => ?_
        · obtain ⟨hparw, -, hE⟩ := hN.numbered.tree w hw hwn
          refine hrest _ _ hE fun heq => hpar ?_
          have hwq : w = q := by rw [← hpreq, ← heq.2, hN.pre_vertex w (Nat.le_of_lt hw) hwn]
          rw [← hwq, ← heq.1, hN.pre_vertex _ hparw.1 hparw.2]
        · exact hN.numbered.forward a b ⟨⟨ha, by omega⟩, ⟨by simp only [rootOf_false]; omega, hb⟩, hsub _ _ hE⟩ hab
      have hedges : ∀ a b, b ≠ q → (T.dfsTree.Edge false blocks a b ↔ T.dfsTree.Edge false blocks' a b) := by
        intro a b hb
        refine hD.edge_iff (y := y) (fun a b hby => ⟨fun hab => hrest a b hab fun heq => hby heq.2, hsub a b⟩) a b ?_
        rwa [hpreq]
      have hpos : 0 < (val T.sncaState q).semi := by
        by_cases hq1 : q = 1
        · rw [hq1, h.root rfl]
          decide
        · have := (hN.numbered.semiPath_range (h.semis q (by simp only [rootOf_false]; omega) hqn).path).1
          exact this
      obtain ⟨v, hv⟩ := h.followSemis_total hpos hxrange.2 (Nat.lt_succ_self _)
      have hpath : onSemidominatorPath T x y = some v := by
        simp [onSemidominatorPath, hreadx, hready, hreads, hv]
      cases v with
      | true =>
          have hsemis : HasSemis false blocks' T.dfsTree (q + 1) T.sncaState := fun u hu hun =>
            (h.semis u (by simp only [rootOf_false]; omega) hun).of_edges hu fun a b hb => hedges a b (by omega)
          obtain ⟨T', hT', hvalid, -⟩ := updateDomtree_partial_spec hcfg'.toConsistent hD' h.length hq0 hqn hsemis
          refine ⟨T', fun limit => ?_, hvalid⟩
          simp [domtreeDeleteEdge, hunreach, hpre, hparent, hpar, hpath, hready, hT' limit]
      | false =>
          refine ⟨T, fun limit => by simp [domtreeDeleteEdge, hunreach, hparent, hpar, hpath], ?_⟩
          refine h.transfer hlen hD' fun u hu hun => ?_
          have hsub' : ∀ {v w}, SemiPath (T.dfsTree.Edge false blocks') v w → SemiPath (T.dfsTree.Edge false blocks) v w := by
            rintro v w ⟨z, hvia, hz⟩
            exact ⟨z, Relation.ReflTransGen.mono (fun a b hab => ⟨⟨hab.1.1, hab.1.2.1, hsub _ _ hab.1.2.2⟩, hab.2⟩) v z hvia,
              hz.1, hz.2.1, hsub _ _ hz.2.2⟩
          refine hN.numbered.semi_of_same hD'.numbering.numbered hedges (fun hq1 s hs => ?_) hu hun (h.semis u hu hun)
          have hy1 : y ≠ 1 := by
            rintro rfl
            have := h.toPre_one
            simp only [rootOf_false] at hq1
            omega
          have hsame := hs.unique (h.semis q hq1 hqn)
          have hkeep := hkeeps hpre (by simp [hparent, hpar]) hpath hy1
          rw [hpreq] at hkeep
          exact ⟨hsame ▸ hkeep, fun v hv => hs.least v (hsub' hv)⟩

end Change

-- The updates of a control-flow graph and its dominator tree.
inductive Update
  | insert (from_ to_ : ℕ)
  | delete (from_ to_ : ℕ)

def update (limit : ℕ) (s : List BasicBlock × DomTree) : Update → Option (List BasicBlock × DomTree)
  | .insert from_ to_ => do
      let blocks ← cfgInsertEdge s.1 from_ to_
      let domtree ← domtreeInsertEdge limit s.2 blocks from_ to_
      some (blocks, domtree)
  | .delete from_ to_ => do
      let blocks ← cfgDeleteEdge s.1 from_ to_
      let domtree ← domtreeDeleteEdge limit s.2 blocks from_ to_
      some (blocks, domtree)

-- An update within the graph, deleting only an edge that is there.
def Update.Proper (blocks : List BasicBlock) : Update → Prop
  | .insert from_ to_ => (0 < from_ ∧ from_ ≤ blocks.length) ∧ 0 < to_ ∧ to_ ≤ blocks.length
  | .delete from_ to_ => (0 < from_ ∧ from_ ≤ blocks.length) ∧ to_ ∈ (val blocks from_).succs

-- The condition on a deletion.
def Update.Keeps (s : List BasicBlock × DomTree) : Update → Prop
  | .insert _ _ => True
  | .delete from_ to_ => ∀ blocks', cfgDeleteEdge s.1 from_ to_ = some blocks' → KeepsSemi s.2 blocks' from_ to_

-- Every update of a run is proper and meets the condition in the state it finds.
def Kept (limit : ℕ) : List BasicBlock × DomTree → List Update → Prop
  | _, [] => True
  | s, u :: us => u.Proper s.1 ∧ u.Keeps s ∧ ∀ s', update limit s u = some s' → Kept limit s' us

theorem update_spec {s : List BasicBlock × DomTree} (hcfg : Balanced s.1) (h : Valid false s.1 s.2) {u : Update}
    (hproper : u.Proper s.1) (hkeeps : u.Keeps s) :
    ∃ s', (∀ limit, update limit s u = some s') ∧ Balanced s'.1 ∧ Valid false s'.1 s'.2 := by
  cases u with
  | insert x y =>
      obtain ⟨hx, hy⟩ := hproper
      obtain ⟨blocks', hblocks, hcfg', hlen, hflows⟩ := cfgInsertEdge_spec hcfg hx hy
      obtain ⟨T', hT', hvalid⟩ := domtreeInsertEdge_spec hcfg' h hlen hx hy hflows
      exact ⟨(blocks', T'), fun limit => by simp [update, hblocks, hT' limit], hcfg', hvalid⟩
  | delete x y =>
      obtain ⟨hx, hedge⟩ := hproper
      have hy := hcfg.succs_range x hx.1 hx.2 y hedge
      obtain ⟨blocks', hblocks, hcfg', hlen, hsub, hrest⟩ := cfgDeleteEdge_spec hcfg hx hy hedge
      obtain ⟨T', hT', hvalid⟩ := domtreeDeleteEdge_spec hcfg' h hlen hx hy hedge hsub hrest (hkeeps blocks' hblocks)
      exact ⟨(blocks', T'), fun limit => by simp [update, hblocks, hT' limit], hcfg', hvalid⟩

theorem updates_spec (limit : ℕ) {us : List Update} {s : List BasicBlock × DomTree} (hcfg : Balanced s.1)
    (h : Valid false s.1 s.2) (hkept : Kept limit s us) :
    ∃ s', us.foldlM (update limit) s = some s' ∧ Balanced s'.1 ∧ Valid false s'.1 s'.2 := by
  induction us generalizing s with
  | nil => exact ⟨s, rfl, hcfg, h⟩
  | cons u us ih =>
      obtain ⟨hproper, hkeeps, hrest⟩ := hkept
      obtain ⟨s₁, hs₁, hcfg₁, h₁⟩ := update_spec hcfg h hproper hkeeps
      obtain ⟨s', hs', hcfg', h'⟩ := ih hcfg₁ h₁ (hrest s₁ (hs₁ limit))
      exact ⟨s', by simp [hs₁ limit, hs'], hcfg', h'⟩

-- Along every run whose deletions meet the condition the updated tree has the immediate
-- dominators of the tree built from scratch, and answers `dominates` as that one does.
theorem updates_eq_recomputation (limit : ℕ) (blocks : List BasicBlock) (hcfg : Balanced blocks) :
    ∃ T, constructDomtree limit blocks = some T ∧ ∀ us, Kept limit (blocks, T) us →
      ∃ blocks' T' T'', us.foldlM (update limit) (blocks, T) = some (blocks', T') ∧
        constructDomtree limit blocks' = some T'' ∧ T'.idomsBB = T''.idomsBB ∧
        ∀ b1 b2, 0 < b1 → b1 ≤ blocks'.length → Reachable blocks' b1 → 0 < b2 → b2 ≤ blocks'.length → Reachable blocks' b2 →
          dominates T' b1 b2 = dominates T'' b1 b2 := by
  obtain ⟨T, hT, hvalid⟩ := updateDomtree_spec hcfg.toConsistent (.empty false)
  refine ⟨T, hT limit, fun us hkept => ?_⟩
  obtain ⟨⟨blocks', T'⟩, hrun, hcfg', h'⟩ := updates_spec limit (s := (blocks, T)) hcfg hvalid hkept
  obtain ⟨T'', hT'', h''⟩ := updateDomtree_spec hcfg'.toConsistent (.empty false)
  refine ⟨blocks', T', T'', hrun, hT'' limit, h'.domtree.idoms.unique h'.dfsTree h''.domtree.idoms, ?_⟩
  intro b1 b2 h1 h1n hr1 h2 h2n hr2
  have ht1 : InTree false blocks' b1 := ⟨⟨h1, h1n⟩, hr1⟩
  have ht2 : InTree false blocks' b2 := ⟨⟨h2, h2n⟩, hr2⟩
  obtain ⟨v, hv, hiff⟩ := h'.domtree.dominates_spec hcfg'.toConsistent h'.dfsTree ht1 ht2
  obtain ⟨v', hv', hiff'⟩ := h''.domtree.dominates_spec hcfg'.toConsistent h''.dfsTree ht1 ht2
  rw [hv, hv', Bool.eq_iff_iff.2 (hiff.trans hiff'.symm)]

-- Balance of a given graph is decided block by block.
theorem Balanced.of_blocks {blocks : List BasicBlock} (hpos : 0 < blocks.length)
    (h : ∀ a ∈ List.range' 1 blocks.length, (∀ p ∈ (val blocks a).preds, p ≤ blocks.length) ∧
      (∀ s ∈ (val blocks a).succs, 0 < s ∧ s ≤ blocks.length) ∧
      ∀ b ∈ List.range' 1 blocks.length, (val blocks a).succs.count b = (val blocks b).preds.count a) :
    Balanced blocks := by
  have hmem : ∀ a, 0 < a → a ≤ blocks.length → a ∈ List.range' 1 blocks.length := fun a ha han =>
    List.mem_range'_1.2 ⟨ha, by omega⟩
  have hcount : ∀ a b, 0 < a → a ≤ blocks.length → 0 < b → b ≤ blocks.length →
      (val blocks a).succs.count b = (val blocks b).preds.count a := fun a b ha han hb hbn =>
    (h a (hmem a ha han)).2.2 b (hmem b hb hbn)
  refine ⟨⟨hpos, fun b hb hbn => (h b (hmem b hb hbn)).1, fun b hb hbn => (h b (hmem b hb hbn)).2.1, ?_⟩, hcount⟩
  intro a b ha han hb hbn
  rw [← List.count_pos_iff, hcount a b ha han hb hbn, List.count_pos_iff]

-- The graph of the tests of the dynamic updates.
def testGraph : List BasicBlock :=
  [⟨[], [3, 2]⟩, ⟨[1], [5]⟩, ⟨[1, 6], [4]⟩, ⟨[3], [6]⟩, ⟨[2, 6], []⟩, ⟨[4], [5, 3]⟩]

theorem testGraph_balanced : Balanced testGraph := 
  .of_blocks (by decide) (by decide)

-- Deleting the edge from 2 to 5, which is in the search tree, and inserting it again.
theorem updates_eq_recomputation_test : ∃ blocks' T T' T'', constructDomtree compressLimit testGraph = some T ∧
    [Update.delete 2 5, .insert 2 5].foldlM (update compressLimit) (testGraph, T) = some (blocks', T') ∧
    constructDomtree compressLimit blocks' = some T'' ∧ T'.idomsBB = T''.idomsBB := by
  obtain ⟨T, hT, hall⟩ := updates_eq_recomputation compressLimit testGraph testGraph_balanced
  have hparent : (constructDomtree compressLimit testGraph).map (isParent ·.dfsTree 2 5) = some (some true) := by decide
  have hkept : Kept compressLimit (testGraph, T) [.delete 2 5, .insert 2 5] := by
    refine ⟨⟨⟨by simp, by simp [testGraph]⟩, by simp [testGraph, val, OneBased.read]⟩, fun blocks' _ _ hno => ?_, fun s hs => ⟨?_, trivial, fun _ _ => trivial⟩⟩
    · rw [hT, Option.map_some, Option.some_inj] at hparent
      rw [hparent] at hno
      cases hno
    · have hdelete : cfgDeleteEdge testGraph 2 5 =
          some [⟨[], [3, 2]⟩, ⟨[1], []⟩, ⟨[1, 6], [4]⟩, ⟨[3], [6]⟩, ⟨[6], []⟩, ⟨[4], [5, 3]⟩] := by decide
      simp only [update, hdelete, Option.bind_eq_bind, Option.bind_some] at hs
      obtain ⟨T', -, hs⟩ := Option.bind_eq_some_iff.1 hs
      obtain rfl := Option.some.inj hs
      exact ⟨⟨by simp, by simp⟩, by simp⟩
  obtain ⟨blocks', T', T'', hrun, hconstruct, hidoms, -⟩ := hall _ hkept
  exact ⟨blocks', T, T', T'', hT, hrun, hconstruct, hidoms⟩

-- Block 4 is reached from 3 and from 6, and 6 from 5, which is reached around 3.
def staleGraph : List BasicBlock :=
  [⟨[], [3, 2]⟩, ⟨[1], [5, 3]⟩, ⟨[1, 2], [6, 5, 4]⟩, ⟨[3, 6], []⟩, ⟨[2, 3], [6]⟩, ⟨[3, 5], [4]⟩]

theorem staleGraph_balanced : Balanced staleGraph := 
  .of_blocks (by decide) (by decide)

-- Without the edge from 6 to 4 only block 3 leads to 4, but the updated tree keeps 1 as
-- its immediate dominator: the semidominators followed from 6 pass over the one of 4.
theorem delete_leaves_stale_idoms : Balanced staleGraph ∧
    (do
      let T ← constructDomtree compressLimit staleGraph
      let (blocks', T') ← update compressLimit (staleGraph, T) (.delete 6 4)
      let T'' ← constructDomtree compressLimit blocks'
      some (T'.idomsBB, T''.idomsBB)) = some ([0, 1, 1, 1, 1, 1], [0, 1, 1, 3, 1, 1]) :=
  ⟨staleGraph_balanced, by decide⟩

end Joolia.Compiler
