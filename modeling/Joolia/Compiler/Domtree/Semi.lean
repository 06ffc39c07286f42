import Joolia.Compiler.Domtree.Compress
import Joolia.Compiler.Domtree.Dfs

namespace Joolia.Compiler

open Loop OneBased Flow

-- The edges between preorder numbers.
def DFSTree.Edge (isPost : Bool) (blocks : List BasicBlock) (D : DFSTree) : ℕ → ℕ → Prop :=
  NumberEdge (Flows isPost blocks) (rootOf isPost) D.fromPre.length (val D.fromPre)

def domEdgeList (isPost : Bool) (blocks : List BasicBlock) (b : ℕ) : List ℕ :=
  if isPost then (val blocks b).succs else (val blocks b).preds

-- The semidominators of the numbers from `w` on are known.
def HasSemis (isPost : Bool) (blocks : List BasicBlock) (D : DFSTree) (w : ℕ) (state : List SNCAData) : Prop :=
  ∀ u, w ≤ u → u ≤ D.fromPre.length → Semi (D.Edge isPost blocks) (val state u).semi u

section Preds

variable {isPost : Bool} {blocks : List BasicBlock} {D : DFSTree} (hcfg : Consistent blocks)
  (hD : IsDFSTree isPost blocks D)
include hD

-- A block with a preorder number has been visited.
theorem IsDFSTree.of_toPre {v : ℕ} (hv : val D.toPre v ≠ 0) :
    (rootOf isPost ≤ val D.toPre v ∧ val D.toPre v ≤ D.fromPre.length) ∧ val D.fromPre (val D.toPre v) = v := by
  have hex : ∃ p, (rootOf isPost ≤ p ∧ p ≤ D.fromPre.length) ∧ val D.fromPre p = v := by
    by_contra hno
    push Not at hno
    exact hv (hD.numbering.unvisited v fun p hr hp => hno p ⟨hr, hp⟩)
  obtain ⟨p, hp, rfl⟩ := hex
  rw [hD.numbering.pre_vertex p hp.1 hp.2]
  exact ⟨hp, rfl⟩

include hcfg

-- The predecessors that the code looks at are predecessors, and it misses at most the
-- parent.
theorem IsDFSTree.edge_of_mem {v w : ℕ} (hw : rootOf isPost < w) (hwn : w ≤ D.fromPre.length)
    (hv : v ∈ domEdgeList isPost blocks (val D.fromPre w)) (hne : val D.toPre v ≠ 0) :
    D.Edge isPost blocks (val D.toPre v) w := by
  obtain ⟨hrange, hvertex⟩ := hD.of_toPre hne
  obtain ⟨hb, hbn⟩ := hD.range w (by omega) hwn
  refine ⟨hrange, by omega, ?_⟩
  obtain ⟨hv0, hvn⟩ := hD.range _ (Nat.pos_of_ne_zero hne) hrange.2
  rw [hvertex] at hv0 hvn ⊢
  cases isPost with
  | false =>
      simp only [domEdgeList, Bool.false_eq_true, if_false] at hv
      exact (hcfg.mem_iff v _ hv0 hvn hb hbn).2 hv
  | true =>
      simp only [domEdgeList, if_true] at hv
      simp only [Flows, if_true, if_neg (Nat.ne_of_gt hv0)]
      exact ⟨Nat.ne_of_gt hb, (hcfg.mem_iff _ v hb hbn hv0 hvn).1 hv⟩

theorem IsDFSTree.mem_of_edge {a w : ℕ} (hw : rootOf isPost < w) (hwn : w ≤ D.fromPre.length)
    (h : D.Edge isPost blocks a w) :
    a = val D.toParentPre w ∨ (a ≠ 0 ∧ ∃ v ∈ domEdgeList isPost blocks (val D.fromPre w), val D.toPre v = a) := by
  obtain ⟨ha, -, hflow⟩ := h
  obtain ⟨hb, hbn⟩ := hD.range w (by omega) hwn
  have hpre := hD.numbering.pre_vertex a ha.1 ha.2
  by_cases ha0 : a = 0
  · left
    subst ha0
    obtain rfl : isPost = true := by
      cases isPost with
      | false => simp at ha
      | true => rfl
    simp only [Flows, val_zero, if_true, Nat.default_eq_zero] at hflow
    obtain ⟨hpar, -, htree⟩ := hD.numbering.numbered.tree w hw hwn
    by_contra hne
    have hpos := hD.range _ (Nat.pos_of_ne_zero (Ne.symm hne)) hpar.2
    simp only [Flows, if_true, if_neg (Nat.ne_of_gt hpos.1)] at htree
    have := (hcfg.mem_iff _ _ hb hbn hpos.1 hpos.2).2 htree.2
    rw [hflow.2] at this
    cases this
  · right
    obtain ⟨hx, hxn⟩ := hD.range a (Nat.pos_of_ne_zero ha0) ha.2
    refine ⟨ha0, val D.fromPre a, ?_, hpre⟩
    cases isPost with
    | false => exact (hcfg.mem_iff _ _ hx hxn hb hbn).1 hflow
    | true =>
        simp only [Flows, if_true, if_neg (Nat.ne_of_gt hx)] at hflow
        exact (hcfg.mem_iff _ _ hb hbn hx hxn).2 hflow.2

theorem IsDFSTree.domEdges_eq {w : ℕ} (hw : 0 < w) (hwn : w ≤ D.fromPre.length) :
    domEdges isPost blocks (val D.fromPre w) = some (domEdgeList isPost blocks (val D.fromPre w)) ∧
      ∀ v ∈ domEdgeList isPost blocks (val D.fromPre w), v ≤ blocks.length := by
  obtain ⟨hb, hbn⟩ := hD.range w hw hwn
  refine ⟨by simp [domEdges, domEdgeList, read_eq hb hbn], fun v hv => ?_⟩
  cases isPost with
  | false => exact hcfg.preds_le _ hb hbn v hv
  | true => exact (hcfg.succs_range _ hb hbn v hv).2

end Preds

-- The semidominator of `w` so far, after the predecessors `seen`.
structure SemiSoFar (isPost : Bool) (blocks : List BasicBlock) (D : DFSTree) (w : ℕ) (F₀ : Forest) (seen : List ℕ)
    (s : ℕ × Forest) : Prop where
  linked : Linked (rootOf isPost) D.fromPre.length (val D.toParentPre) w s.2
  semi : ∀ x, (val s.2.state x).semi = (val F₀.state x).semi
  candidate : Candidate (rootOf isPost) (val D.toParentPre) (D.Edge isPost blocks) w s.1
  le_parent : s.1 ≤ val D.toParentPre w
  le_pred : ∀ v ∈ seen, val D.toPre v ≠ 0 → val D.toPre v ≤ w → s.1 ≤ val D.toPre v
  le_above : ∀ v ∈ seen, ∀ u, w < u → Anc (rootOf isPost) (val D.toParentPre) u (val D.toPre v) →
    val D.toPre v ≠ 0 → s.1 ≤ (val F₀.state u).semi

section Loop

variable {isPost : Bool} {blocks : List BasicBlock} {D : DFSTree} (hcfg : Consistent blocks)
  (hD : IsDFSTree isPost blocks D)
include hcfg hD

theorem SemiSoFar.step {w : ℕ} {F₀ : Forest} {seen : List ℕ} {s : ℕ × Forest} {v : ℕ}
    (h : SemiSoFar isPost blocks D w F₀ seen s) (hsemis : HasSemis isPost blocks D (w + 1) F₀.state)
    (hw : rootOf isPost < w) (hwn : w ≤ D.fromPre.length) (hv : v ∈ domEdgeList isPost blocks (val D.fromPre w)) :
    ∃ s', (∀ limit, semiStep limit D w s v = some s') ∧ SemiSoFar isPost blocks D w F₀ (seen ++ [v]) s' := by
  have hle := (hD.domEdges_eq hcfg (by omega) hwn).2 v hv
  by_cases hpre : val D.toPre v = 0
  · refine ⟨s, fun limit => ?_, ?_⟩
    · by_cases hv0 : v = 0
      · simp [semiStep, hv0]
      · simp [semiStep, hv0, read_eq (Nat.pos_of_ne_zero hv0) (hD.toPre_length.symm ▸ hle), hpre]
    · refine { h with le_pred := fun x hx hne => ?_, le_above := fun x hx u hu hanc hne => ?_ }
      · rcases List.mem_append.1 hx with hx | hx
        · exact h.le_pred x hx hne
        · exact (hne (List.mem_singleton.1 hx ▸ hpre)).elim
      · rcases List.mem_append.1 hx with hx | hx
        · exact h.le_above x hx u hu hanc hne
        · exact (hne (List.mem_singleton.1 hx ▸ hpre)).elim
  · have hedge := hD.edge_of_mem hcfg hw hwn hv hpre
    obtain ⟨hrange, -⟩ := hD.of_toPre hpre
    have hv0 : v ≠ 0 := by
      rintro rfl
      exact hpre (val_zero _)
    have hread := read_eq (Nat.pos_of_ne_zero hv0) (hD.toPre_length.symm ▸ hle)
    have hT := hD.numbering.numbered.toTreeOrder
    by_cases hlt : w < val D.toPre v
    · obtain ⟨F', hcompress, hF'⟩ := h.linked.compress hT hlt hrange.2
      have hreads := read_eq (l := F'.state) (Nat.pos_of_ne_zero hpre) (by rw [hF'.linked.sized.state]; exact hrange.2)
      have hlabel : ∀ u, w < u → Anc (rootOf isPost) (val D.toParentPre) u (val D.toPre v) →
          (val F'.state (val D.toPre v)).label ≤ (val F₀.state u).semi := by
        intro u hu hanc
        rw [← h.semi u, ← hF'.semi u]
        exact hF'.linked.label_le _ u hlt hrange.2 hanc (by have := hF'.top; omega)
      refine ⟨(min s.1 (val F'.state (val D.toPre v)).label, F'), fun limit => ?_, ?_⟩
      · simp [semiStep, hv0, hread, hpre, Nat.not_le.2 hlt, hcompress limit, hreads]
      · refine ⟨hF'.linked, fun x => (hF'.semi x).trans (h.semi x), ?_, ?_, fun x hx hne hxw => ?_,
          fun x hx u hu hanc hne => ?_⟩
        · rcases Nat.le_total s.1 (val F'.state (val D.toPre v)).label with hmin | hmin
          · rw [Nat.min_eq_left hmin]
            exact h.candidate
          · rw [Nat.min_eq_right hmin]
            obtain ⟨x, hx, hltx, heq⟩ := hF'.linked.label_mem _ hlt hrange.2
            have hwx := hF'.linked.linked _ x hlt hrange.2 hx hltx
            have hxn : x ≤ D.fromPre.length := Nat.le_trans (hT.anc_le hx hrange.2) hrange.2
            rw [heq, hF'.semi, h.semi]
            exact .above hedge hwx hx (hsemis x hwx hxn)
        · exact Nat.le_trans (Nat.min_le_left _ _) h.le_parent
        · rcases List.mem_append.1 hx with hx | hx
          · exact Nat.le_trans (Nat.min_le_left _ _) (h.le_pred x hx hne hxw)
          · obtain rfl := List.mem_singleton.1 hx
            omega
        · rcases List.mem_append.1 hx with hx | hx
          · exact Nat.le_trans (Nat.min_le_left _ _) (h.le_above x hx u hu hanc hne)
          · obtain rfl := List.mem_singleton.1 hx
            exact Nat.le_trans (Nat.min_le_right _ _) (hlabel u hu hanc)
    · have hreads := read_eq (l := s.2.state) (Nat.pos_of_ne_zero hpre) (by rw [h.linked.sized.state]; exact hrange.2)
      have hfresh := h.linked.fresh _ (Nat.pos_of_ne_zero hpre) (Nat.not_lt.1 hlt)
      refine ⟨(min s.1 (val D.toPre v), s.2), fun limit => ?_, ?_⟩
      · simp [semiStep, hv0, hread, hpre, hlt, hreads, hfresh]
      · refine ⟨h.linked, h.semi, ?_, ?_, fun x hx hne hxw => ?_, fun x hx u hu hanc hne => ?_⟩
        · rcases Nat.le_total s.1 (val D.toPre v) with hmin | hmin
          · rw [Nat.min_eq_left hmin]
            exact h.candidate
          · rw [Nat.min_eq_right hmin]
            exact .pred hedge (Nat.not_lt.1 hlt)
        · exact Nat.le_trans (Nat.min_le_left _ _) h.le_parent
        · rcases List.mem_append.1 hx with hx | hx
          · exact Nat.le_trans (Nat.min_le_left _ _) (h.le_pred x hx hne hxw)
          · obtain rfl := List.mem_singleton.1 hx
            exact Nat.min_le_right _ _
        · rcases List.mem_append.1 hx with hx | hx
          · exact Nat.le_trans (Nat.min_le_left _ _) (h.le_above x hx u hu hanc hne)
          · obtain rfl := List.mem_singleton.1 hx
            have := hT.anc_le hanc hrange.2
            omega

theorem computeSemi_spec {w : ℕ} {F : Forest}
    (h : Linked (rootOf isPost) D.fromPre.length (val D.toParentPre) w F)
    (hsemis : HasSemis isPost blocks D (w + 1) F.state) (hw : rootOf isPost < w) (hwn : w ≤ D.fromPre.length) :
    ∃ F', (∀ limit, computeSemi limit isPost D blocks F w = some F') ∧
      Linked (rootOf isPost) D.fromPre.length (val D.toParentPre) (w - 1) F' ∧ HasSemis isPost blocks D w F'.state ∧
      ∀ x, x ≠ w → (val F'.state x).semi = (val F.state x).semi := by
  have hG := hD.numbering.numbered
  have hw0 : 0 < w := by omega
  have hparent := h.parent w (Nat.le_refl w)
  have hanc := read_eq hw0 (h.sized.ancestors.symm ▸ hwn)
  have hfrom := read_eq hw0 hwn
  have hedges := (hD.domEdges_eq hcfg hw0 hwn).1
  obtain ⟨⟨semiW, F₁⟩, hfold, hs⟩ := foldlM_spec (f := fun limit => semiStep limit D w)
    (s := (val D.toParentPre w, F)) (SemiSoFar isPost blocks D w F) (domEdgeList isPost blocks (val D.fromPre w))
    ⟨h, fun _ => rfl, .parent, Nat.le_refl _, (fun v hv => by cases hv), (fun v hv => by cases hv)⟩
    (fun done v rest s heq hs => hs.step hcfg hD hsemis hw hwn (by simp [heq]))
  obtain ⟨state, hwrite, hlen, hval⟩ := write_spec (l := F₁.state) hw0 (hs.linked.sized.state.symm ▸ hwn)
    (⟨semiW, semiW⟩ : SNCAData)
  refine ⟨{ F₁ with state := state }, fun limit => ?_, ?_, fun u hwu hun => ?_, fun x hx => ?_⟩
  · simp [computeSemi, hanc, hparent, hfrom, hedges, hfold limit, hwrite]
  · exact hs.linked.link hG.toTreeOrder hw hwn (hlen.trans hs.linked.sized.state) hval
  · by_cases huw : u = w
    · subst huw
      simp only [hval, Function.update_self]
      refine hG.semi_of_candidates hw hwn hs.candidate fun c hc => ?_
      cases hc with
      | parent => exact hs.le_parent
      | @pred v hedge hle =>
          rcases hD.mem_of_edge hcfg hw hwn hedge with rfl | ⟨hne, x, hx, rfl⟩
          · exact hs.le_parent
          · exact hs.le_pred x hx hne hle
      | @above v x _ hedge hlt hancx hsemi =>
          have hxn : x ≤ D.fromPre.length := Nat.le_trans (hG.anc_le hancx hedge.1.2) hedge.1.2
          have hxv := hG.anc_le hancx hedge.1.2
          rcases hD.mem_of_edge hcfg hw hwn hedge with rfl | ⟨hne, y, hy, rfl⟩
          · have := (hG.par_lt u hw hwn).2
            omega
          · have hle := hs.le_above y hy x hlt hancx hne
            exact Nat.le_trans hle ((hsemis x hlt hxn).least c hsemi.path)
    · simp only [hval, Function.update_of_ne huw]
      rw [hs.semi u]
      exact hsemis u (by omega) hun
  · simp only [hval, Function.update_of_ne hx]
    exact hs.semi x

end Loop

end Joolia.Compiler
