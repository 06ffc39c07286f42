import Joolia.Compiler.Domtree.Nodes
import Joolia.Compiler.Domtree.Snca
import Joolia.Library.TreeOrder

namespace Joolia.Compiler

open Loop OneBased Flow

def InTree (isPost : Bool) (blocks : List BasicBlock) (b : ℕ) : Prop :=
  (0 < b ∧ b ≤ blocks.length) ∧ Reaches isPost blocks b

-- Domination in the graph that is searched.
abbrev Dom (isPost : Bool) (blocks : List BasicBlock) : ℕ → ℕ → Prop := Dominates (Flows isPost blocks) (rootOf isPost)

-- The immediate dominators with the children and levels that go with them.
structure IsDomTree (isPost : Bool) (blocks : List BasicBlock) (T : GenericDomTree isPost) : Prop where
  idoms : HasIdoms isPost blocks T.idomsBB
  nodes : HasNodes blocks.length (val T.idomsBB) T.nodes

section Forest

variable {isPost : Bool} {blocks : List BasicBlock} {D : DFSTree} {idomsBB : List ℕ} (hcfg : Consistent blocks)
  (hD : IsDFSTree isPost blocks D) (h : HasIdoms isPost blocks idomsBB)
include hcfg hD h

omit hD h in
theorem Consistent.reaches_le {b : ℕ} (hb : Reaches isPost blocks b) : b ≤ blocks.length := by
  obtain ⟨l, hwalk⟩ := hb
  by_cases hroot : b = rootOf isPost
  · rw [hroot]
    exact Nat.le_trans (rootOf_le isPost) hcfg.nonempty
  · rcases hwalk.via.cases_tail with heq | ⟨c, -, hc, -⟩
    · exact (hroot heq).elim
    · exact (hcfg.flows_range hc).2

-- A block with an immediate dominator is in the tree, and so is its dominator.
theorem HasIdoms.of_ne_zero {b : ℕ} (hb : 0 < b) (hbn : b ≤ blocks.length) (hne : val idomsBB b ≠ 0) :
    b ≠ rootOf isPost ∧ Reaches isPost blocks b ∧ InTree isPost blocks (val idomsBB b) ∧
      val D.toPre (val idomsBB b) < val D.toPre b := by
  have hroot : b ≠ rootOf isPost := fun heq => hne (h.none b hb hbn (.inl heq))
  have hreach : Reaches isPost blocks b := by
    by_contra hno
    exact hne (h.none b hb hbn (.inr hno))
  have hidom := h.idom b hb hbn hroot hreach
  obtain ⟨hrange, hvertex⟩ := hD.of_toPre ((hD.reaches_iff hb).1 hreach)
  have hdom := hidom.dominates
  rw [← hvertex] at hdom
  obtain ⟨d, hd, heq⟩ := hD.numbering.exists_of_dominates hrange hdom
  rw [hvertex] at heq
  have hreachd : Reaches isPost blocks (val idomsBB b) :=
    hD.numbering.reachable_iff.2 ⟨d, by omega, heq⟩
  refine ⟨hroot, hreach, ⟨⟨Nat.pos_of_ne_zero hne, hcfg.reaches_le hreachd⟩, hreachd⟩, ?_⟩
  have hpre : val D.toPre (val idomsBB b) = d := by rw [← heq, hD.numbering.pre_vertex d (by omega) (by omega)]
  have hdne : d ≠ val D.toPre b := by
    rintro rfl
    exact hidom.ne (heq.symm.trans hvertex)
  omega

theorem HasIdoms.rooted : Rooted idomsBB.length (val idomsBB) (val D.toPre) := by
  constructor
  · intro b hb hbn
    rw [h.length] at hbn ⊢
    by_cases hne : val idomsBB b = 0
    · omega
    · exact (h.of_ne_zero hcfg hD hb hbn hne).2.2.1.1.2
  · intro b hb hbn hne
    rw [h.length] at hbn
    exact (h.of_ne_zero hcfg hD hb hbn hne).2.2.2

omit hcfg in
theorem HasIdoms.ne_zero (hdom : isPost = false) {b : ℕ} (hb : 0 < b) (hbn : b ≤ blocks.length) (hroot : b ≠ 1)
    (hreach : Reaches isPost blocks b) : val idomsBB b ≠ 0 := by
  subst hdom
  have hidom := (h.idom b hb hbn hroot hreach).dominates
  obtain ⟨hrange, hvertex⟩ := hD.of_toPre ((hD.reaches_iff hb).1 hreach)
  rw [← hvertex] at hidom
  obtain ⟨d, hd, heq⟩ := hD.numbering.exists_of_dominates hrange hidom
  rw [hvertex] at heq
  have := hD.range d hd.1 (by omega)
  omega

-- In a dominator tree everything hangs below the entry.
theorem HasIdoms.root_one (hdom : isPost = false) {root b k : ℕ} (hb : 0 < b) (hbn : b ≤ blocks.length)
    (hd : Depth (val idomsBB) root b k) : root = 1 ∨ k = 1 := by
  induction hd with
  | root _ => exact .inr rfl
  | @child b k hne hd ih =>
      left
      obtain ⟨-, -, ⟨⟨hd0, hdn⟩, hreach⟩, -⟩ := h.of_ne_zero hcfg hD hb hbn hne
      rcases ih hd0 hdn with hroot | hk
      · exact hroot
      · subst hk
        cases hd with
        | root hzero =>
            by_contra hno
            exact h.ne_zero hD hdom hd0 hdn hno hreach hzero
        | child hne' hd' =>
            cases hd'

end Forest

section Queries

variable {isPost : Bool} {blocks : List BasicBlock} {T : GenericDomTree isPost} {D : DFSTree} (hcfg : Consistent blocks)
  (hD : IsDFSTree isPost blocks D) (h : IsDomTree isPost blocks T)
include hcfg hD h

theorem IsDomTree.ancestry : Ancestry (InTree isPost blocks) (val T.idomsBB) (fun b => (val T.nodes b).level)
    (Dom isPost blocks) := by
  constructor
  case ne_zero => exact fun b hb => Nat.ne_of_gt hb.1.1
  case up_mem =>
      intro b hb
      by_cases h0 : val T.idomsBB b = 0
      · exact .inl h0
      · exact .inr (h.idoms.of_ne_zero hcfg hD hb.1.1 hb.1.2 h0).2.2.1
  case lv_root => exact fun b hb => h.nodes.root b hb.1.1 hb.1.2
  case lv_up => exact fun b hb => h.nodes.level b hb.1.1 hb.1.2
  case dom_iff =>
      intro b d hb hd
      constructor
      · intro hdom
        by_cases hdb : d = b
        · exact .inl hdb
        · right
          have hroot : b ≠ rootOf isPost := by
            rintro rfl
            exact hdb (List.mem_singleton.1 (hdom _ (.nil _)))
          have hleast := (h.idoms.idom b hb.1.1 hb.1.2 hroot hb.2).least d hdb hdom
          refine ⟨fun h0 => ?_, hleast⟩
          rw [h0] at hleast
          cases isPost with
          | false => exact h.idoms.ne_zero hD rfl hb.1.1 hb.1.2 hroot hb.2 h0
          | true => exact hd (List.mem_singleton.1 (hleast _ (.nil _)))
      · rintro (rfl | ⟨h0, hdom⟩)
        · exact dominates_self _ d
        · obtain ⟨hroot, hreach, -, -⟩ := h.idoms.of_ne_zero hcfg hD hb.1.1 hb.1.2 h0
          exact dominates_trans hdom (h.idoms.idom b hb.1.1 hb.1.2 hroot hreach).dominates

omit hcfg hD in
theorem IsDomTree.read_idom {b : ℕ} (hb : InTree isPost blocks b) : read T.idomsBB b = some (val T.idomsBB b) :=
  read_eq hb.1.1 (h.idoms.length.symm ▸ hb.1.2)

omit hcfg hD in
theorem IsDomTree.read_node {b : ℕ} (hb : InTree isPost blocks b) : read T.nodes b = some (val T.nodes b) :=
  read_eq hb.1.1 (h.nodes.length.symm ▸ hb.1.2)

-- Following immediate dominators for as many steps as a list has elements.
theorem IsDomTree.foldlM_idom {b : ℕ} (hb : InTree isPost blocks b) {l : List ℕ} (hl : l.length < (val T.nodes b).level) :
    l.foldlM (fun b _ => read T.idomsBB b) b = some ((val T.idomsBB)^[l.length] b) := by
  have hA := h.ancestry hcfg hD
  induction l using List.reverseRecOn with
  | nil => rfl
  | append_singleton l x ih =>
      rw [List.length_append, List.length_singleton] at hl
      have hin := (hA.climb hb (k := l.length) (by omega)).1
      rw [List.foldlM_append, ih (by omega), List.length_append, List.length_singleton, Function.iterate_succ_apply']
      simp [h.read_idom hin]

-- `_dominates` on blocks of the tree.
theorem IsDomTree.dominates_spec {b1 b2 : ℕ} (hb1 : InTree isPost blocks b1) (hb2 : InTree isPost blocks b2) :
    ∃ v, dominates T b1 b2 = some v ∧ (v = true ↔ Dom isPost blocks b1 b2) := by
  have hA := h.ancestry hcfg hD
  have hpos := hA.lv_pos hb1
  rw [hA.dom_iff_level hb2 hb1]
  by_cases heq : b1 = b2
  · subst heq
    exact ⟨true, by simp [dominates], by simp⟩
  · have hread1 := h.read_node hb1
    have hread2 := h.read_node hb2
    by_cases hlt : (val T.nodes b2).level < (val T.nodes b1).level
    · exact ⟨false, by simp [dominates, heq, hread1, hread2, hlt], by simp; omega⟩
    · have hfold := h.foldlM_idom hcfg hD hb2
        (l := (List.range' (val T.nodes b1).level ((val T.nodes b2).level - (val T.nodes b1).level)).reverse)
        (by simp only [List.length_reverse, List.length_range']; omega)
      refine ⟨b1 == (val T.idomsBB)^[(val T.nodes b2).level - (val T.nodes b1).level] b2, ?_, ?_⟩
      · simp only [List.length_reverse, List.length_range'] at hfold
        simp only [dominates, heq, if_false, hread1, hread2, Option.bind_eq_bind, Option.bind_some, hlt, hfold]
      · rw [beq_iff_eq]
        exact ⟨fun he => ⟨Nat.not_lt.1 hlt, he.symm⟩, fun he => he.2.symm⟩

-- The first loop of `nearest_common_dominator`: climbing from the deeper block.
theorem IsDomTree.climb_to_level {a b : ℕ} (ha : InTree isPost blocks a) (hb : InTree isPost blocks b)
    (hle : (val T.nodes b).level ≤ (val T.nodes a).level) :
    ∃ a', whileDo (fun (_, alevel) => decide ((val T.nodes b).level < alevel))
        (fun (a, alevel) => do some (← read T.idomsBB a, alevel - 1)) ((val T.nodes a).level + 1)
        (a, (val T.nodes a).level) = some (a', (val T.nodes b).level) ∧
      InTree isPost blocks a' ∧ (val T.nodes a').level = (val T.nodes b).level ∧
      ∀ d, d ≠ 0 → ((Dom isPost blocks d a ∧ Dom isPost blocks d b) ↔
        (Dom isPost blocks d a' ∧ Dom isPost blocks d b)) := by
  have hA := h.ancestry hcfg hD
  obtain ⟨-, ⟨a', l⟩, hloop, ⟨-, ha', hlv, hble, hcommon⟩, hend⟩ := whileDo_spec
    (c := fun (x : ℕ × ℕ) => decide ((val T.nodes b).level < x.2))
    (b := fun (x : ℕ × ℕ) => do some (← read T.idomsBB x.1, x.2 - 1))
    (fun k x => k = x.2 ∧ InTree isPost blocks x.1 ∧ (val T.nodes x.1).level = x.2 ∧ (val T.nodes b).level ≤ x.2 ∧
      ∀ d, d ≠ 0 → ((Dom isPost blocks d a ∧ Dom isPost blocks d b) ↔
        (Dom isPost blocks d x.1 ∧ Dom isPost blocks d b)))
    (fun k x ⟨hk, hx, hlv, hble, hcommon⟩ hcond => by
      have hlt : (val T.nodes b).level < x.2 := by simpa using hcond
      have hpos := hA.lv_pos hb
      have h0 : val T.idomsBB x.1 ≠ 0 := by
        intro h0
        have := hA.lv_root _ hx h0
        omega
      have hup := hA.lv_up _ hx h0
      refine ⟨x.2 - 1, (val T.idomsBB x.1, x.2 - 1), by omega, by simp [h.read_idom hx], rfl,
        (hA.up_mem _ hx).resolve_left h0, by simp only at hup ⊢; omega, by simp only; omega, fun d hd => ?_⟩
      rw [hcommon d hd]
      refine and_congr_left fun hdb => ?_
      rw [hA.dom_iff _ d hx hd]
      constructor
      · rintro (rfl | ⟨-, hdx⟩)
        · have := ((hA.dom_iff_level hb hx).1 hdb).1
          omega
        · exact hdx
      · exact fun hdx => .inr ⟨h0, hdx⟩)
    (n := (val T.nodes a).level + 1) (s := (a, (val T.nodes a).level)) (k := (val T.nodes a).level)
    ⟨rfl, ha, rfl, hle, fun d _ => Iff.rfl⟩ (by omega)
  have hl : l = (val T.nodes b).level := by
    have : ¬(val T.nodes b).level < l := by simpa using hend
    simp only at hble
    omega
  subst hl
  exact ⟨a', hloop, ha', hlv, hcommon⟩

-- The second loop: climbing from both blocks.
theorem IsDomTree.climb_to_common {a b : ℕ} (ha : InTree isPost blocks a) (hb : InTree isPost blocks b)
    (hlv : (val T.nodes a).level = (val T.nodes b).level) :
    ∃ c, whileDo (fun (a, b) => a != b && a != 0)
        (fun (a, b) => do some (← read T.idomsBB a, ← read T.idomsBB b)) ((val T.nodes b).level + 1) (a, b) = some (c, c) ∧
      ∀ d, d ≠ 0 → ((Dom isPost blocks d a ∧ Dom isPost blocks d b) ↔
        (c ≠ 0 ∧ Dom isPost blocks d c)) := by
  have hA := h.ancestry hcfg hD
  obtain ⟨_, ⟨x, y⟩, hloop, ⟨hxy, hcommon⟩, hend⟩ := whileDo_spec
    (c := fun (x : ℕ × ℕ) => x.1 != x.2 && x.1 != 0)
    (b := fun (x : ℕ × ℕ) => do some (← read T.idomsBB x.1, ← read T.idomsBB x.2))
    (fun k x => ((InTree isPost blocks x.1 ∧ InTree isPost blocks x.2 ∧ (val T.nodes x.1).level = (val T.nodes x.2).level ∧
        (val T.nodes x.1).level = k) ∨ (x.1 = 0 ∧ x.2 = 0)) ∧
      ∀ d, d ≠ 0 → ((Dom isPost blocks d a ∧ Dom isPost blocks d b) ↔
        (x.1 ≠ 0 ∧ Dom isPost blocks d x.1 ∧ Dom isPost blocks d x.2)))
    (fun k x ⟨hx, hcommon⟩ hcond => by
      obtain ⟨hne, hne0⟩ : x.1 ≠ x.2 ∧ x.1 ≠ 0 := by simpa using hcond
      obtain ⟨hx1, hx2, hlv, hk⟩ := hx.resolve_right fun hzero => hne0 hzero.1
      have hpos := hA.lv_pos hx1
      have hstep : (do some (← read T.idomsBB x.1, ← read T.idomsBB x.2)) =
          some (val T.idomsBB x.1, val T.idomsBB x.2) := by simp [h.read_idom hx1, h.read_idom hx2]
      have hpair : ∀ d, d ≠ 0 → ((Dom isPost blocks d a ∧
          Dom isPost blocks d b) ↔ (val T.idomsBB x.1 ≠ 0 ∧ val T.idomsBB x.2 ≠ 0 ∧
            Dom isPost blocks d (val T.idomsBB x.1) ∧
            Dom isPost blocks d (val T.idomsBB x.2))) := fun d hd => by
        rw [hcommon d hd, ← hA.common_iff hx1 hx2 hd hne hlv]
        exact and_iff_right hne0
      refine ⟨k - 1, (val T.idomsBB x.1, val T.idomsBB x.2), by omega, hstep, ?_, fun d hd => ?_⟩
      · by_cases h1 : val T.idomsBB x.1 = 0
        · right
          refine ⟨h1, ?_⟩
          by_contra h2
          have hroot := hA.lv_root _ hx1 h1
          have hup := hA.lv_up _ hx2 h2
          have := hA.lv_pos ((hA.up_mem _ hx2).resolve_left h2)
          omega
        · have hup1 := hA.lv_up _ hx1 h1
          have hin1 := (hA.up_mem _ hx1).resolve_left h1
          have h2 : val T.idomsBB x.2 ≠ 0 := by
            intro h2
            have hroot := hA.lv_root _ hx2 h2
            have := hA.lv_pos hin1
            omega
          have hup2 := hA.lv_up _ hx2 h2
          have hsame : (val T.nodes (val T.idomsBB x.1)).level = (val T.nodes (val T.idomsBB x.2)).level := by omega
          have hless : (val T.nodes (val T.idomsBB x.1)).level = k - 1 := by omega
          exact .inl ⟨hin1, (hA.up_mem _ hx2).resolve_left h2, hsame, hless⟩
      · rw [hpair d hd]
        constructor
        · exact fun ⟨h1, _, hd1, hd2⟩ => ⟨h1, hd1, hd2⟩
        · rintro ⟨h1, hd1, hd2⟩
          refine ⟨h1, fun h2 => ?_, hd1, hd2⟩
          have hup1 := hA.lv_up _ hx1 h1
          have := hA.lv_pos ((hA.up_mem _ hx1).resolve_left h1)
          have hroot := hA.lv_root _ hx2 h2
          omega)
    (n := (val T.nodes b).level + 1) (s := (a, b)) (k := (val T.nodes b).level)
    ⟨.inl ⟨ha, hb, hlv, hlv⟩, fun d _ => ⟨fun hd => ⟨hA.ne_zero a ha, hd.1, hd.2⟩, fun hd => hd.2⟩⟩ (by omega)
  have heq : x = y := by
    rcases hxy with ⟨hx, -, -, -⟩ | ⟨hx, hy⟩
    · by_contra hne
      have hx0 := hA.ne_zero _ hx
      simp only at hx0
      simp [hne, hx0] at hend
    · simp only at hx hy
      omega
  subst heq
  refine ⟨x, hloop, fun d hd => ?_⟩
  rw [hcommon d hd]
  simp only [and_self]

-- The dominators of the result are the common dominators; the result is `0` when there
-- are none.
theorem IsDomTree.nearestCommonDominator_spec {a b : ℕ} (ha : InTree isPost blocks a) (hb : InTree isPost blocks b) :
    ∃ c, nearestCommonDominator T a b = some c ∧
      ∀ d, d ≠ 0 → ((Dom isPost blocks d a ∧ Dom isPost blocks d b) ↔
        (c ≠ 0 ∧ Dom isPost blocks d c)) := by
  have hA := h.ancestry hcfg hD
  have ha0 := hA.ne_zero a ha
  have hb0 := hA.ne_zero b hb
  have hreada := h.read_node ha
  have hreadb := h.read_node hb
  by_cases hlt : (val T.nodes a).level < (val T.nodes b).level
  · obtain ⟨b', hloop, hb', hlv, hcommon⟩ := h.climb_to_level hcfg hD hb ha (Nat.le_of_lt hlt)
    obtain ⟨c, hloop', hc⟩ := h.climb_to_common hcfg hD hb' ha hlv
    refine ⟨c, ?_, fun d hd => ?_⟩
    · simp only [nearestCommonDominator, ha0, hb0, if_false, hreada, hreadb, Option.bind_eq_bind, Option.bind_some, hlt, if_true]
      simp only [Option.bind_eq_bind] at hloop hloop'
      rw [hloop, Option.bind_some, hloop', Option.bind_some, if_pos rfl]
    · rw [← hc d hd, ← hcommon d hd]
      exact and_comm
  · obtain ⟨a', hloop, ha', hlv, hcommon⟩ := h.climb_to_level hcfg hD ha hb (Nat.not_lt.1 hlt)
    obtain ⟨c, hloop', hc⟩ := h.climb_to_common hcfg hD ha' hb hlv
    refine ⟨c, ?_, fun d hd => ?_⟩
    · simp only [nearestCommonDominator, ha0, hb0, if_false, hreada, hreadb, Option.bind_eq_bind, Option.bind_some, hlt]
      simp only [Option.bind_eq_bind] at hloop hloop'
      rw [hloop, Option.bind_some, hloop', Option.bind_some, if_pos rfl]
    · rw [← hc d hd, ← hcommon d hd]

end Queries

end Joolia.Compiler
