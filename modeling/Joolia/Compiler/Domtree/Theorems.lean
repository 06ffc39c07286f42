import Joolia.Compiler.Domtree.Queries
import Mathlib.Tactic.IntervalCases

namespace Joolia.Compiler

open Loop OneBased Flow

-- A dominator tree together with the search and the semidominators it came from.
structure Valid (isPost : Bool) (blocks : List BasicBlock) (T : GenericDomTree isPost) : Prop where
  dfsTree : IsDFSTree isPost blocks T.dfsTree
  length : T.sncaState.length = T.dfsTree.fromPre.length
  semis : HasSemis isPost blocks T.dfsTree (rootOf isPost + 1) T.sncaState
  root : isPost = false → (val T.sncaState 1).semi = typemaxPreNumber
  domtree : IsDomTree isPost blocks T

section Update

variable {isPost : Bool} {blocks : List BasicBlock} (hcfg : Consistent blocks)
include hcfg

-- The part of `update_domtree!` after the search.
theorem recompute_spec {T : GenericDomTree isPost} (hD : IsDFSTree isPost blocks T.dfsTree) {maxPre : ℕ}
    (hle : maxPre ≤ T.dfsTree.fromPre.length) (hroot : rootOf isPost ≤ maxPre)
    (hsemis : HasSemis isPost blocks T.dfsTree (maxPre + 1) (resize T.sncaState T.dfsTree.fromPre.length)) :
    ∃ T', (∀ limit, (snca limit T blocks maxPre).bind computeDomtreeNodes = some T') ∧ Valid isPost blocks T' ∧
      T'.dfsTree = T.dfsTree := by
  obtain ⟨state, idomsBB, hsnca, hlen, hsemis', hrootSemi, hidoms⟩ := snca_spec hcfg hD hle hroot hsemis
  have hpos : 0 < idomsBB.length := hidoms.length.symm ▸ hcfg.nonempty
  obtain ⟨nodes, hnodes, hhas⟩ := computeDomtreeNodes_spec
    (T := ({ T with sncaState := state, idomsBB := idomsBB } : GenericDomTree isPost))
    (hidoms.rooted hcfg hD) hpos fun hdom => by
      subst hdom
      refine ⟨hidoms.none 1 Nat.one_pos hcfg.nonempty (.inl rfl), fun root b k hb hbn hd => ?_⟩
      exact hidoms.root_one hcfg hD rfl hb (hidoms.length ▸ hbn) hd
  refine ⟨{ T with sncaState := state, idomsBB := idomsBB, nodes := nodes }, fun limit => ?_,
    ⟨hD, hlen, hsemis', hrootSemi, hidoms, ?_⟩, rfl⟩
  · rw [hsnca limit, Option.bind_some, hnodes]
  · simp only [hidoms.length] at hhas
    exact hhas

-- `update_domtree!` from scratch.
theorem updateDomtree_spec (T : GenericDomTree isPost) :
    ∃ T', (∀ limit, updateDomtree limit blocks T true 0 = some T') ∧ Valid isPost blocks T' := by
  obtain ⟨D, hdfs, hD⟩ := dfs_spec hcfg T.dfsTree
  obtain ⟨T', hT', hvalid, -⟩ := recompute_spec hcfg (T := { T with dfsTree := D }) hD (Nat.le_refl _)
    hD.numbering.root_le fun u hu hun => absurd hun (Nat.not_le.2 hu)
  exact ⟨T', fun limit => by simpa [updateDomtree, hdfs] using hT' limit, hvalid⟩

-- `update_domtree!` with the search tree and the later semidominators as they are.
theorem updateDomtree_partial_spec {T : GenericDomTree isPost} (hD : IsDFSTree isPost blocks T.dfsTree)
    (hlen : T.sncaState.length = T.dfsTree.fromPre.length) {maxPre : ℕ} (hpos : 0 < maxPre)
    (hle : maxPre ≤ T.dfsTree.fromPre.length) (hsemis : HasSemis isPost blocks T.dfsTree (maxPre + 1) T.sncaState) :
    ∃ T', (∀ limit, updateDomtree limit blocks T false maxPre = some T') ∧ Valid isPost blocks T' ∧
      T'.dfsTree = T.dfsTree := by
  obtain ⟨T', hT', hvalid, heq⟩ := recompute_spec hcfg hD hle (Nat.le_trans (rootOf_le isPost) hpos)
    fun u hu hun => by
      rw [val_resize hun (Nat.le_of_eq hlen.symm)]
      exact hsemis u hu hun
  refine ⟨T', fun limit => ?_, hvalid, heq⟩
  simpa [updateDomtree, Nat.ne_of_gt hpos] using hT' limit

end Update

-- Control flow from one block to another.
def Edge (blocks : List BasicBlock) (a b : ℕ) : Prop := b ∈ (val blocks a).succs

def Exit (blocks : List BasicBlock) (b : ℕ) : Prop := (0 < b ∧ b ≤ blocks.length) ∧ (val blocks b).succs = []

def Reachable (blocks : List BasicBlock) (b : ℕ) : Prop := ∃ l, Walk (Edge blocks) 1 b l

def ReachesExit (blocks : List BasicBlock) (b : ℕ) : Prop := ∃ e l, Exit blocks e ∧ Walk (Edge blocks) b e l

-- Every path from `b` to an exit passes `d`.
def PostDominates (blocks : List BasicBlock) (d b : ℕ) : Prop :=
  ∀ e l, Exit blocks e → Walk (Edge blocks) b e l → d ∈ l

-- A tree that describes a relation of domination on the blocks of the tree.
structure Describes (n : ℕ) (In : ℕ → Prop) (Dom : ℕ → ℕ → Prop) {isPost : Bool} (T : GenericDomTree isPost) : Prop where
  length : T.idomsBB.length = n ∧ T.nodes.length = n
  none : ∀ b, 0 < b → b ≤ n → ¬In b → val T.idomsBB b = 0
  idom : ∀ b, 0 < b → b ≤ n → In b →
    (val T.idomsBB b = 0 ∧ ∀ d, d ≠ b → ¬Dom d b) ∨
    (val T.idomsBB b ≠ 0 ∧ In (val T.idomsBB b) ∧ val T.idomsBB b ≠ b ∧ Dom (val T.idomsBB b) b ∧
      ∀ d, d ≠ b → Dom d b → Dom d (val T.idomsBB b))
  children : ∀ b, 0 < b → b ≤ n → (val T.nodes b).children = (List.range' 1 n).filter (val T.idomsBB · = b)
  level_root : ∀ b, 0 < b → b ≤ n → val T.idomsBB b = 0 → (val T.nodes b).level = 1
  level_child : ∀ b, 0 < b → b ≤ n → val T.idomsBB b ≠ 0 →
    (val T.nodes b).level = (val T.nodes (val T.idomsBB b)).level + 1
  dominates : ∀ b1 b2, 0 < b1 → b1 ≤ n → In b1 → 0 < b2 → b2 ≤ n → In b2 →
    ∃ v, dominates T b1 b2 = some v ∧ (v = true ↔ Dom b1 b2)
  nearest : ∀ a b, 0 < a → a ≤ n → In a → 0 < b → b ≤ n → In b → ∃ c, nearestCommonDominator T a b = some c ∧
    ((c = 0 ∧ ∀ d, ¬(Dom d a ∧ Dom d b)) ∨
      (c ≠ 0 ∧ In c ∧ Dom c a ∧ Dom c b ∧
        ∀ d, Dom d a → Dom d b → Dom d c ∧ (val T.nodes d).level ≤ (val T.nodes c).level))

section Describes

variable {isPost : Bool} {blocks : List BasicBlock} {T : GenericDomTree isPost} (hcfg : Consistent blocks)
  (h : Valid isPost blocks T)
include hcfg

theorem Consistent.inTree_of_dom {d b : ℕ} (hb : InTree isPost blocks b) (hd : d ≠ 0) (hdom : Dom isPost blocks d b) :
    InTree isPost blocks d := by
  obtain ⟨l, hwalk⟩ := hb.2
  obtain ⟨l', hwalk', -⟩ := hwalk.upTo (hdom l hwalk)
  exact ⟨⟨Nat.pos_of_ne_zero hd, hcfg.reaches_le ⟨l', hwalk'⟩⟩, l', hwalk'⟩

include h

-- The tree describes domination however it is written down.
theorem Valid.describes {In : ℕ → Prop} {R : ℕ → ℕ → Prop}
    (hIn : ∀ b, 0 < b → b ≤ blocks.length → (In b ↔ Reaches isPost blocks b))
    (hR : ∀ d b, InTree isPost blocks b → (R d b ↔ d ≠ 0 ∧ Dom isPost blocks d b)) :
    Describes blocks.length In R T := by
  have hA := h.domtree.ancestry hcfg h.dfsTree
  have htree : ∀ b, 0 < b → b ≤ blocks.length → In b → InTree isPost blocks b := fun b hb hbn hin =>
    ⟨⟨hb, hbn⟩, (hIn b hb hbn).1 hin⟩
  have hin : ∀ b, InTree isPost blocks b → In b := fun b hb => (hIn b hb.1.1 hb.1.2).2 hb.2
  constructor
  case length => exact ⟨h.domtree.idoms.length, h.domtree.nodes.length⟩
  case none =>
      intro b hb hbn hno
      rw [hIn b hb hbn] at hno
      exact h.domtree.idoms.none b hb hbn (.inr hno)
  case idom =>
      intro b hb hbn hb'
      have hb' := htree b hb hbn hb'
      by_cases h0 : val T.idomsBB b = 0
      · refine .inl ⟨h0, fun d hne hdom => ?_⟩
        obtain ⟨hd, hdom⟩ := (hR d b hb').1 hdom
        rcases (hA.dom_iff b d hb' hd).1 hdom with heq | ⟨hne0, -⟩
        · exact hne heq
        · exact hne0 h0
      · obtain ⟨hroot, hreach, htree', -⟩ := h.domtree.idoms.of_ne_zero hcfg h.dfsTree hb hbn h0
        have hidom := h.domtree.idoms.idom b hb hbn hroot hreach
        refine .inr ⟨h0, hin _ htree', hidom.ne, (hR _ b hb').2 ⟨h0, hidom.dominates⟩, fun d hne hdom => ?_⟩
        obtain ⟨hd, hdom⟩ := (hR d b hb').1 hdom
        exact (hR d _ htree').2 ⟨hd, hidom.least d hne hdom⟩
  case children => exact h.domtree.nodes.children
  case level_root => exact h.domtree.nodes.root
  case level_child => exact h.domtree.nodes.level
  case dominates =>
      intro b1 b2 h1 h1n hin1 h2 h2n hin2
      have ht2 := htree b2 h2 h2n hin2
      obtain ⟨v, hv, hiff⟩ := h.domtree.dominates_spec hcfg h.dfsTree (htree b1 h1 h1n hin1) ht2
      refine ⟨v, hv, hiff.trans ?_⟩
      rw [hR b1 b2 ht2]
      exact (and_iff_right (Nat.ne_of_gt h1)).symm
  case nearest =>
      intro a b ha han hina hb hbn hinb
      have hta := htree a ha han hina
      have htb := htree b hb hbn hinb
      obtain ⟨c, hc, hcommon⟩ := h.domtree.nearestCommonDominator_spec hcfg h.dfsTree hta htb
      refine ⟨c, hc, ?_⟩
      have hpair : ∀ d, R d a ∧ R d b → d ≠ 0 ∧ c ≠ 0 ∧ Dom isPost blocks d c := by
        rintro d ⟨hda, hdb⟩
        obtain ⟨hd, hda⟩ := (hR d a hta).1 hda
        have := (hcommon d hd).1 ⟨hda, ((hR d b htb).1 hdb).2⟩
        exact ⟨hd, this⟩
      by_cases hc0 : c = 0
      · exact .inl ⟨hc0, fun d hd => (hpair d hd).2.1 hc0⟩
      · obtain ⟨hca, hcb⟩ := (hcommon c hc0).2 ⟨hc0, dominates_self _ c⟩
        have htc := hcfg.inTree_of_dom hta hc0 hca
        refine .inr ⟨hc0, hin c htc, (hR c a hta).2 ⟨hc0, hca⟩, (hR c b htb).2 ⟨hc0, hcb⟩, fun d hda hdb => ?_⟩
        obtain ⟨hd, -, hdc⟩ := hpair d ⟨hda, hdb⟩
        have htd := hcfg.inTree_of_dom htc hd hdc
        exact ⟨(hR d c htc).2 ⟨hd, hdc⟩, ((hA.dom_iff_level htc htd).1 hdc).1⟩

end Describes

section Post

variable {blocks : List BasicBlock} (hcfg : Consistent blocks)
include hcfg

theorem Consistent.edge_range {a b : ℕ} (h : Edge blocks a b) : (0 < a ∧ a ≤ blocks.length) ∧ 0 < b ∧ b ≤ blocks.length := by
  have ha : 0 < a ∧ a ≤ blocks.length := by
    by_contra hno
    rw [Edge, val_eq_default (by omega)] at h
    cases h
  exact ⟨ha, hcfg.succs_range a ha.1 ha.2 b h⟩

-- Away from the virtual exit the search runs against the control flow.
theorem Consistent.flows_true_iff {a b : ℕ} (ha : a ≠ 0) : Flows true blocks a b ↔ Edge blocks b a := by
  constructor
  · intro h
    have hb := hcfg.flows_range h
    have hran : 0 < a ∧ a ≤ blocks.length := by
      by_contra hno
      simp only [Flows, if_true, if_neg ha] at h
      rw [val_eq_default (by omega)] at h
      cases h.2
    simp only [Flows, if_true, if_neg ha] at h
    exact (hcfg.mem_iff b a hb.1 hb.2 hran.1 hran.2).2 h.2
  · intro h
    obtain ⟨hb, ha'⟩ := hcfg.edge_range h
    simp only [Flows, if_true, if_neg ha]
    exact ⟨Nat.ne_of_gt hb.1, (hcfg.mem_iff b a hb.1 hb.2 ha'.1 ha'.2).1 h⟩

theorem Consistent.walk_flows {e b : ℕ} {l : List ℕ} (h : Walk (Flows true blocks) e b l) (he : e ≠ 0) :
    Walk (Edge blocks) b e l.reverse ∧ 0 ∉ l := by
  induction h with
  | nil a => exact ⟨.nil a, by simpa using Ne.symm he⟩
  | @cons a c b l hac _ ih =>
      obtain ⟨hwalk, hmem⟩ := ih (Nat.ne_of_gt (hcfg.flows_range hac).1)
      rw [List.reverse_cons]
      refine ⟨hwalk.snoc ((hcfg.flows_true_iff he).1 hac), ?_⟩
      rintro (_ | ⟨_, hin⟩)
      · exact he rfl
      · exact hmem hin

-- The walks from the virtual exit are the reversed paths to the exits.
theorem Consistent.walk_exit {b : ℕ} {l : List ℕ} (h : Walk (Flows true blocks) 0 b l) (hb : b ≠ 0) :
    ∃ e l', Exit blocks e ∧ Walk (Edge blocks) b e l' ∧ l = 0 :: l'.reverse := by
  cases h with
  | nil => exact (hb rfl).elim
  | @cons _ e _ l hexit hwalk =>
      simp only [Flows, if_true] at hexit
      obtain ⟨hwalk', -⟩ := hcfg.walk_flows hwalk (Nat.ne_of_gt hexit.1.1)
      exact ⟨e, l.reverse, hexit, hwalk', by rw [List.reverse_reverse]⟩

theorem Consistent.walk_of_exit {e b : ℕ} {l : List ℕ} (he : Exit blocks e) (h : Walk (Edge blocks) b e l) :
    Walk (Flows true blocks) 0 b (0 :: l.reverse) := by
  refine .cons (show Flows true blocks 0 e from he) (h.reverse fun x y hxy => ?_)
  exact (hcfg.flows_true_iff (Nat.ne_of_gt (hcfg.edge_range hxy).2.1)).2 hxy

theorem Consistent.reachesExit_iff {b : ℕ} (hb : 0 < b) : ReachesExit blocks b ↔ Reaches true blocks b := by
  constructor
  · rintro ⟨e, l, he, hwalk⟩
    exact ⟨_, hcfg.walk_of_exit he hwalk⟩
  · rintro ⟨l, hwalk⟩
    obtain ⟨e, l', he, hwalk', -⟩ := hcfg.walk_exit hwalk (Nat.ne_of_gt hb)
    exact ⟨e, l', he, hwalk'⟩

theorem Consistent.postDominates_iff {d b : ℕ} (hb : InTree true blocks b) :
    PostDominates blocks d b ↔ d ≠ 0 ∧ Dom true blocks d b := by
  have hb0 := Nat.ne_of_gt hb.1.1
  constructor
  · intro h
    refine ⟨?_, fun l hwalk => ?_⟩
    · rintro rfl
      obtain ⟨e, l, he, hwalk⟩ := (hcfg.reachesExit_iff hb.1.1).2 hb.2
      have hpos : ∀ x ∈ l, x ≠ 0 := hwalk.mem_of_closed hb0 fun x y hxy => Nat.ne_of_gt (hcfg.edge_range hxy).2.1
      exact hpos 0 (h e l he hwalk) rfl
    · obtain ⟨e, l', he, hwalk', rfl⟩ := hcfg.walk_exit hwalk hb0
      exact List.mem_cons_of_mem 0 (List.mem_reverse.2 (h e l' he hwalk'))
  · rintro ⟨hd, h⟩ e l he hwalk
    rcases List.mem_cons.1 (h _ (hcfg.walk_of_exit he hwalk)) with hzero | hmem
    · exact (hd hzero).elim
    · exact List.mem_reverse.1 hmem

theorem Consistent.dominates_iff {d b : ℕ} (hb : InTree false blocks b) :
    Dominates (Edge blocks) 1 d b ↔ d ≠ 0 ∧ Dom false blocks d b := by
  have hsame : Dominates (Edge blocks) 1 d b ↔ Dom false blocks d b := Iff.rfl
  rw [hsame]
  refine ⟨fun h => ⟨?_, h⟩, fun h => h.2⟩
  rintro rfl
  obtain ⟨l, hwalk⟩ := hb.2
  have hpos : ∀ x ∈ l, x ≠ 0 := hwalk.mem_of_closed (Nat.one_ne_zero) fun x y hxy => Nat.ne_of_gt (hcfg.flows_range hxy).1
  exact hpos 0 (h l hwalk) rfl

end Post

-- The dominator and the post-dominator tree are built, the same ones for every bound up
-- to which path compression recurses, and describe domination and post-domination.
theorem domtrees_correct (blocks : List BasicBlock) (hcfg : Consistent blocks) :
    (∃ T : DomTree, (∀ limit, constructDomtree limit blocks = some T) ∧ val T.idomsBB 1 = 0 ∧
      Describes blocks.length (Reachable blocks) (Dominates (Edge blocks) 1) T) ∧
    ∃ T : PostDomTree, (∀ limit, constructPostdomtree limit blocks = some T) ∧
      Describes blocks.length (ReachesExit blocks) (PostDominates blocks) T := by
  constructor
  · obtain ⟨T, hT, hvalid⟩ := updateDomtree_spec hcfg (.empty false)
    refine ⟨T, hT, hvalid.domtree.idoms.none 1 Nat.one_pos hcfg.nonempty (.inl rfl), ?_⟩
    exact hvalid.describes hcfg (fun b _ _ => Iff.rfl) fun d b hb => hcfg.dominates_iff hb
  · obtain ⟨T, hT, hvalid⟩ := updateDomtree_spec hcfg (.empty true)
    refine ⟨T, hT, ?_⟩
    exact hvalid.describes hcfg (fun b hb _ => hcfg.reachesExit_iff hb) fun d b hb => hcfg.postDominates_iff hb

-- A loop between the blocks 3 and 4, with a virtual edge into block 3 and an unreachable
-- block 6.
def loopWithCatch : List BasicBlock :=
  [⟨[], [2, 3]⟩, ⟨[1], [4]⟩, ⟨[0, 1, 4], [4]⟩, ⟨[2, 3], [3, 5]⟩, ⟨[4, 6], []⟩, ⟨[], [5]⟩]

theorem loopWithCatch_consistent : Consistent loopWithCatch := by
  constructor
  · decide
  · intro b hb hbn
    change b ≤ 6 at hbn
    interval_cases b <;> decide
  · intro b hb hbn
    change b ≤ 6 at hbn
    interval_cases b <;> decide
  · intro a b ha han hb hbn
    change a ≤ 6 at han
    change b ≤ 6 at hbn
    interval_cases a <;> interval_cases b <;> decide

theorem domtrees_correct_loop : ∃ (T : DomTree) (P : PostDomTree),
    constructDomtree compressLimit loopWithCatch = some T ∧ constructPostdomtree compressLimit loopWithCatch = some P ∧
    T.idomsBB = [0, 1, 1, 1, 4, 0] ∧ P.idomsBB = [4, 4, 4, 5, 0, 5] ∧
    Describes 6 (Reachable loopWithCatch) (Dominates (Edge loopWithCatch) 1) T ∧
    Describes 6 (ReachesExit loopWithCatch) (PostDominates loopWithCatch) P := by
  obtain ⟨⟨T, hT, -, hdom⟩, P, hP, hpost⟩ := domtrees_correct loopWithCatch loopWithCatch_consistent
  have hidoms : (constructDomtree compressLimit loopWithCatch).map (·.idomsBB) = some [0, 1, 1, 1, 4, 0] := by decide
  have hidoms' : (constructPostdomtree compressLimit loopWithCatch).map (·.idomsBB) = some [4, 4, 4, 5, 0, 5] := by decide
  refine ⟨T, P, hT _, hP _, ?_, ?_, hdom, hpost⟩
  · simpa [hT] using hidoms
  · simpa [hP] using hidoms'

end Joolia.Compiler
