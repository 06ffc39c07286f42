import Joolia.Compiler.Domtree
import Joolia.Library.DepthFirst
import Mathlib.Algebra.BigOperators.Intervals
import Mathlib.Algebra.Order.BigOperators.Group.Finset
import Mathlib.Data.List.GetD

namespace Joolia.Compiler

open Loop OneBased Flow

-- The predecessor and successor lists describe one graph on the blocks `1, ..., n`.
structure Consistent (blocks : List BasicBlock) : Prop where
  nonempty : 0 < blocks.length
  preds_le : ∀ b, 0 < b → b ≤ blocks.length → ∀ p ∈ (val blocks b).preds, p ≤ blocks.length
  succs_range : ∀ b, 0 < b → b ≤ blocks.length → ∀ s ∈ (val blocks b).succs, 0 < s ∧ s ≤ blocks.length
  mem_iff : ∀ a b, 0 < a → a ≤ blocks.length → 0 < b → b ≤ blocks.length →
    (b ∈ (val blocks a).succs ↔ a ∈ (val blocks b).preds)

@[simp] theorem default_preds : (default : BasicBlock).preds = [] := rfl

@[simp] theorem default_succs : (default : BasicBlock).succs = [] := rfl

-- The graph that is searched from its root: the control flow from block 1, or the
-- reversed control flow from the virtual exit `0`.
def Flows (isPost : Bool) (blocks : List BasicBlock) (a b : ℕ) : Prop :=
  if isPost then
    if a = 0 then (0 < b ∧ b ≤ blocks.length) ∧ (val blocks b).succs = [] else b ≠ 0 ∧ b ∈ (val blocks a).preds
  else b ∈ (val blocks a).succs

def rootOf (isPost : Bool) : ℕ := if isPost then 0 else 1

@[simp] theorem rootOf_false : rootOf false = 1 := rfl

@[simp] theorem rootOf_true : rootOf true = 0 := rfl

def searchEdgeList (isPost : Bool) (blocks : List BasicBlock) (bb : ℕ) : List ℕ :=
  if isPost && bb == 0 then (List.range' 1 blocks.length).filter fun bb => (val blocks bb).succs.isEmpty
  else if isPost then (val blocks bb).preds else (val blocks bb).succs

theorem searchEdges_eq {blocks : List BasicBlock} (isPost : Bool) {bb : ℕ} (hbb : bb ≤ blocks.length) (hroot : rootOf isPost ≤ bb) :
    searchEdges blocks isPost bb = some (searchEdgeList isPost blocks bb) := by
  unfold searchEdges searchEdgeList
  split
  · rfl
  · have hpos : 0 < bb := by
      cases isPost <;> simp_all [rootOf, Nat.pos_iff_ne_zero]
      omega
    simp [read_eq hpos hbb]

section Edges

variable {blocks : List BasicBlock} (hcfg : Consistent blocks)
include hcfg

theorem Consistent.flows_range {isPost : Bool} {a b : ℕ} (h : Flows isPost blocks a b) : 0 < b ∧ b ≤ blocks.length := by
  by_cases ha : 0 < a ∧ a ≤ blocks.length
  · cases isPost with
    | false => exact hcfg.succs_range a ha.1 ha.2 b h
    | true =>
        simp only [Flows, if_true, if_neg (Nat.pos_iff_ne_zero.1 ha.1)] at h
        exact ⟨Nat.pos_of_ne_zero h.1, hcfg.preds_le a ha.1 ha.2 b h.2⟩
  · have hnone : val blocks a = default := val_eq_default (by omega)
    cases isPost with
    | false => simp [Flows, hnone] at h
    | true =>
        by_cases ha0 : a = 0
        · simp only [Flows, ha0, if_true] at h
          exact h.1
        · simp [Flows, hnone, ha0] at h

theorem Consistent.mem_searchEdgeList {isPost : Bool} {bb b : ℕ} (hroot : rootOf isPost ≤ bb) :
    b ∈ (searchEdgeList isPost blocks bb).filter (· ≠ 0) ↔ Flows isPost blocks bb b := by
  constructor
  · intro hb
    obtain ⟨hb, hne⟩ := List.mem_filter.1 hb
    cases isPost with
    | false => simpa [searchEdgeList, Flows] using hb
    | true =>
        by_cases hbb : bb = 0
        · simp only [searchEdgeList, hbb, List.mem_filter, List.mem_range'_1, List.isEmpty_iff, Flows, if_true,
            Bool.true_and, beq_self_eq_true] at hb ⊢
          exact ⟨by omega, hb.2⟩
        · simp_all [searchEdgeList, Flows]
  · intro hflows
    have hb := hcfg.flows_range hflows
    refine List.mem_filter.2 ⟨?_, by simp; omega⟩
    cases isPost with
    | false => simpa [searchEdgeList, Flows] using hflows
    | true =>
        by_cases hbb : bb = 0
        · simp only [searchEdgeList, hbb, List.mem_filter, List.mem_range'_1, List.isEmpty_iff, Flows, if_true,
            Bool.true_and, beq_self_eq_true] at hflows ⊢
          exact ⟨by omega, hflows.2⟩
        · simp_all [searchEdgeList, Flows]

-- The children are pushed in order, so the last one comes first.
theorem Consistent.pushChildren_eq {isPost : Bool} {bb : ℕ} (preNum : ℕ) (hroot : rootOf isPost ≤ bb) (toVisit : List Visit) :
    pushChildren isPost preNum (searchEdgeList isPost blocks bb) toVisit =
      some (((searchEdgeList isPost blocks bb).filter (· ≠ 0)).reverse.map (⟨·, preNum, false⟩) ++ toVisit) := by
  have hassert : ∀ b ∈ searchEdgeList isPost blocks bb, b = 0 → isPost = true := by
    intro b hb hb0
    cases isPost with
    | true => rfl
    | false =>
        have hflows : Flows false blocks bb b := by simpa [searchEdgeList, Flows] using hb
        have := hcfg.flows_range hflows
        omega
  generalize searchEdgeList isPost blocks bb = edges at hassert
  induction edges generalizing toVisit with
  | nil => rfl
  | cons b edges ih =>
      have ih := fun toVisit => ih toVisit fun b hb => hassert b (List.mem_cons_of_mem _ hb)
      unfold pushChildren at ih ⊢
      by_cases hb : b = 0
      · have hpost := hassert b List.mem_cons_self hb
        simpa [List.foldlM_cons, hb, hpost] using ih toVisit
      · simpa [List.foldlM_cons, hb] using ih (⟨b, preNum, false⟩ :: toVisit)

end Edges

-- A frame of the abstract search as it lies on the stack.
def frameEntries (D : DFSTree) (f : ℕ × List ℕ) : List Visit :=
  f.2.map (⟨·, f.1, false⟩) ++ [⟨val D.fromPre f.1, val D.toParentPre f.1, true⟩]

-- The abstract search that the variables of `DFS!` stand for.
def Search.view (s : Search) (frames : List (ℕ × List ℕ)) : Flow.Search ℕ :=
  ⟨val s.tree.toPre, val s.tree.fromPre, val s.tree.toParentPre, val s.tree.toPost, s.preNum, s.postNum, frames⟩

structure DFSTree.Sized (D : DFSTree) (n : ℕ) : Prop where
  toPre : D.toPre.length = n
  fromPre : D.fromPre.length = n
  toPost : D.toPost.length = n
  fromPost : D.fromPost.length = n
  toParentPre : D.toParentPre.length = n

-- What holds between the passes of `DFS!`.
structure Searching (isPost : Bool) (blocks : List BasicBlock) (frames : List (ℕ × List ℕ)) (s : Search) : Prop where
  sized : s.tree.Sized blocks.length
  stack : s.toVisit = frames.flatMap (frameEntries s.tree)
  search : DepthFirst (Flows isPost blocks) (rootOf isPost) (rootOf isPost) (s.view frames)
  range : ∀ p, 0 < p → p < s.preNum → 0 < val s.tree.fromPre p ∧ val s.tree.fromPre p ≤ blocks.length
  count : s.postNum + frames.length + rootOf isPost = s.preNum + 1
  post_pos : 0 < s.postNum

-- The passes that are left: one for every entry of the stack, and for every block that
-- is not visited yet one to take it down and one for each of its edges.
def remaining (isPost : Bool) (blocks : List BasicBlock) (toPre : ℕ → ℕ) : ℕ :=
  ∑ b ∈ (Finset.Icc 1 blocks.length).filter (toPre · = 0), (((searchEdgeList isPost blocks b).filter (· ≠ 0)).length + 1)

theorem remaining_update (isPost : Bool) (blocks : List BasicBlock) {toPre : ℕ → ℕ} {b num : ℕ} (hb : 0 < b)
    (hle : b ≤ blocks.length) (hzero : toPre b = 0) (hnum : num ≠ 0) :
    remaining isPost blocks (Function.update toPre b num) + (((searchEdgeList isPost blocks b).filter (· ≠ 0)).length + 1) =
      remaining isPost blocks toPre := by
  have hset : (Finset.Icc 1 blocks.length).filter (Function.update toPre b num · = 0) =
      ((Finset.Icc 1 blocks.length).filter (toPre · = 0)).erase b := by
    ext c
    by_cases hc : c = b
    · subst hc
      simp [hnum]
    · simp [hc]
  have hmem : b ∈ (Finset.Icc 1 blocks.length).filter (toPre · = 0) := by
    simp [hzero, hle, Nat.succ_le_of_lt hb]
  rw [remaining, remaining, hset]
  exact Finset.sum_erase_add _ _ hmem

theorem le_of_numbers {f g : ℕ → ℕ} {m n : ℕ} (hrange : ∀ p, 0 < p → p < m → 0 < f p ∧ f p ≤ n)
    (hinv : ∀ p, 0 < p → p < m → g (f p) = p) : m ≤ n + 1 := by
  have hcard : (Finset.Ico 1 m).card ≤ (Finset.Icc 1 n).card := by
    refine Finset.card_le_card_of_injOn f (fun p hp => ?_) fun p hp q hq heq => ?_
    · obtain ⟨hp1, hpm⟩ := Finset.mem_Ico.1 hp
      exact Finset.mem_coe.2 (Finset.mem_Icc.2 (hrange p hp1 hpm))
    · obtain ⟨hp1, hpm⟩ := Finset.mem_Ico.1 hp
      obtain ⟨hq1, hqm⟩ := Finset.mem_Ico.1 hq
      rw [← hinv p hp1 hpm, heq, hinv q hq1 hqm]
  rw [Nat.card_Ico, Nat.card_Icc] at hcard
  omega

theorem rootOf_le (isPost : Bool) : rootOf isPost ≤ 1 := by
  cases isPost <;> simp [rootOf]

section Steps

variable {isPost : Bool} {blocks : List BasicBlock} {frames : List (ℕ × List ℕ)} {s : Search}

theorem Searching.preNum_le (h : Searching isPost blocks frames s) : s.preNum ≤ blocks.length + 1 :=
  le_of_numbers h.range fun p hp hlt => h.search.pre_vertex p (by have := rootOf_le isPost; omega) hlt

-- The block of a number on the current path is the virtual exit or a block.
theorem Searching.fromPre_zero (h : Searching isPost blocks frames s) {g : ℕ} (hg : g < s.preNum)
    (hzero : val s.tree.fromPre g = 0) : g = 0 := by
  by_contra hne
  have := h.range g (Nat.pos_of_ne_zero hne) hg
  omega

theorem Searching.postNum_le (h : Searching isPost blocks frames s) {g : ℕ} {rest : List (ℕ × List ℕ)}
    (hframes : frames = (g, []) :: rest) (hg : g ≠ 0) : s.postNum ≤ blocks.length := by
  have hle := h.preNum_le
  have hcount := h.count
  have hpath := h.search.path
  subst hframes
  simp only [List.length_cons] at hcount
  cases isPost with
  | false =>
      simp only [rootOf_false] at hcount
      omega
  | true =>
      cases rest with
      | nil =>
          simp only [Search.view, Flow.Search.gray, List.map_cons, List.map_nil] at hpath
          cases hpath
          exact (hg rfl).elim
      | cons f rest =>
          simp only [rootOf_true, List.length_cons] at hcount
          omega

theorem Searching.finish (h : Searching isPost blocks frames s) {g : ℕ} {rest : List (ℕ × List ℕ)}
    (hframes : frames = (g, []) :: rest) :
    ∃ s', searchStep blocks isPost s = some s' ∧ Searching isPost blocks rest s' ∧
      s'.tree.toPre = s.tree.toPre ∧ s'.toVisit.length < s.toVisit.length := by
  have hmem : g ∈ (s.view frames).gray := by simp [Search.view, Flow.Search.gray, hframes]
  have hg : g < s.preNum := (h.search.range g hmem).2
  have hstack : s.toVisit = ⟨val s.tree.fromPre g, val s.tree.toParentPre g, true⟩ :: rest.flatMap (frameEntries s.tree) := by
    simp [h.stack, hframes, frameEntries]
  have hcount := h.count
  simp only [hframes, List.length_cons] at hcount
  by_cases hbb : val s.tree.fromPre g = 0
  · obtain rfl := h.fromPre_zero hg hbb
    refine ⟨⟨s.tree, rest.flatMap (frameEntries s.tree), s.preNum, s.postNum + 1⟩, ?_, ?_, rfl, ?_⟩
    · simp [searchStep, hstack, recordPost]
    · refine ⟨h.sized, rfl, ?_, h.range, by simp only; omega, Nat.succ_pos _⟩
      exact h.search.finish (f := val s.tree.toPost) hframes (fun x _ => rfl)
        (by simp [Search.view]) (fun hlt => by omega)
    · simp [hstack]
  · have hg0 : g ≠ 0 := by
      rintro rfl
      exact hbb (val_zero _)
    obtain ⟨hpos, hle⟩ := h.range g (Nat.pos_of_ne_zero hg0) hg
    have hpost := h.postNum_le hframes hg0
    obtain ⟨toPost, htoPost, hlen, hval⟩ := write_spec (l := s.tree.toPost) hpos (by rw [h.sized.toPost]; exact hle) s.postNum
    obtain ⟨fromPost, hfromPost, hlen', -⟩ := write_spec (l := s.tree.fromPost) h.post_pos
      (by rw [h.sized.fromPost]; exact hpost) (val s.tree.fromPre g)
    refine ⟨⟨{ s.tree with toPost := toPost, fromPost := fromPost }, rest.flatMap (frameEntries s.tree), s.preNum,
      s.postNum + 1⟩, ?_, ?_, rfl, ?_⟩
    · simp [searchStep, hstack, recordPost, hbb, htoPost, hfromPost]
    · refine ⟨⟨h.sized.toPre, h.sized.fromPre, hlen.trans h.sized.toPost, hlen'.trans h.sized.fromPost,
        h.sized.toParentPre⟩, rfl, ?_, h.range, by simp only; omega, Nat.succ_pos _⟩
      have hself : val toPost (val s.tree.fromPre g) = s.postNum := by rw [hval, Function.update_self]
      refine h.search.finish (f := val toPost) hframes (fun x hx => ?_) (Nat.le_of_eq hself) fun _ => hself
      rw [hval]
      exact Function.update_of_ne hx _ _
    · simp [hstack]

theorem Searching.skip (h : Searching isPost blocks frames s) {g x : ℕ} {xs : List ℕ} {rest : List (ℕ × List ℕ)}
    (hframes : frames = (g, x :: xs) :: rest) (hx : 0 < x ∧ x ≤ blocks.length) (hvisited : val s.tree.toPre x ≠ 0) :
    ∃ s', searchStep blocks isPost s = some s' ∧ Searching isPost blocks ((g, xs) :: rest) s' ∧
      s'.tree.toPre = s.tree.toPre ∧ s'.toVisit.length < s.toVisit.length := by
  have hstack : s.toVisit = ⟨x, g, false⟩ :: ((g, xs) :: rest).flatMap (frameEntries s.tree) := by
    simp [h.stack, hframes, frameEntries]
  have hvis : (s.view frames).Visited (rootOf isPost) x := by
    by_contra hno
    exact hvisited (h.search.unvisited x hno)
  refine ⟨{ s with toVisit := ((g, xs) :: rest).flatMap (frameEntries s.tree) }, ?_, ?_, rfl, ?_⟩
  · have hx0 : x ≠ 0 := by omega
    simp [searchStep, hstack, alreadyVisited, hx0, hvisited, read_eq hx.1 (h.sized.toPre.symm ▸ hx.2)]
  · refine ⟨h.sized, rfl, h.search.skip hframes hvis, h.range, ?_, h.post_pos⟩
    have hcount := h.count
    simpa [hframes] using hcount
  · simp [hstack]

theorem Searching.visit (hcfg : Consistent blocks) (h : Searching isPost blocks frames s) {g x : ℕ} {xs : List ℕ}
    {rest : List (ℕ × List ℕ)} (hframes : frames = (g, x :: xs) :: rest) (hx : 0 < x ∧ x ≤ blocks.length)
    (hvisited : val s.tree.toPre x = 0) :
    ∃ frames' s', searchStep blocks isPost s = some s' ∧ Searching isPost blocks frames' s' ∧
      val s'.tree.toPre = Function.update (val s.tree.toPre) x s.preNum ∧
      s'.toVisit.length = s.toVisit.length + ((searchEdgeList isPost blocks x).filter (· ≠ 0)).length := by
  have hroot := rootOf_le isPost
  have hx0 : x ≠ 0 := by omega
  have hnum : 0 < s.preNum := Nat.lt_of_le_of_lt (Nat.zero_le _) h.search.root_lt
  have hnot : ¬(s.view frames).Visited (rootOf isPost) x := by
    intro hvis
    obtain ⟨-, -, heq⟩ := h.search.visited_pre hvis
    simp only [Search.view, hvisited, val_zero] at heq
    exact hx0 heq.symm
  have hys : ∀ y, y ∈ ((searchEdgeList isPost blocks x).filter (· ≠ 0)).reverse ↔ Flows isPost blocks x y := fun y => by
    rw [List.mem_reverse]
    exact hcfg.mem_searchEdgeList (by omega)
  have hsearch := h.search.visit hframes hnot hys
  have hrange : ∀ p, 0 < p → p < s.preNum + 1 → 0 < Function.update (val s.tree.fromPre) s.preNum x p ∧
      Function.update (val s.tree.fromPre) s.preNum x p ≤ blocks.length := by
    intro p hp hlt
    by_cases hpn : p = s.preNum
    · rwa [hpn, Function.update_self]
    · rw [Function.update_of_ne hpn]
      exact h.range p hp (by omega)
  -- The new number is a number of a block, so the writes are within the bounds.
  have hle : s.preNum + 1 ≤ blocks.length + 1 :=
    le_of_numbers hrange fun p hp hlt => hsearch.pre_vertex p (by omega) hlt
  obtain ⟨toPre, htoPre, hlenTo, hvalTo⟩ := write_spec (l := s.tree.toPre) hx.1 (by rw [h.sized.toPre]; exact hx.2) s.preNum
  obtain ⟨fromPre, hfromPre, hlenFrom, hvalFrom⟩ := write_spec (l := s.tree.fromPre) hnum
    (by rw [h.sized.fromPre]; omega) x
  obtain ⟨toParentPre, htoParentPre, hlenPar, hvalPar⟩ := write_spec (l := s.tree.toParentPre) hnum
    (by rw [h.sized.toParentPre]; omega) g
  have hstack : s.toVisit = ⟨x, g, false⟩ :: ((g, xs) :: rest).flatMap (frameEntries s.tree) := by
    simp [h.stack, hframes, frameEntries]
  let tree : DFSTree := { s.tree with toPre := toPre, fromPre := fromPre, toParentPre := toParentPre }
  have hsame : ((g, xs) :: rest).flatMap (frameEntries tree) = ((g, xs) :: rest).flatMap (frameEntries s.tree) := by
    refine List.flatMap_congr fun f hf => ?_
    have hf1 : f.1 < s.preNum := by
      refine (h.search.range f.1 ?_).2
      have : f.1 ∈ ((g, xs) :: rest).map Prod.fst := List.mem_map_of_mem hf
      simpa [Search.view, Flow.Search.gray, hframes] using this
    have hne : f.1 ≠ s.preNum := by omega
    simp [frameEntries, tree, hvalFrom, hvalPar, Function.update_of_ne hne]
  refine ⟨(s.preNum, ((searchEdgeList isPost blocks x).filter (· ≠ 0)).reverse) :: (g, xs) :: rest,
    ⟨tree, ((searchEdgeList isPost blocks x).filter (· ≠ 0)).reverse.map (⟨·, s.preNum, false⟩) ++
      ⟨x, g, true⟩ :: ((g, xs) :: rest).flatMap (frameEntries s.tree), s.preNum + 1, s.postNum⟩, ?_, ?_, hvalTo, ?_⟩
  · simp [searchStep, hstack, alreadyVisited, hx0, hvisited, read_eq hx.1 (h.sized.toPre.symm ▸ hx.2), recordPre,
      htoPre, hfromPre, htoParentPre, searchEdges_eq isPost hx.2 (show rootOf isPost ≤ x by omega),
      hcfg.pushChildren_eq s.preNum (show rootOf isPost ≤ x by omega), tree]
  · refine ⟨⟨hlenTo.trans h.sized.toPre, hlenFrom.trans h.sized.fromPre, h.sized.toPost, h.sized.fromPost,
      hlenPar.trans h.sized.toParentPre⟩, ?_, ?_, ?_, ?_, h.post_pos⟩
    · simp only [← hsame]
      simp [frameEntries, tree, hvalFrom, hvalPar]
    · simp only [Search.view, tree, hvalTo, hvalFrom, hvalPar]
      exact hsearch
    · simp only [tree, hvalFrom]
      exact hrange
    · have hcount := h.count
      simp only [hframes, List.length_cons] at hcount ⊢
      omega
  · simp [hstack]
    omega

-- One pass of the loop.
theorem Searching.step (hcfg : Consistent blocks) (h : Searching isPost blocks frames s) (hne : s.toVisit ≠ []) :
    ∃ frames' s', searchStep blocks isPost s = some s' ∧ Searching isPost blocks frames' s' ∧
      s'.toVisit.length + remaining isPost blocks (val s'.tree.toPre) <
        s.toVisit.length + remaining isPost blocks (val s.tree.toPre) := by
  rcases hframes : frames with _ | ⟨⟨g, _ | ⟨x, xs⟩⟩, rest⟩
  · exact (hne (by rw [h.stack, hframes, List.flatMap_nil])).elim
  · obtain ⟨s', hstep, hs', hpre, hlt⟩ := h.finish hframes
    exact ⟨rest, s', hstep, hs', by rw [hpre]; omega⟩
  · have hx := hcfg.flows_range (h.search.sound (g, x :: xs) (by simp [Search.view, hframes]) x List.mem_cons_self)
    by_cases hvisited : val s.tree.toPre x = 0
    · obtain ⟨frames', s', hstep, hs', hpre, hlen⟩ := h.visit hcfg hframes hx hvisited
      have hnum := h.search.root_lt
      have hcost := remaining_update isPost blocks hx.1 hx.2 hvisited (show s.preNum ≠ 0 from Nat.ne_of_gt (Nat.zero_lt_of_lt hnum))
      exact ⟨frames', s', hstep, hs', by rw [hpre, hlen]; omega⟩
    · obtain ⟨s', hstep, hs', hpre, hlt⟩ := h.skip hframes hx hvisited
      exact ⟨(g, xs) :: rest, s', hstep, hs', by rw [hpre]; omega⟩

end Steps

theorem sum_val_eq {α : Type} [Inhabited α] (f : α → ℕ) (xs : List α) : ∑ i ∈ Finset.Icc 1 xs.length, f (val xs i) = (xs.map f).sum := by
  induction xs using List.reverseRecOn with
  | nil => rfl
  | append_singleton xs x ih =>
      have hlast : val (xs ++ [x]) (xs.length + 1) = x := by
        rw [val_succ]
        simp
      have hsame : ∀ i ∈ Finset.Icc 1 xs.length, f (val (xs ++ [x]) i) = f (val xs i) := by
        intro i hi
        obtain ⟨hi1, hi2⟩ := Finset.mem_Icc.1 hi
        obtain ⟨k, rfl⟩ : ∃ k, i = k + 1 := ⟨i - 1, by omega⟩
        rw [val_succ, val_succ, List.getD_append _ _ _ _ (by omega)]
      rw [List.length_append, List.length_singleton, Finset.sum_Icc_succ_top (by omega), Finset.sum_congr rfl hsame, ih, hlast]
      simp

-- The whole search costs less than the fuel.
theorem remaining_le (isPost : Bool) (blocks : List BasicBlock) (toPre : ℕ → ℕ) :
    remaining isPost blocks toPre + blocks.length + 3 ≤ searchFuel blocks := by
  have hedges : ∀ b ∈ Finset.Icc 1 blocks.length, ((searchEdgeList isPost blocks b).filter (· ≠ 0)).length + 1 ≤
      ((val blocks b).preds.length + (val blocks b).succs.length) + 1 := by
    intro b hb
    have hb0 : b ≠ 0 := by
      have := (Finset.mem_Icc.1 hb).1
      omega
    have hle := List.length_filter_le (fun b => decide (b ≠ 0)) (searchEdgeList isPost blocks b)
    cases isPost <;> simp [searchEdgeList, hb0] at hle ⊢ <;> omega
  have hsum : remaining isPost blocks toPre ≤
      ∑ b ∈ Finset.Icc 1 blocks.length, (((val blocks b).preds.length + (val blocks b).succs.length) + 1) :=
    (Finset.sum_le_sum_of_subset (Finset.filter_subset _ _)).trans (Finset.sum_le_sum hedges)
  rw [Finset.sum_add_distrib, sum_val_eq (fun block : BasicBlock => block.preds.length + block.succs.length),
    ← Finset.card_eq_sum_ones, Nat.card_Icc] at hsum
  unfold searchFuel
  omega

-- The vectors that `DFS!` starts with.
def DFSTree.reset (D : DFSTree) (n : ℕ) : DFSTree :=
  ⟨List.replicate n 0, resize D.fromPre n, resize D.toPost n, resize D.fromPost n, resize D.toParentPre n⟩

theorem DFSTree.reset_sized (D : DFSTree) (n : ℕ) : (D.reset n).Sized n := by
  constructor <;> simp [DFSTree.reset]

theorem DFSTree.val_reset (D : DFSTree) (n b : ℕ) : val (D.reset n).toPre b = 0 := val_replicate n b

-- The first pass takes the root down.
theorem searching_root (isPost : Bool) {blocks : List BasicBlock} (hcfg : Consistent blocks) (D : DFSTree) :
    ∃ frames s, searchStep blocks isPost ⟨D.reset blocks.length, [⟨rootOf isPost, 0, false⟩], rootOf isPost, 1⟩ = some s ∧
      Searching isPost blocks frames s ∧
      s.toVisit.length + remaining isPost blocks (val s.tree.toPre) + 1 < searchFuel blocks := by
  have hsized := D.reset_sized blocks.length
  have hzero := D.val_reset blocks.length
  have hpos := hcfg.nonempty
  have hys : ∀ y, y ∈ ((searchEdgeList isPost blocks (rootOf isPost)).filter (· ≠ 0)).reverse ↔
      Flows isPost blocks (rootOf isPost) y := fun y => by
    rw [List.mem_reverse]
    exact hcfg.mem_searchEdgeList (Nat.le_refl _)
  have hle : rootOf isPost ≤ blocks.length := Nat.le_trans (rootOf_le isPost) hpos
  have hedges := searchEdges_eq isPost hle (Nat.le_refl _)
  have hpush := hcfg.pushChildren_eq (rootOf isPost) (Nat.le_refl (rootOf isPost)) [⟨rootOf isPost, 0, true⟩]
  cases isPost with
  | false =>
      obtain ⟨toPre, htoPre, hlenTo, hvalTo⟩ := write_spec (l := (D.reset blocks.length).toPre) Nat.one_pos
        (by rw [hsized.toPre]; exact hpos) 1
      obtain ⟨fromPre, hfromPre, hlenFrom, hvalFrom⟩ := write_spec (l := (D.reset blocks.length).fromPre) Nat.one_pos
        (by rw [hsized.fromPre]; exact hpos) 1
      obtain ⟨toParentPre, htoParentPre, hlenPar, hvalPar⟩ := write_spec (l := (D.reset blocks.length).toParentPre)
        Nat.one_pos (by rw [hsized.toParentPre]; exact hpos) 0
      simp only [rootOf_false] at hys hedges hpush ⊢
      generalize hstack : List.map _ _ ++ _ = stack at hpush
      refine ⟨[(1, ((searchEdgeList false blocks 1).filter (· ≠ 0)).reverse)],
        ⟨{ D.reset blocks.length with toPre := toPre, fromPre := fromPre, toParentPre := toParentPre },
          stack, 2, 1⟩, ?_, ?_, ?_⟩
      · have hread : read (D.reset blocks.length).toPre 1 = some 0 := by
          rw [read_eq Nat.one_pos (by rw [hsized.toPre]; exact hpos), hzero]
        simp [searchStep, alreadyVisited, hread, recordPre, htoPre, hfromPre, htoParentPre, hedges, hpush]
      · refine ⟨⟨hlenTo.trans hsized.toPre, hlenFrom.trans hsized.fromPre, hsized.toPost, hsized.fromPost,
          hlenPar.trans hsized.toParentPre⟩, ?_, ?_, fun p hp hlt => ?_, rfl, Nat.one_pos⟩
        · simp [← hstack, frameEntries, hvalFrom, hvalPar]
        · refine depthFirst_root rfl (by simp [Search.view, hvalFrom]) (by simp [Search.view, hvalTo]) (fun x (hx : x ≠ 1) => ?_) rfl hys
          simp only [Search.view, hvalTo]
          rw [Function.update_of_ne hx, hzero]
        · obtain rfl : p = 1 := by simp only at hlt; omega
          simpa [hvalFrom] using Nat.succ_le_of_lt hpos
      · have hcost := remaining_update false blocks Nat.one_pos hpos (hzero 1) Nat.one_ne_zero
        have hle := remaining_le false blocks (val (D.reset blocks.length).toPre)
        simp only [hvalTo, ← hstack, List.length_append, List.length_map, List.length_reverse, List.length_singleton]
        omega
  | true =>
      simp only [rootOf_true] at hys hedges hpush ⊢
      generalize hstack : List.map _ _ ++ _ = stack at hpush
      refine ⟨[(0, ((searchEdgeList true blocks 0).filter (· ≠ 0)).reverse)], ⟨D.reset blocks.length, stack, 1, 1⟩, ?_, ?_, ?_⟩
      · simp [searchStep, alreadyVisited, recordPre, hedges, hpush]
      · refine ⟨hsized, ?_, ?_, fun p hp hlt => ?_, rfl, Nat.one_pos⟩
        · simp [← hstack, frameEntries]
        · exact depthFirst_root rfl rfl rfl (fun x hx => hzero x) rfl hys
        · simp only at hlt
          omega
      · have hle := remaining_le true blocks (val (D.reset blocks.length).toPre)
        have hexits : ((searchEdgeList true blocks 0).filter (· ≠ 0)).length ≤ blocks.length := by
          refine (List.length_filter_le _ _).trans ((List.length_filter_le _ _).trans ?_)
          simp
        simp only [← hstack, List.length_append, List.length_map, List.length_reverse, List.length_singleton]
        omega

-- A search tree of the blocks.
structure IsDFSTree (isPost : Bool) (blocks : List BasicBlock) (D : DFSTree) : Prop where
  toPre_length : D.toPre.length = blocks.length
  toPost_length : D.toPost.length = blocks.length
  toParentPre_length : D.toParentPre.length = D.fromPre.length
  range : ∀ p, 0 < p → p ≤ D.fromPre.length → 0 < val D.fromPre p ∧ val D.fromPre p ≤ blocks.length
  numbering : Numbering (Flows isPost blocks) (rootOf isPost) D.fromPre.length (rootOf isPost) (val D.toPre)
    (val D.fromPre) (val D.toParentPre)
  post_order : ∀ p q, rootOf isPost ≤ p → p < q → q ≤ D.fromPre.length → ¬Anc (rootOf isPost) (val D.toParentPre) p q →
    val D.toPost (val D.fromPre p) < val D.toPost (val D.fromPre q)

-- Cutting the vectors to the number of visited blocks.
theorem Searching.isDFSTree {isPost : Bool} {blocks : List BasicBlock} {s : Search} (h : Searching isPost blocks [] s) :
    IsDFSTree isPost blocks { s.tree with
      fromPre := resize s.tree.fromPre (s.preNum - 1)
      fromPost := resize s.tree.fromPost (s.postNum - 1)
      toParentPre := resize s.tree.toParentPre (s.preNum - 1) } := by
  have hle := h.preNum_le
  have hroot := h.search.root_lt
  have hnum : s.preNum ≠ 0 := Nat.ne_of_gt (Nat.zero_lt_of_lt hroot)
  have hfrom : ∀ p, p ≤ s.preNum - 1 → val (resize s.tree.fromPre (s.preNum - 1)) p = val s.tree.fromPre p := fun p hp =>
    val_resize hp (by rw [h.sized.fromPre]; omega)
  have hpar : ∀ p, p ≤ s.preNum - 1 → val (resize s.tree.toParentPre (s.preNum - 1)) p = val s.tree.toParentPre p :=
    fun p hp => val_resize hp (by rw [h.sized.toParentPre]; omega)
  have hnumbering := (h.search.numbering rfl).congr hfrom hpar
  constructor
  case toPre_length => exact h.sized.toPre
  case toPost_length => exact h.sized.toPost
  case toParentPre_length => simp
  case range =>
      simp only [length_resize]
      intro p hp hlt
      rw [hfrom p hlt]
      exact h.range p hp (by omega)
  case numbering =>
      simp only [length_resize]
      exact hnumbering
  case post_order =>
      simp only [length_resize]
      intro p q hr hpq hq hanc
      rw [hfrom p (by omega), hfrom q hq]
      refine h.search.post_order p q hr hpq (show q < s.preNum by omega) (by simp [Search.view, Flow.Search.gray])
        (by simp [Search.view, Flow.Search.gray]) fun hpq' => hanc ?_
      exact h.search.order.anc_congr hpq' hq fun x _ hx => hpar x hx

theorem dfs_spec {isPost : Bool} {blocks : List BasicBlock} (hcfg : Consistent blocks) (D : DFSTree) :
    ∃ D', dfs D blocks isPost = some D' ∧ IsDFSTree isPost blocks D' := by
  obtain ⟨frames, s, hstep, hs, hfuel⟩ := searching_root isPost hcfg D
  obtain ⟨fuel, hfuel'⟩ : ∃ fuel, searchFuel blocks = fuel + 1 := ⟨searchFuel blocks - 1, by omega⟩
  obtain ⟨-, last, hloop, ⟨frames', hlast, -⟩, hdone⟩ := whileDo_spec (c := fun s => !s.toVisit.isEmpty)
    (b := searchStep blocks isPost)
    (fun k s => ∃ frames, Searching isPost blocks frames s ∧
      k = s.toVisit.length + remaining isPost blocks (val s.tree.toPre))
    (fun k s ⟨frames, hs, hk⟩ hcond => by
      obtain ⟨frames', s', hstep, hs', hlt⟩ := hs.step hcfg (by simpa using hcond)
      exact ⟨_, s', by omega, hstep, frames', hs', rfl⟩)
    (k := s.toVisit.length + remaining isPost blocks (val s.tree.toPre)) (n := fuel) ⟨frames, hs, rfl⟩ (by omega)
  have hempty : frames' = [] := by
    have hstack := hlast.stack
    rcases frames' with _ | ⟨f, frames'⟩
    · rfl
    · simp_all [frameEntries]
  subst hempty
  refine ⟨_, ?_, hlast.isDFSTree⟩
  have hrun : whileDo (fun s => !s.toVisit.isEmpty) (searchStep blocks isPost) (searchFuel blocks)
      ⟨D.reset blocks.length, [⟨rootOf isPost, 0, false⟩], rootOf isPost, 1⟩ = some last := by
    simp [hfuel', whileDo, hstep, hloop]
  have hdfs : dfs D blocks isPost = (whileDo (fun s => !s.toVisit.isEmpty) (searchStep blocks isPost) (searchFuel blocks)
      ⟨D.reset blocks.length, [⟨rootOf isPost, 0, false⟩], rootOf isPost, 1⟩).bind fun s => some { s.tree with
        fromPre := resize s.tree.fromPre (s.preNum - 1)
        fromPost := resize s.tree.fromPost (s.postNum - 1)
        toParentPre := resize s.tree.toParentPre (s.preNum - 1) } := rfl
  rw [hdfs, hrun, Option.bind_some]

end Joolia.Compiler
