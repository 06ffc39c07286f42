import Joolia.Library.Iteration
import Joolia.Library.Segment
import Mathlib.Algebra.Ring.Nat
import Mathlib.Algebra.Ring.Int.Defs

namespace Joolia.Compiler

open Loop OneBased

-- What the dominator trees use of a basic block. Blocks are numbered from 1; a `0` among
-- the predecessors is the virtual edge into a catch block.
structure BasicBlock where
  preds : List ℕ
  succs : List ℕ
deriving Inhabited, DecidableEq

structure DFSTree where
  toPre : List ℕ
  fromPre : List ℕ
  toPost : List ℕ
  fromPost : List ℕ
  toParentPre : List ℕ
deriving DecidableEq

-- `DFSTree(0)`
def DFSTree.empty : DFSTree := ⟨[], [], [], [], []⟩

-- An entry of `to_visit`. The virtual exit node, `-1` in the source, is the block `0`
-- here: the search never pushes a `0`.
structure Visit where
  currentNodeBB : ℕ
  parentPre : ℕ
  pushedChildren : Bool

-- The variables of the loop of `DFS!`; the end of `to_visit` is the head of the list.
structure Search where
  tree : DFSTree
  toVisit : List Visit
  preNum : ℕ
  postNum : ℕ

def searchEdges (blocks : List BasicBlock) (isPostDominator : Bool) (bb : ℕ) : Option (List ℕ) :=
  if isPostDominator && bb == 0 then
    some ((List.range' 1 blocks.length).filter fun bb => (val blocks bb).succs.isEmpty)
  else do
    let block ← read blocks bb
    some (if isPostDominator then block.preds else block.succs)

-- The loop that pushes the children, with its assertion.
def pushChildren (isPostDominator : Bool) (preNum : ℕ) (edges : List ℕ) (toVisit : List Visit) :
    Option (List Visit) :=
  edges.foldlM (fun stack succBB =>
    if succBB = 0 then if isPostDominator then some stack else none
    else some (⟨succBB, preNum, false⟩ :: stack)) toVisit

-- Going up: record the postorder number.
def recordPost (tree : DFSTree) (bb postNum : ℕ) : Option DFSTree :=
  if bb = 0 then some tree
  else do
    let toPost ← write tree.toPost bb postNum
    let fromPost ← write tree.fromPost postNum bb
    some { tree with toPost := toPost, fromPost := fromPost }

-- Going down: record the preorder number and the parent.
def recordPre (tree : DFSTree) (bb parentPre preNum : ℕ) : Option DFSTree :=
  if bb = 0 then some tree
  else do
    let toPre ← write tree.toPre bb preNum
    let fromPre ← write tree.fromPre preNum bb
    let toParentPre ← write tree.toParentPre preNum parentPre
    some { tree with toPre := toPre, fromPre := fromPre, toParentPre := toParentPre }

def alreadyVisited (tree : DFSTree) (bb : ℕ) : Option Bool :=
  if bb = 0 then some false else (read tree.toPre bb).map (· != 0)

-- One pass of the loop of `DFS!`.
def searchStep (blocks : List BasicBlock) (isPostDominator : Bool) (s : Search) : Option Search :=
  match s.toVisit with
  | [] => none
  | ⟨bb, parentPre, pushedChildren⟩ :: rest =>
      if pushedChildren then do
        let tree ← recordPost s.tree bb s.postNum
        some ⟨tree, rest, s.preNum, s.postNum + 1⟩
      else do
        if ← alreadyVisited s.tree bb then
          some { s with toVisit := rest }
        else
          let tree ← recordPre s.tree bb parentPre s.preNum
          let edges ← searchEdges blocks isPostDominator bb
          let toVisit ← pushChildren isPostDominator s.preNum edges (⟨bb, parentPre, true⟩ :: rest)
          some ⟨tree, toVisit, s.preNum + 1, s.postNum⟩

-- Every block is pushed once for every edge and taken down at most twice.
def searchFuel (blocks : List BasicBlock) : ℕ :=
  2 * blocks.length + (blocks.map fun block => block.preds.length + block.succs.length).sum + 3

-- `DFS!`
def dfs (D : DFSTree) (blocks : List BasicBlock) (isPostDominator : Bool) : Option DFSTree := do
  let n := blocks.length
  let D : DFSTree := ⟨List.replicate n 0, resize D.fromPre n, resize D.toPost n, resize D.fromPost n,
    resize D.toParentPre n⟩
  let root := if isPostDominator then 0 else 1
  let s ← whileDo (fun s => !s.toVisit.isEmpty) (searchStep blocks isPostDominator) (searchFuel blocks)
    ⟨D, [⟨root, 0, false⟩], root, 1⟩
  some { s.tree with
    fromPre := resize s.tree.fromPre (s.preNum - 1)
    fromPost := resize s.tree.fromPost (s.postNum - 1)
    toParentPre := resize s.tree.toParentPre (s.preNum - 1) }

structure SNCAData where
  semi : ℕ
  label : ℕ
deriving Inhabited, DecidableEq

structure DomTreeNode where
  level : ℕ
  children : List ℕ
deriving DecidableEq

-- `DomTreeNode()`
instance : Inhabited DomTreeNode := ⟨⟨1, []⟩⟩

structure GenericDomTree (isPostDom : Bool) where
  dfsTree : DFSTree
  sncaState : List SNCAData
  idomsBB : List ℕ
  nodes : List DomTreeNode
deriving DecidableEq

abbrev DomTree := GenericDomTree false

abbrev PostDomTree := GenericDomTree true

def GenericDomTree.empty (isPostDom : Bool) : GenericDomTree isPostDom := ⟨.empty, [], [], []⟩

-- The vectors that path compression changes.
structure Forest where
  state : List SNCAData
  ancestors : List ℕ

-- What both variants of path compression do for `v` once its ancestor `u` is compressed.
def Forest.shortcut (F : Forest) (u v : ℕ) : Option Forest := do
  let su ← read F.state u
  let sv ← read F.state v
  let state ← if su.label < sv.label then write F.state v ⟨sv.semi, su.label⟩ else some F.state
  let ancestors ← write F.ancestors v (← read F.ancestors u)
  some ⟨state, ancestors⟩

-- `snca_compress!`; the calls have ever smaller `v`, so `v` bounds their depth.
def sncaCompress (lastLinked : ℕ) : ℕ → ℕ → Forest → Option Forest
  | 0, _, _ => none
  | fuel + 1, v, F => do
    let u ← read F.ancestors v
    if v ≤ u then none
    else if lastLinked ≤ u then
      let F ← sncaCompress lastLinked fuel u F
      F.shortcut u v
    else some F

-- One pass of the loop of `snca_compress_worklist!`.
def compressStep (lastLinked : ℕ) (s : List (ℕ × ℕ) × Forest) : Option (List (ℕ × ℕ) × Forest) :=
  match s with
  | ([], _) => none
  | ((u, v) :: worklist, F) =>
      if lastLinked ≤ u then do
        let next ← read F.ancestors u
        if lastLinked ≤ next then some ((next, u) :: (u, v) :: worklist, F)
        else
          let F ← F.shortcut u v
          some (worklist, F)
      else some (worklist, F)

-- `snca_compress_worklist!`
def sncaCompressWorklist (lastLinked v : ℕ) (F : Forest) : Option Forest := do
  let u ← read F.ancestors v
  if v ≤ u then none
  else
    let s ← whileDo (fun s => !s.1.isEmpty) (compressStep lastLinked) (2 * v + 1) ([(u, v)], F)
    some s.2

-- The source compresses by recursion while there are at most 32 ancestors.
def compressLimit : ℕ := 32

def compress (limit lastLinked v : ℕ) (F : Forest) : Option Forest :=
  if F.ancestors.length ≤ limit then sncaCompress lastLinked v v F
  else sncaCompressWorklist lastLinked v F

def domEdges (isPostDom : Bool) (blocks : List BasicBlock) (idx : ℕ) : Option (List ℕ) := do
  let block ← read blocks idx
  some (if isPostDom then block.succs else block.preds)

-- One predecessor `v` in the computation of the semidominator of `w`.
def semiStep (limit : ℕ) (D : DFSTree) (w : ℕ) (s : ℕ × Forest) (v : ℕ) : Option (ℕ × Forest) :=
  if v = 0 then some s
  else do
    let vPre ← read D.toPre v
    if vPre = 0 then some s
    else
      let lastLinked := w + 1
      let F ← if lastLinked ≤ vPre then compress limit lastLinked vPre s.2 else some s.2
      let sv ← read F.state vPre
      some (min s.1 sv.label, F)

-- The semidominator of `w`.
def computeSemi (limit : ℕ) (isPostDom : Bool) (D : DFSTree) (blocks : List BasicBlock) (F : Forest) (w : ℕ) :
    Option Forest := do
  let semiW ← read F.ancestors w
  let edges ← domEdges isPostDom blocks (← read D.fromPre w)
  let (semiW, F) ← edges.foldlM (semiStep limit D w) (semiW, F)
  let state ← write F.state w ⟨semiW, semiW⟩
  some { F with state := state }

-- `typemax(PreNumber)`
def typemaxPreNumber : ℕ := 2 ^ 63 - 1

-- The labels and semidominators that `SNCA!` starts with.
def resetState (state : List SNCAData) (nNodes maxPre : ℕ) : Option (List SNCAData) := do
  let state := resize state nNodes
  let state ← (List.range' 1 maxPre).foldlM (fun state w => write state w ⟨typemaxPreNumber, w⟩) state
  (List.range' (maxPre + 1) (nNodes - maxPre)).foldlM (fun state w => do
    let semi := (← read state w).semi
    write state w ⟨semi, semi⟩) state

-- The immediate dominator of `v` from those of the smaller numbers.
def computeIdom (state : List SNCAData) (idomsPre : List ℕ) (v : ℕ) : Option (List ℕ) := do
  let idom ← read idomsPre v
  let vsemi := (← read state v).semi
  let idom ← whileDo (fun idom => decide (vsemi < idom)) (read idomsPre) (idom + 1) idom
  write idomsPre v idom

-- The immediate dominator of block `i` as a block.
def idomBB (isPostDom : Bool) (D : DFSTree) (idomsPre : List ℕ) (i : ℕ) : Option ℕ := do
  let iPre ← read D.toPre i
  if (!isPostDom && i == 1) || iPre == 0 then some 0
  else
    let ip ← read idomsPre iPre
    if ip = 0 then some 0 else read D.fromPre ip

-- `SNCA!`
def snca (limit : ℕ) {isPostDom : Bool} (domtree : GenericDomTree isPostDom) (blocks : List BasicBlock)
    (maxPre : ℕ) : Option (GenericDomTree isPostDom) := do
  let D := domtree.dfsTree
  let nNodes := D.fromPre.length
  let state ← resetState domtree.sncaState nNodes maxPre
  let first := if isPostDom then 1 else 2
  let F ← (List.range' first (maxPre + 1 - first)).reverse.foldlM (computeSemi limit isPostDom D blocks)
    ⟨state, D.toParentPre⟩
  let idomsPre ← (List.range' first (nNodes + 1 - first)).foldlM (computeIdom F.state) D.toParentPre
  let idomsBB ← (List.range' 1 blocks.length).mapM (idomBB isPostDom D idomsPre)
  some { domtree with sncaState := F.state, idomsBB := idomsBB }

-- One pass of the loop of `update_level!`.
def levelStep (s : List (ℕ × ℕ) × List DomTreeNode) : Option (List (ℕ × ℕ) × List DomTreeNode) :=
  match s with
  | ([], _) => none
  | ((node, level) :: worklist, nodes) => do
      let children := (← read nodes node).children
      let nodes ← write nodes node ⟨level, children⟩
      some (children.foldl (fun worklist child => (child, level + 1) :: worklist) worklist, nodes)

-- `update_level!`
def updateLevel (nodes : List DomTreeNode) (node level : ℕ) : Option (List DomTreeNode) := do
  let s ← whileDo (fun s => !s.1.isEmpty) levelStep (nodes.length + 2) ([(node, level)], nodes)
  some s.2

def pushChild (isPostDom : Bool) (idomsBB : List ℕ) (nodes : List DomTreeNode) (idx : ℕ) :
    Option (List DomTreeNode) := do
  let idom ← read idomsBB idx
  if (!isPostDom && idx == 1) || idom == 0 then some nodes
  else
    let node ← read nodes idom
    write nodes idom { node with children := node.children ++ [idx] }

-- `compute_domtree_nodes!`; the old `children` vectors are emptied and reused.
def computeDomtreeNodes {isPostDom : Bool} (domtree : GenericDomTree isPostDom) :
    Option (GenericDomTree isPostDom) := do
  let newLen := domtree.idomsBB.length
  let nodes := resize ((domtree.nodes.take newLen).map fun _ => (⟨1, []⟩ : DomTreeNode)) newLen
  let nodes ← (List.range' 1 newLen).foldlM (pushChild isPostDom domtree.idomsBB) nodes
  let nodes ←
    if isPostDom then
      (List.range' 1 newLen).foldlM (fun nodes node => do
        let idom ← read domtree.idomsBB node
        if idom = 0 then updateLevel nodes node 1 else some nodes) nodes
    else updateLevel nodes 1 1
  some { domtree with nodes := nodes }

-- `update_domtree!`
def updateDomtree (limit : ℕ) {isPostDom : Bool} (blocks : List BasicBlock) (domtree : GenericDomTree isPostDom)
    (recomputeDfs : Bool) (maxPre : ℕ) : Option (GenericDomTree isPostDom) := do
  let dfsTree ← if recomputeDfs then dfs domtree.dfsTree blocks isPostDom else some domtree.dfsTree
  let domtree := { domtree with dfsTree := dfsTree }
  let maxPre := if maxPre = 0 then dfsTree.fromPre.length else maxPre
  let domtree ← snca limit domtree blocks maxPre
  computeDomtreeNodes domtree

def constructDomtree (limit : ℕ) (blocks : List BasicBlock) : Option DomTree :=
  updateDomtree limit blocks (.empty false) true 0

def constructPostdomtree (limit : ℕ) (blocks : List BasicBlock) : Option PostDomTree :=
  updateDomtree limit blocks (.empty true) true 0

-- `_dominates`
def dominates {isPostDom : Bool} (domtree : GenericDomTree isPostDom) (bb1 bb2 : ℕ) : Option Bool :=
  if bb1 = bb2 then some true
  else do
    let targetLevel := (← read domtree.nodes bb1).level
    let sourceLevel := (← read domtree.nodes bb2).level
    if sourceLevel < targetLevel then some false
    else
      let bb2 ← (List.range' targetLevel (sourceLevel - targetLevel)).reverse.foldlM
        (fun bb2 _ => read domtree.idomsBB bb2) bb2
      some (bb1 == bb2)

-- `nearest_common_dominator`, with its final assertion.
def nearestCommonDominator {isPostDom : Bool} (domtree : GenericDomTree isPostDom) (a b : ℕ) : Option ℕ :=
  if a = 0 then some a
  else if b = 0 then some b
  else do
    let alevel := (← read domtree.nodes a).level
    let blevel := (← read domtree.nodes b).level
    let (a, b, alevel, blevel) := if alevel < blevel then (b, a, blevel, alevel) else (a, b, alevel, blevel)
    let (a, _) ← whileDo (fun (_, alevel) => decide (blevel < alevel))
      (fun (a, alevel) => do some (← read domtree.idomsBB a, alevel - 1)) (alevel + 1) (a, alevel)
    let (a, b) ← whileDo (fun (a, b) => a != b && a != 0)
      (fun (a, b) => do some (← read domtree.idomsBB a, ← read domtree.idomsBB b)) (blevel + 1) (a, b)
    if a = b then some a else none

-- `cfg_insert_edge!`
def cfgInsertEdge (blocks : List BasicBlock) (from_ to_ : ℕ) : Option (List BasicBlock) := do
  let target ← read blocks to_
  let blocks ← write blocks to_ { target with preds := target.preds ++ [from_] }
  let source ← read blocks from_
  write blocks from_ { source with succs := source.succs ++ [to_] }

-- `deleteat!(xs, findfirst(x -> x == a, xs)::Int)`; the type assertion fails when `a` is missing.
def deleteFirst (xs : List ℕ) (a : ℕ) : Option (List ℕ) := if a ∈ xs then some (xs.erase a) else none

-- `cfg_delete_edge!`
def cfgDeleteEdge (blocks : List BasicBlock) (from_ to_ : ℕ) : Option (List BasicBlock) := do
  let target ← read blocks to_
  let preds ← deleteFirst target.preds from_
  let blocks ← write blocks to_ { target with preds := preds }
  let source ← read blocks from_
  let succs ← deleteFirst source.succs to_
  write blocks from_ { source with succs := succs }

def bbUnreachable (domtree : DomTree) (bb : ℕ) : Option Bool :=
  if bb = 1 then some false else (read domtree.dfsTree.toPre bb).map (· == 0)

-- `domtree_insert_edge!`
def domtreeInsertEdge (limit : ℕ) (domtree : DomTree) (blocks : List BasicBlock) (from_ to_ : ℕ) : Option DomTree := do
  if ← bbUnreachable domtree from_ then some domtree
  else
    let dt := domtree.dfsTree
    let fromPre ← read dt.toPre from_
    let toPre ← read dt.toPre to_
    let fromPost ← read dt.toPost from_
    let toPost ← read dt.toPost to_
    if toPre = 0 ∨ (fromPre < toPre ∧ fromPost < toPost) then updateDomtree limit blocks domtree true 0
    else updateDomtree limit blocks domtree false toPre

def isParent (dfsTree : DFSTree) (x y : ℕ) : Option Bool := do
  let xPre ← read dfsTree.toPre x
  let yPre ← read dfsTree.toPre y
  some (xPre == (← read dfsTree.toParentPre yPre))

-- The loop of `on_semidominator_path`.
def followSemis (state : List SNCAData) (semiY : ℕ) : ℕ → ℕ → Option Bool
  | 0, _ => none
  | fuel + 1, currentBlock =>
      if currentBlock < semiY then some false
      else if semiY = currentBlock then some true
      else do followSemis state semiY fuel (← read state currentBlock).semi

-- `on_semidominator_path`
def onSemidominatorPath (domtree : DomTree) (x y : ℕ) : Option Bool := do
  let xPre ← read domtree.dfsTree.toPre x
  let yPre ← read domtree.dfsTree.toPre y
  let semiY := (← read domtree.sncaState yPre).semi
  followSemis domtree.sncaState semiY (xPre + 1) xPre

-- `domtree_delete_edge!`
def domtreeDeleteEdge (limit : ℕ) (domtree : DomTree) (blocks : List BasicBlock) (from_ to_ : ℕ) : Option DomTree := do
  if ← bbUnreachable domtree from_ then some domtree
  else if ← isParent domtree.dfsTree from_ to_ then updateDomtree limit blocks domtree true 0
  else if ← onSemidominatorPath domtree from_ to_ then
    let toPre ← read domtree.dfsTree.toPre to_
    updateDomtree limit blocks domtree false toPre
  else some domtree

end Joolia.Compiler
