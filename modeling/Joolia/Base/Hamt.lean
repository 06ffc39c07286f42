import Joolia.Library.LeastFixpoint

namespace Joolia.HashArrayMappedTries

open LeastFixpoint

-- What the tries use of a key type: `objectid`, and `hash` of an id with a seed. Keys
-- are compared by `===`, which is equality of the model's keys.
class Identity (K : Type) where
  objectid : K → UInt64
  hash : UInt64 → UInt64 → UInt64

def BITS_PER_LEVEL : ℕ := 5

def LEVEL_MASK : UInt64 := 2 ^ BITS_PER_LEVEL - 1

def MAX_SHIFT : ℕ := (64 / BITS_PER_LEVEL - 1) * BITS_PER_LEVEL

-- A trie node is a mutable object, so an entry refers to it by its place in the heap.
inductive Entry (K V : Type)
  | leaf (key : K) (val : V)
  | trie (ref : ℕ)

structure HAMT (K V : Type) where
  data : List (Entry K V)
  bitmap : BitVec 32

abbrev Heap (K V : Type) := List (HAMT K V)

structure HashState (K : Type) where
  key : K
  hash : UInt64
  depth : ℕ
  shift : ℕ

variable {K V : Type}

section Hash

variable [Identity K]

-- `HashState(key)`
def HashState.ofKey (key : K) : HashState K := ⟨key, Identity.objectid key, 0, 0⟩

def next (h : HashState K) : HashState K :=
  let depth := h.depth + 1
  let shift := h.shift + BITS_PER_LEVEL
  if shift > MAX_SHIFT then
    ⟨h.key, Identity.hash K (Identity.objectid h.key) (UInt64.ofNat (depth / BITS_PER_LEVEL)), depth, 0⟩
  else ⟨h.key, h.hash, depth, shift⟩

-- `HashState{K}(other, key)`: `next` until the depth of `other` is reached
def HashState.atDepth (depth : ℕ) (key : K) : HashState K :=
  match depth with
  | 0 => .ofKey key
  | depth + 1 => next (atDepth depth key)

-- `BitmapIndex(h)`
def bitmapIndex (h : HashState K) : ℕ := ((h.hash >>> UInt64.ofNat h.shift) &&& LEVEL_MASK).toNat

end Hash

def HAMT.empty : HAMT K V := ⟨[], 0⟩

def isset (trie : HAMT K V) (bi : ℕ) : Bool := (trie.bitmap >>> bi).getLsbD 0

def set (trie : HAMT K V) (bi : ℕ) : HAMT K V := { trie with bitmap := trie.bitmap ||| (1#32 <<< bi) }

def unset (trie : HAMT K V) (bi : ℕ) : HAMT K V := { trie with bitmap := trie.bitmap &&& ~~~(1#32 <<< bi) }

def entryIndex (trie : HAMT K V) (bi : ℕ) : ℕ :=
  let mask := (1#32 <<< bi) - 1#32
  (trie.bitmap &&& mask).cpop.toNat

def islevelEmpty (trie : HAMT K V) : Bool := trie.bitmap == 0

-- What `path` returns besides `top`.
structure Path (K : Type) where
  found : Bool
  present : Bool
  trie : ℕ
  i : ℕ
  bi : ℕ
  h : HashState K

section Path

variable [Identity K] [DecidableEq K]

-- The loop of `path(trie, h, copy)`. Here and below `none` is an endless loop or a
-- reference that does not exist.
def pathStep (copy : Bool) (self : Heap K V × ℕ × HashState K → Option (Heap K V × Path K)) (heap : Heap K V) (trie : ℕ)
    (h : HashState K) : Option (Heap K V × Path K) := do
  let node ← heap[trie]?
  let bi := bitmapIndex h
  let i := entryIndex node bi
  if isset node bi then
    let entry ← node.data[i]?
    match entry with
    | .leaf key _ => some (heap, ⟨decide (key = h.key), true, trie, i, bi, h⟩)
    | .trie sub =>
        if copy then
          let subnode ← heap[sub]?
          let fresh := heap.length
          let heap := heap ++ [⟨subnode.data, subnode.bitmap⟩]
          let heap := heap.set trie { node with data := node.data.set i (.trie fresh) }
          self (heap, fresh, next h)
        else self (heap, sub, next h)
  else some (heap, ⟨true, false, trie, i, bi, h⟩)

noncomputable def pathLoop (copy : Bool) (heap : Heap K V) (trie : ℕ) (h : HashState K) : Option (Heap K V × Path K) :=
  least (fun self a => pathStep copy self a.1 a.2.1 a.2.2) (heap, trie, h)

theorem pathLoop_eq (copy : Bool) (heap : Heap K V) (trie : ℕ) (h : HashState K) :
    pathLoop copy heap trie h = pathStep copy (fun a => pathLoop copy a.1 a.2.1 a.2.2) heap trie h := by
  refine least_eq (fun a => .bind (.const _) fun node => ?_) (heap, trie, h)
  by_cases hset : isset node (bitmapIndex a.2.2) = true
  · simp only [if_pos hset]
    refine .bind (.const _) fun entry => ?_
    cases entry with
    | leaf key val => exact .const _
    | trie sub =>
        cases copy with
        | true => exact .bind (.const _) fun subnode => .call _
        | false => exact .call _
  · simp only [if_neg hset]
    exact .const _

-- `path(trie, h, true)`, with `top`
noncomputable def pathCopy (heap : Heap K V) (trie : ℕ) (h : HashState K) : Option (Heap K V × Path K × ℕ) := do
  let node ← heap[trie]?
  let top := heap.length
  let (heap, p) ← pathLoop true (heap ++ [⟨node.data, node.bitmap⟩]) top h
  some (heap, p, top)

-- The last pass of the loop below: both leaves go into the new trie.
def fork (biNew biOld : ℕ) (new old : Entry K V) : HAMT K V :=
  let trie : HAMT K V := HAMT.empty
  let trie := set { trie with data := trie.data.insertIdx (entryIndex trie biNew) new } biNew
  set { trie with data := trie.data.insertIdx (entryIndex trie biOld) old } biOld

-- The loop of `insert!` that grows the trie until the two keys differ.
def growStep (leaf : Entry K V) (val : V)
    (self : Heap K V × Bool × ℕ × ℕ × ℕ × HashState K × HashState K → Option (Heap K V)) (heap : Heap K V) (present : Bool)
    (trie i bi : ℕ) (h leafH : HashState K) : Option (Heap K V) := do
  let node ← heap[trie]?
  let newTrie := heap.length
  let heap := heap ++ [HAMT.empty]
  let node := if present then { node with data := node.data.set i (.trie newTrie) }
    else { node with data := node.data.insertIdx (entryIndex node bi) (.trie newTrie) }
  let heap := heap.set trie (set node bi)
  let h := next h
  let leafH := next leafH
  let biNew := bitmapIndex h
  let biOld := bitmapIndex leafH
  if biNew = biOld then self (heap, false, newTrie, i, biNew, h, leafH)
  else some (heap.set newTrie (fork biNew biOld (.leaf h.key val) leaf))

noncomputable def growLoop (heap : Heap K V) (present : Bool) (trie i bi : ℕ) (h leafH : HashState K) (leaf : Entry K V)
    (val : V) : Option (Heap K V) :=
  least (fun self a => growStep leaf val self a.1 a.2.1 a.2.2.1 a.2.2.2.1 a.2.2.2.2.1 a.2.2.2.2.2.1 a.2.2.2.2.2.2)
    (heap, present, trie, i, bi, h, leafH)

omit [DecidableEq K] in
theorem growLoop_eq (heap : Heap K V) (present : Bool) (trie i bi : ℕ) (h leafH : HashState K) (leaf : Entry K V) (val : V) :
    growLoop heap present trie i bi h leafH leaf val =
      growStep leaf val (fun a => growLoop a.1 a.2.1 a.2.2.1 a.2.2.2.1 a.2.2.2.2.1 a.2.2.2.2.2.1 a.2.2.2.2.2.2 leaf val)
        heap present trie i bi h leafH := by
  refine least_eq (fun a => .bind (.const _) fun node => ?_) (heap, present, trie, i, bi, h, leafH)
  by_cases heq : bitmapIndex (next a.2.2.2.2.2.1) = bitmapIndex (next a.2.2.2.2.2.2)
  · simp only [if_pos heq]
    exact .call _
  · simp only [if_neg heq]
    exact .const _

-- `insert!(found, present, trie, i, bi, h, val)`; the heap, or the error it throws.
noncomputable def insert (heap : Heap K V) (p : Path K) (val : V) : Option (Except String (Heap K V)) := do
  let node ← heap[p.trie]?
  if p.found then
    let node := if p.present then { node with data := node.data.set p.i (.leaf p.h.key val) }
      else { node with data := node.data.insertIdx p.i (.leaf p.h.key val) }
    some (.ok (heap.set p.trie (set node p.bi)))
  else if ¬p.present then some (.error "!found && !present")
  else
    let entry ← node.data[p.i]?
    match entry with
    | .trie _ => none
    | .leaf key old =>
        let leafH := HashState.atDepth p.h.depth key
        if leafH.hash = p.h.hash then some (.error "Perfect hash collision")
        else (growLoop heap p.present p.trie p.i p.bi p.h leafH (.leaf key old) val).map .ok

end Path

section Dict

variable [Identity K] [DecidableEq K]

-- A `PersistentDict` is the reference of its trie. `KeyValue.set(PersistentDict{K, V})`
def keyvalueNew (heap : Heap K V) : Heap K V × ℕ := (heap ++ [HAMT.empty], heap.length)

-- `KeyValue.set(PersistentDict{K, V}, nothing, key, val)`
def keyvalueInit (heap : Heap K V) (key : K) (val : V) : Heap K V × ℕ :=
  (heap ++ [set ⟨[.leaf key val], 0⟩ (bitmapIndex (.ofKey key))], heap.length)

-- `KeyValue.set(dict, key, val)`. A throw leaves the copies made so far in the heap.
noncomputable def keyvalueset (heap : Heap K V) (dict : ℕ) (key : K) (val : V) : Option (Heap K V × Except String ℕ) := do
  let (heap, p, top) ← pathCopy heap dict (.ofKey key)
  match ← insert heap p val with
  | .ok heap => some (heap, .ok top)
  | .error err => some (heap, .error err)

-- `KeyValue.set(dict, key)`, which deletes
noncomputable def keyvaluedelete (heap : Heap K V) (dict : ℕ) (key : K) : Option (Heap K V × ℕ) := do
  let (heap, p, top) ← pathCopy heap dict (.ofKey key)
  let node ← heap[p.trie]?
  if p.found && p.present then
    some (heap.set p.trie (unset { node with data := node.data.eraseIdx p.i } p.bi), top)
  else some (heap, top)

-- `KeyValue.get(dict, key)`
noncomputable def keyvalueget (heap : Heap K V) (dict : ℕ) (key : K) : Option (Option V) := do
  let trie ← heap[dict]?
  if islevelEmpty trie then some none
  else
    let (_, p) ← pathLoop false heap dict (.ofKey key)
    if p.found && p.present then
      let node ← heap[p.trie]?
      match ← node.data[p.i]? with
      | .leaf _ val => some (some val)
      | .trie _ => none
    else some none

end Dict

-- `length(trie)`
def lengthEntry (self : ℕ → Option ℕ) (sum : ℕ) (entry : Entry K V) : Option ℕ :=
  match entry with
  | .leaf _ _ => some (sum + 1)
  | .trie sub => do
      let n ← self sub
      some (sum + n)

def lengthStep (heap : Heap K V) (self : ℕ → Option ℕ) (trie : ℕ) : Option ℕ := do
  let node ← heap[trie]?
  node.data.foldlM (lengthEntry self) 0

noncomputable def length (heap : Heap K V) : ℕ → Option ℕ := least (lengthStep heap)

theorem length_eq (heap : Heap K V) (trie : ℕ) : length heap trie = lengthStep heap (length heap) trie := by
  refine least_eq (fun a => .bind (.const _) fun node => .foldlM (fun sum entry => ?_) (HAMT.data node) 0) trie
  cases entry with
  | leaf key val => exact .const _
  | trie sub => exact .bind (.call sub) fun n => .const _

-- `iterate(trie, state)`; a state is the chain of tries entered, innermost first, each
-- with the index to go on from. The first call has the state `[(trie, 0)]`.
def iterateStep (heap : Heap K V) (self : List (ℕ × ℕ) → Option (Option ((K × V) × List (ℕ × ℕ)))) (state : List (ℕ × ℕ)) :
    Option (Option ((K × V) × List (ℕ × ℕ))) :=
  match state with
  | [] => some none
  | (trie, i) :: parent => do
      let node ← heap[trie]?
      match node.data[i]? with
      | none => self parent
      | some (.leaf key val) => some (some ((key, val), (trie, i + 1) :: parent))
      | some (.trie sub) => self ((sub, 0) :: (trie, i + 1) :: parent)

noncomputable def iterate (heap : Heap K V) : List (ℕ × ℕ) → Option (Option ((K × V) × List (ℕ × ℕ))) := least (iterateStep heap)

theorem iterate_eq (heap : Heap K V) (state : List (ℕ × ℕ)) : iterate heap state = iterateStep heap (iterate heap) state := by
  refine least_eq (fun a => ?_) state
  cases a with
  | nil => exact .const _
  | cons top parent =>
      refine .bind (.const _) fun node => ?_
      cases node.data[top.2]? with
      | none => exact .call parent
      | some entry =>
          cases entry with
          | leaf key val => exact .const _
          | trie sub => exact .call _

end Joolia.HashArrayMappedTries
