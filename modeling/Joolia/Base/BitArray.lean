import Joolia.Base.BitArray.Chunks
import Mathlib.Algebra.Ring.Nat
import Mathlib.Algebra.Ring.Int.Defs

namespace Joolia.BitArray

open Words

inductive BitError
  | ArgumentError (msg : String)
  | BoundsError (i : ℤ)
  | OverflowError
  | DivideError
  | Outside
  deriving DecidableEq, Repr

structure BitVector where
  chunks : List Word
  len : ℕ
  deriving DecidableEq, Repr

-- `BitVector()`
def BitVector.new : BitVector := ⟨[], 0⟩

-- A unit range of indices; the constructor normalises an empty range to
-- `start:start-1`.
structure UnitRange where
  start : ℤ
  stop : ℤ
  valid : start - 1 ≤ stop

def UnitRange.length (r : UnitRange) : ℕ := (r.stop - r.start + 1).toNat

-- An argument that may be the mutated vector itself (`append!(B, B)`).
inductive Operand (β : Type)
  | self
  | other (x : β)

def Operand.get {β : Type} (x : Operand β) (self : β) : β :=
  match x with
  | .self => self
  | .other b => b

def Operand.source (x : Operand BitVector) : Source :=
  match x with
  | .self => .self
  | .other b => .other b.chunks

def setindex (bc : List Word) (x : Bool) (i : ℕ) : List Word :=
  unsafeBitsetindex bc x (i / 64) (i % 64)

-- The chunk `push!`, `pushfirst!` and `insert!` add when the last one is full.
def growForOne (mem : ℕ → Word) (B : BitVector) : List Word :=
  if B.len % 64 = 0 then setLast (growend mem B.chunks 1) 0 else B.chunks

-- The chunks `append!` and `prepend!` add: only the last one is cleared.
def growTo (mem : ℕ → Word) (B : BitVector) (n : ℕ) : List Word :=
  let k0 := B.chunks.length
  let k1 := numBitChunks n
  if k1 > k0 then setLast (growend mem B.chunks (k1 - k0)) 0 else B.chunks

-- `for t = length(Bc)-1:-1:lo  Bc[t] = (Bc[t] << 1) | (Bc[t-1] >>> 63)`
def shiftUp (lo : ℕ) (bc : List Word) : List Word :=
  Loop.down lo bc.length (fun t bc =>
    bc.set t ((word bc t <<< 1) ||| (word bc (t - 1) >>> 63))) bc

-- `for t = lo:length(Bc)-2  Bc[t] = (Bc[t] >>> 1) | (Bc[t+1] << 63)`
def shiftDown (lo : ℕ) (bc : List Word) : List Word :=
  Loop.up lo (bc.length - 1) (fun t bc =>
    bc.set t ((word bc t >>> 1) ||| (word bc (t + 1) <<< 63))) bc

def push (mem : ℕ → Word) (B : BitVector) (item : Bool) : BitVector :=
  let bc := growForOne mem B
  let len := B.len + 1
  ⟨if item then setindex bc true (len - 1) else bc, len⟩

def append (mem : ℕ → Word) (B : BitVector) (items : Operand BitVector) :
    Except BitError BitVector :=
  let n0 := B.len
  let n1 := (items.get B).len
  if n1 = 0 then .ok B
  else if n0 + n1 ≥ 2 ^ 63 then .error .OverflowError
  else
    let n := n0 + n1
    let bc := growTo mem B n
    .ok ⟨copyChunks bc n0 items.source 0 n1, n⟩

def prepend (mem : ℕ → Word) (B : BitVector) (items : Operand BitVector) :
    Except BitError BitVector :=
  let n0 := B.len
  let n1 := (items.get B).len
  if n1 = 0 then .ok B
  else if n0 + n1 ≥ 2 ^ 63 then .error .OverflowError
  else
    let n := n0 + n1
    let bc := growTo mem B n
    let bc := copyChunks bc n1 .self 0 n0
    .ok ⟨copyChunks bc 0 items.source 0 n1, n⟩

def pop (B : BitVector) : Except BitError (BitVector × Bool) :=
  if B.len = 0 then .error (.ArgumentError "argument must not be empty")
  else
    let item := unsafeBitgetindex B.chunks (B.len - 1)
    let bc := setindex B.chunks false (B.len - 1)
    let bc := if B.len % 64 = 1 then deleteend bc 1 else bc
    .ok (⟨bc, B.len - 1⟩, item)

def pushfirst (mem : ℕ → Word) (B : BitVector) (item : Bool) : BitVector :=
  let bc := growForOne mem B
  let len := B.len + 1
  if len = 1 then ⟨bc.set 0 (if item then 1 else 0), len⟩
  else
    let bc := shiftUp 1 bc
    ⟨bc.set 0 ((if item then 1 else 0 : Word) ||| (word bc 0 <<< 1)), len⟩

def popfirst (B : BitVector) : Except BitError (BitVector × Bool) :=
  if B.len = 0 then .error (.ArgumentError "argument must not be empty")
  else
    let item := unsafeBitgetindex B.chunks 0
    let bc := shiftDown 0 B.chunks
    let bc := if B.len % 64 = 1 then deleteend bc 1
      else setLast bc (word bc (bc.length - 1) >>> 1)
    .ok (⟨bc, B.len - 1⟩, item)

-- `_insert_int!(B, i, item)`
def insert (mem : ℕ → Word) (B : BitVector) (i : ℤ) (item : Bool) : Except BitError BitVector :=
  if ¬(0 ≤ i ∧ i ≤ B.len) then .error (.BoundsError i)
  else
    let k := i.toNat / 64
    let j := i.toNat % 64
    let bc := growForOne mem B
    let len := B.len + 1
    let bc := shiftUp (k + 1) bc
    let msk_aft := msk64 <<< j
    let msk_bef := ~~~msk_aft
    let bc := bc.set k ((msk_bef &&& word bc k) ||| ((msk_aft &&& word bc k) <<< 1))
    .ok ⟨setindex bc item i.toNat, len⟩

-- `_deleteat!(B, i)`
def deleteatInt (B : BitVector) (i : ℕ) : BitVector :=
  let k := i / 64
  let j := i % 64
  let msk_bef := msk64 >>> (63 - j)
  let msk_aft := ~~~msk_bef
  let msk_bef := msk_bef >>> 1
  let bc := B.chunks.set k ((msk_bef &&& word B.chunks k) ||| ((msk_aft &&& word B.chunks k) >>> 1))
  let bc := if k + 1 < bc.length then bc.set k (word bc k ||| (word bc (k + 1) <<< 63)) else bc
  let bc := shiftDown (k + 1) bc
  let bc := if B.len % 64 = 1 then deleteend bc 1
    else if k + 1 < bc.length then setLast bc (word bc (bc.length - 1) >>> 1)
    else bc
  ⟨bc, B.len - 1⟩

-- `deleteat!(B, i::Integer)`
def deleteat (B : BitVector) (i : ℤ) : Except BitError BitVector :=
  if ¬(0 ≤ i ∧ i < B.len) then .error (.BoundsError i)
  else .ok (deleteatInt B i.toNat)

-- Drop the chunks past the new length, then the bits past it in the last chunk.
def trim (bc : List Word) (delta_k : ℤ) (new_l : ℕ) : BitVector :=
  let bc := if delta_k < 0 then deleteend bc (-delta_k).toNat else bc
  ⟨if new_l > 0 then setLast bc (word bc (bc.length - 1) &&& mskEnd new_l) else bc, new_l⟩

-- `deleteat!(B, r::AbstractUnitRange{Int})`
def deleteatRange (B : BitVector) (r : UnitRange) : Except BitError BitVector :=
  let n := B.len
  if ¬0 ≤ r.start then .error (.BoundsError r.start)
  else if ¬r.stop < n then .error (.BoundsError n)
  else
    let new_l := n - r.length
    let delta_k : ℤ := numBitChunks new_l - B.chunks.length
    let bc := copyChunks B.chunks r.start.toNat .self (r.stop + 1).toNat (n - r.stop - 1).toNat
    .ok (trim bc delta_k new_l)

-- `_resize_int!(B, n)`
def resize (mem : ℕ → Word) (B : BitVector) (n : ℤ) : Except BitError BitVector :=
  if n = B.len then .ok B
  else if h : ¬n ≥ 0 then .error (.BoundsError n)
  else if hlt : n < B.len then deleteatRange B ⟨n, B.len - 1, by omega⟩
  else .ok ⟨growTo mem B n.toNat, n.toNat⟩

-- `B[r]` copies the range into a fresh vector.
def getindexRange (mem : ℕ → Word) (B : BitVector) (r : UnitRange) : BitVector :=
  let nc := numBitChunks r.length
  let x := setLast ((List.range nc).map mem) 0
  ⟨copyChunks x 0 (.other B.chunks) r.start.toNat r.length, r.length⟩

-- `_splice_int!(B, r, ins)`; the test `i_f > n` cannot succeed after the bounds check.
-- `fresh` is the memory the returned vector is allocated in.
def splice (mem fresh : ℕ → Word) (B : BitVector) (r : UnitRange) (ins : Operand BitVector) :
    Except BitError (BitVector × BitVector) :=
  let n := B.len
  if ¬(0 ≤ r.start ∧ r.start ≤ n) then .error (.BoundsError r.start)
  else if ¬r.stop < n then .error (.BoundsError n)
  else if r.start > n then do
    let B ← append mem B ins
    .ok (B, BitVector.new)
  else
    let v := getindexRange fresh B r
    let lins := (ins.get B).len
    let ldel := r.length
    let new_l := n + lins - ldel
    let delta_k : ℤ := numBitChunks new_l - B.chunks.length
    let bc := if delta_k > 0 then growend mem B.chunks delta_k.toNat else B.chunks
    let bc := copyChunks bc (r.start.toNat + lins) .self (r.stop + 1).toNat (n - r.stop - 1).toNat
    let bc := copyChunks bc r.start.toNat ins.source 0 lins
    .ok (trim bc delta_k new_l, v)

-- The calls of a run, over vectors of either representation.
inductive Op (β : Type)
  | push (item : Bool)
  | pop
  | pushfirst (item : Bool)
  | popfirst
  | insert (i : ℤ) (item : Bool)
  | deleteat (i : ℤ)
  | deleteatRange (r : UnitRange)
  | append (items : Operand β)
  | prepend (items : Operand β)
  | splice (r : UnitRange) (ins : Operand β)
  | resize (n : ℤ)

inductive Ret (β : Type)
  | nothing
  | item (x : Bool)
  | vector (v : β)

def exec (mem fresh : ℕ → Word) (op : Op BitVector) (B : BitVector) :
    Except BitError (BitVector × Ret BitVector) :=
  match op with
  | .push item => .ok (push mem B item, .nothing)
  | .pop => (pop B).map fun (B, item) => (B, .item item)
  | .pushfirst item => .ok (pushfirst mem B item, .nothing)
  | .popfirst => (popfirst B).map fun (B, item) => (B, .item item)
  | .insert i item => (insert mem B i item).map (·, .nothing)
  | .deleteat i => (deleteat B i).map (·, .nothing)
  | .deleteatRange r => (deleteatRange B r).map (·, .nothing)
  | .append items => (append mem B items).map (·, .nothing)
  | .prepend items => (prepend mem B items).map (·, .nothing)
  | .splice r ins => (splice mem fresh B r ins).map fun (B, v) => (B, .vector v)
  | .resize n => (resize mem B n).map (·, .nothing)

end Joolia.BitArray
