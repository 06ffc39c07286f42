import Joolia.Library.Fallible
import Mathlib.Data.Int.Notation
import Mathlib.Algebra.Ring.Nat
import Mathlib.Algebra.Ring.Int.Defs

namespace Joolia.Vectors

-- `memoryError` is raised when a memory of the requested length cannot be had.
inductive Error
  | argumentError (msg : String)
  | boundsError (i : ℤ)
  | boundsErrorRange (first last : ℤ)
  | undefRefError
  | overflowError
  | memoryError
  | concurrencyViolationError (msg : String)
deriving DecidableEq, Repr

-- A cell is `#undef`, or holds an element; for element types stored inline it always holds one.
abbrev Cell (α : Type) := Option α

structure Memory (α : Type) where
  length : ℕ
  cells : ℕ → Cell α

-- The window `offset, ..., offset + size - 1` into the memory: `ref` and `size` of a Vector.
structure Vec (α : Type) where
  mem : Memory α
  offset : ℕ
  size : ℕ

-- What the runtime decides: the cells of a new memory, what unsetindex! leaves in a cell (`#undef`,
-- or the old value for elements stored inline), and which lengths it can allocate.
structure Runtime (α : Type) where
  undef : ℕ → Cell α
  unset : Cell α → Cell α
  grants : ℕ → Bool

variable {α : Type}

def typemaxInt : ℕ := 2 ^ 63 - 1

def checkedAdd (x y : ℕ) : Except Error ℕ :=
  if x + y ≤ typemaxInt then pure (x + y) else throw .overflowError

def checkedMul (x y : ℕ) : Except Error ℕ :=
  if x * y ≤ typemaxInt then pure (x * y) else throw .overflowError

def overallocation (maxsize : ℕ) : ℕ :=
  let exp2 := if maxsize = 0 then 0 else maxsize.log2 + 1
  let extra := (1 <<< (exp2 * 7 / 8)) * 3 + maxsize / 8
  if typemaxInt - extra < maxsize then typemaxInt else maxsize + extra

def arrayNewMemory (rt : Runtime α) (newlen : ℕ) : Except Error (Memory α) :=
  if rt.grants newlen then pure ⟨newlen, rt.undef⟩ else throw .memoryError

-- The bounds check of memoryref(mem, i).
def memoryref (mem : Memory α) (i : ℕ) : Except Error ℕ :=
  if i < mem.length then pure i else throw (.boundsError i)

def memmove (dest : Memory α) (doffs : ℕ) (src : Memory α) (soffs n : ℕ) : Memory α :=
  ⟨dest.length, fun j => if doffs ≤ j ∧ j < doffs + n then src.cells (soffs + (j - doffs)) else dest.cells j⟩

def unsafeCopyto (dest : Memory α) (doffs : ℕ) (src : Memory α) (soffs n : ℕ) :
    Except Error (Memory α) := do
  if n = 0 then return dest
  let _ ← memoryref dest doffs
  let _ ← memoryref src soffs
  let _ ← memoryref dest (doffs + (n - 1))
  let _ ← memoryref src (soffs + (n - 1))
  return memmove dest doffs src soffs n

-- `for j in lo:hi-1  @inbounds unsetindex!(mem, j)  end`
def unsetRange (rt : Runtime α) (mem : Memory α) (lo hi : ℕ) : Memory α :=
  ⟨mem.length, fun j => if lo ≤ j ∧ j < hi then rt.unset (mem.cells j) else mem.cells j⟩

def invalidState : Error := .concurrencyViolationError
  "Vector has invalid state. Don't modify internal fields incorrectly, or resize without correct locks"

-- _growbeg_internal!; `ref !== a.ref` cannot hold without concurrent tasks
def growbegInternal (rt : Runtime α) (a : Vec α) (delta len : ℕ) : Except Error (Vec α) := do
  let newlen ← checkedAdd len delta
  let memlen := a.mem.length
  if memlen < a.offset ∨ memlen - a.offset < len then throw invalidState
  let twice ← checkedMul 2 delta
  let needed ← checkedAdd len twice
  let newmemlen := max (overallocation len) needed
  let newoffset := (newmemlen - newlen) / 2
  if newlen < memlen ∧ newoffset < memlen - newlen then
    let newoffset := (memlen - newlen) / 2
    let mem ← unsafeCopyto a.mem (newoffset + delta) a.mem a.offset len
    let mem := unsetRange rt mem a.offset (newoffset + delta)
    return ⟨mem, newoffset, a.size⟩
  else
    let newmem ← arrayNewMemory rt newmemlen
    let newmem ← unsafeCopyto newmem (newoffset + delta) a.mem a.offset len
    return ⟨newmem, newoffset, a.size⟩

-- _growbeg!
def growbeg (rt : Runtime α) (a : Vec α) (delta : ℕ) : Except Error (Vec α) := do
  if delta = 0 then return a
  let len := a.size
  let newlen ← checkedAdd len delta
  if delta ≤ a.offset then return ⟨a.mem, a.offset - delta, newlen⟩
  else
    let a ← growbegInternal rt a delta len
    return ⟨a.mem, a.offset, newlen⟩

-- _growend_internal!
def growendInternal (rt : Runtime α) (a : Vec α) (delta len : ℕ) : Except Error (Vec α) := do
  let memlen := a.mem.length
  let newlen ← checkedAdd len delta
  let offset := a.offset
  if memlen < offset ∨ memlen - offset < len then throw invalidState
  let newmemlen ← checkedAdd offset newlen
  if newlen < offset ∧ newlen / 4 < offset - newlen then
    let newoffset := newlen / 8
    let mem ← unsafeCopyto a.mem newoffset a.mem offset len
    return ⟨mem, newoffset, a.size⟩
  else
    let newmemlen2 := max (overallocation memlen) newmemlen
    let newmem ← arrayNewMemory rt newmemlen2
    let newmem ← unsafeCopyto newmem offset a.mem offset len
    return ⟨newmem, offset, a.size⟩

-- _growend!
def growend (rt : Runtime α) (a : Vec α) (delta : ℕ) : Except Error (Vec α) := do
  let len := a.size
  let newlen ← checkedAdd len delta
  let newmemlen ← checkedAdd a.offset newlen
  if a.mem.length < newmemlen then
    let a ← growendInternal rt a delta len
    return ⟨a.mem, a.offset, newlen⟩
  else
    return ⟨a.mem, a.offset, newlen⟩

-- _growat!
def growat (rt : Runtime α) (a : Vec α) (i : ℤ) (delta : ℕ) : Except Error (Vec α) :=
  let len := a.size
  if i = 0 then growbeg rt a delta
  else if len < typemaxInt ∧ i = len then growend rt a delta
  else if ¬ (0 < i ∧ i < len) then throw (.boundsError i)
  else do
    let i := i.toNat
    let memlen := a.mem.length
    let newlen ← checkedAdd len delta
    let offset := a.offset
    let newmemlen ← checkedAdd offset newlen
    let prefer_start := decide (i ≤ len / 2)
    if prefer_start = true ∧ delta ≤ offset then
      let mem ← unsafeCopyto a.mem (offset - delta) a.mem offset i
      let mem := unsetRange rt mem (offset - delta + i) (offset - delta + i + delta)
      return ⟨mem, offset - delta, newlen⟩
    else if prefer_start = false ∧ newmemlen ≤ memlen then
      let mem ← unsafeCopyto a.mem (offset + delta + i) a.mem (offset + i) (len - i)
      let mem := unsetRange rt mem (offset + i) (offset + i + delta)
      return ⟨mem, offset, newlen⟩
    else
      let twice ← checkedMul 2 delta
      let needed ← checkedAdd len twice
      let newmemlen := max (overallocation memlen) needed
      let newoffset := (newmemlen - newlen) / 2
      let newmem ← arrayNewMemory rt newmemlen
      let newmem ← unsafeCopyto newmem newoffset a.mem offset i
      let newmem ← unsafeCopyto newmem (newoffset + delta + i) a.mem (offset + i) (len - i)
      return ⟨newmem, newoffset, newlen⟩

-- _deletebeg!
def deletebeg (rt : Runtime α) (a : Vec α) (delta : ℕ) : Except Error (Vec α) := do
  let len := a.size
  if len < delta then throw (.argumentError "_deletebeg! requires delta in 0:length(a)")
  let mem := unsetRange rt a.mem a.offset (a.offset + delta)
  let newlen := len - delta
  if newlen ≠ 0 then return ⟨mem, a.offset + delta, newlen⟩
  else return ⟨mem, a.offset, newlen⟩

-- _deleteend!
def deleteend (rt : Runtime α) (a : Vec α) (delta : ℕ) : Except Error (Vec α) := do
  let len := a.size
  if len < delta then throw (.argumentError "_deleteend! requires delta in 0:length(a)")
  let newlen := len - delta
  let mem := unsetRange rt a.mem (a.offset + newlen) (a.offset + len)
  return ⟨mem, a.offset, newlen⟩

-- Int64 arithmetic without overflow checks.
def wrapInt (x : ℤ) : ℤ := (x + 2 ^ 63) % 2 ^ 64 - 2 ^ 63

-- _deleteat!
def deleteatCount (rt : Runtime α) (a : Vec α) (i : ℤ) (delta : ℕ) : Except Error (Vec α) := do
  let len := a.size
  if ¬ (0 ≤ i ∧ i < len) then throw (.boundsError i)
  if ¬ (i + delta ≤ len) then throw (.boundsError (i + delta - 1))
  let i := i.toNat
  if wrapInt (2 * i + delta) ≤ len then
    let mem ← unsafeCopyto a.mem (a.offset + delta) a.mem a.offset i
    deletebeg rt ⟨mem, a.offset, len⟩ delta
  else
    let mem ← unsafeCopyto a.mem (a.offset + i) a.mem (a.offset + (i + delta)) (len - delta - i)
    deleteend rt ⟨mem, a.offset, len⟩ delta

-- `a[i]`
def getindex (a : Vec α) (i : ℤ) : Except Error α :=
  if 0 ≤ i ∧ i < a.size then
    match a.mem.cells (a.offset + i.toNat) with
    | some x => pure x
    | none => throw .undefRefError
  else throw (.boundsError i)

-- `a[i] = x`
def setindex (a : Vec α) (i : ℤ) (x : α) : Except Error (Vec α) :=
  if 0 ≤ i ∧ i < a.size then
    pure ⟨⟨a.mem.length, fun j => if j = a.offset + i.toNat then some x else a.mem.cells j⟩, a.offset, a.size⟩
  else throw (.boundsError i)

-- `a[first:first+n-1]`, a new vector
def getindexRange (rt : Runtime α) (a : Vec α) (first : ℤ) (n : ℕ) : Except Error (List (Cell α)) := do
  if ¬ (n = 0 ∨ (0 ≤ first ∧ first + n - 1 < a.size)) then throw (.boundsErrorRange first (first + n - 1))
  let _ ← arrayNewMemory rt n
  return (List.range n).map fun k => a.mem.cells (a.offset + first.toNat + k)

def push (rt : Runtime α) (a : Vec α) (item : α) : Except Error (Vec α) := do
  let a ← growend rt a 1
  setindex a (a.size - 1) item

def pushfirst (rt : Runtime α) (a : Vec α) (item : α) : Except Error (Vec α) := do
  let a ← growbeg rt a 1
  setindex a 0 item

def pop (rt : Runtime α) (a : Vec α) : Except Error (Vec α × α) := do
  if a.size = 0 then throw (.argumentError "array must be non-empty")
  let item ← getindex a (a.size - 1)
  let a ← deleteend rt a 1
  return (a, item)

def popfirst (rt : Runtime α) (a : Vec α) : Except Error (Vec α × α) := do
  if a.size = 0 then throw (.argumentError "array must be non-empty")
  let item ← getindex a 0
  let a ← deletebeg rt a 1
  return (a, item)

def popat (rt : Runtime α) (a : Vec α) (i : ℤ) : Except Error (Vec α × α) := do
  let x ← getindex a i
  let a ← deleteatCount rt a i 1
  return (a, x)

-- popat!(a, i, default)
def popatDefault (rt : Runtime α) (a : Vec α) (i : ℤ) (default : α) : Except Error (Vec α × α) := do
  if 0 ≤ i ∧ i < a.size then
    let x ← getindex a i
    let a ← deleteatCount rt a i 1
    return (a, x)
  else return (a, default)

def insert (rt : Runtime α) (a : Vec α) (i : ℤ) (item : α) : Except Error (Vec α) := do
  let a ← growat rt a i 1
  setindex a i item

-- deleteat!(a, i::Integer)
def deleteat (rt : Runtime α) (a : Vec α) (i : ℤ) : Except Error (Vec α) := deleteatCount rt a i 1

-- deleteat!(a, r::AbstractUnitRange), the range given by its first element and its length
def deleteatRange (rt : Runtime α) (a : Vec α) (first : ℤ) (n : ℕ) : Except Error (Vec α) :=
  if n = 0 then pure a else deleteatCount rt a first n

def Vec.ofList (items : List (Cell α)) : Vec α := ⟨⟨items.length, fun j => items.getD j none⟩, 0, items.length⟩

-- copyto!(dest, doffs, src, soffs, n)
def copyto (dest : Vec α) (doffs : ℕ) (src : Vec α) (soffs n : ℕ) : Except Error (Vec α) := do
  if n = 0 then return dest
  if ¬ doffs < dest.size then throw (.boundsError doffs)
  if ¬ n ≤ dest.size - doffs then throw (.boundsError dest.size)
  if ¬ soffs < src.size then throw (.boundsError soffs)
  if ¬ n ≤ src.size - soffs then throw (.boundsError src.size)
  return ⟨memmove dest.mem (dest.offset + doffs) src.mem (src.offset + soffs) n, dest.offset, dest.size⟩

-- The vector whose elements append! and prepend! add: another one, or `a` itself.
inductive Items (α : Type)
  | other (cells : List (Cell α))
  | self
deriving DecidableEq, Repr

-- It is read again after `a` has grown.
def Items.vector (items : Items α) (a : Vec α) : Vec α :=
  match items with
  | .other cells => .ofList cells
  | .self => a

def append (rt : Runtime α) (a : Vec α) (items : Items α) : Except Error (Vec α) := do
  let n := (items.vector a).size
  let a ← growend rt a n
  copyto a (a.size - n) (items.vector a) 0 n

def prepend (rt : Runtime α) (a : Vec α) (items : Items α) : Except Error (Vec α) := do
  let n := (items.vector a).size
  let a ← growbeg rt a n
  copyto a 0 (items.vector a) ((items.vector a).size - n) n

def resize (rt : Runtime α) (a : Vec α) (nl : ℤ) : Except Error (Vec α) :=
  let l := a.size
  if l < nl then growend rt a (nl - l).toNat
  else if nl ≠ l then
    if nl < 0 then throw (.argumentError "new length must be ≥ 0") else deleteend rt a (l - nl).toNat
  else pure a

def empty (rt : Runtime α) (a : Vec α) : Except Error (Vec α) := deleteend rt a a.size

-- `k = 0; for x in ins  a[f+k] = x; k += 1  end`
def setItems (a : Vec α) (f : ℤ) : List α → Except Error (Vec α)
  | [] => pure a
  | x :: ins => do setItems (← setindex a f x) (f + 1) ins

-- The middle of splice!: delete or grow, so that `m` items fit in place of the range.
def spliceRoom (rt : Runtime α) (a : Vec α) (first : ℤ) (d m : ℕ) : Except Error (Vec α) :=
  let n := a.size
  let last := first + d - 1
  if m < d then
    let delta := d - m
    deleteatCount rt a (if first < n - last - 1 then first else last - delta + 1) delta
  else if d < m then growat rt a (if first < n - last - 1 then first else last + 1) (m - d)
  else pure a

-- splice!(a, r::AbstractUnitRange, ins)
def splice (rt : Runtime α) (a : Vec α) (first : ℤ) (d : ℕ) (ins : List α) :
    Except Error (Vec α × List (Cell α)) := do
  let v ← getindexRange rt a first d
  let m := ins.length
  if m = 0 then return (← deleteatRange rt a first d, v)
  let a ← spliceRoom rt a first d m
  return (← setItems a first ins, v)

def sizehint (rt : Runtime α) (a : Vec α) (sz : ℤ) (first shrink : Bool) : Except Error (Vec α) := do
  let len := a.size
  let memlen := a.mem.length
  let sz := max sz.toNat len
  let inc := sz - len
  if sz ≤ memlen then
    if shrink = false ∨ memlen - sz ≤ memlen / 8 then return a
    let newmem ← arrayNewMemory rt sz
    let newref ← if first then memoryref newmem inc else pure 0
    let newmem ← unsafeCopyto newmem newref a.mem a.offset len
    return ⟨newmem, newref, len⟩
  else if first then
    let a ← growbeg rt a inc
    let newref ← memoryref a.mem (a.offset + inc)
    return ⟨a.mem, newref, len⟩
  else
    let a ← growend rt a inc
    return ⟨a.mem, a.offset, len⟩

inductive Op (α : Type)
  | push (item : α)
  | pushfirst (item : α)
  | pop
  | popfirst
  | insert (i : ℤ) (item : α)
  | popat (i : ℤ)
  | popatDefault (i : ℤ) (default : α)
  | deleteat (i : ℤ)
  | deleteatRange (first : ℤ) (n : ℕ)
  | append (items : Items α)
  | prepend (items : Items α)
  | splice (first : ℤ) (n : ℕ) (ins : List α)
  | resize (nl : ℤ)
  | empty
  | sizehint (sz : ℤ) (first shrink : Bool)
deriving DecidableEq, Repr

-- The operation, with the elements it returns besides the vector.
def perform (rt : Runtime α) (a : Vec α) : Op α → Except Error (Vec α × List (Cell α))
  | .push item => do return (← Vectors.push rt a item, [])
  | .pushfirst item => do return (← Vectors.pushfirst rt a item, [])
  | .pop => do let (a, item) ← Vectors.pop rt a; return (a, [some item])
  | .popfirst => do let (a, item) ← Vectors.popfirst rt a; return (a, [some item])
  | .insert i item => do return (← Vectors.insert rt a i item, [])
  | .popat i => do let (a, item) ← Vectors.popat rt a i; return (a, [some item])
  | .popatDefault i default => do let (a, item) ← Vectors.popatDefault rt a i default; return (a, [some item])
  | .deleteat i => do return (← Vectors.deleteat rt a i, [])
  | .deleteatRange first n => do return (← Vectors.deleteatRange rt a first n, [])
  | .append items => do return (← Vectors.append rt a items, [])
  | .prepend items => do return (← Vectors.prepend rt a items, [])
  | .splice first n ins => Vectors.splice rt a first n ins
  | .resize nl => do return (← Vectors.resize rt a nl, [])
  | .empty => do return (← Vectors.empty rt a, [])
  | .sizehint sz first shrink => do return (← Vectors.sizehint rt a sz first shrink, [])

-- An operation that throws does so before it changes the vector.
def after (a : Vec α) (outcome : Except Error (Vec α × List (Cell α))) : Vec α :=
  match outcome with
  | .ok (a', _) => a'
  | .error _ => a

end Joolia.Vectors
