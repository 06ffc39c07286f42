import Mathlib.Data.Int.Bitwise
import Mathlib.Data.List.Basic

namespace Joolia.Hashtable

-- What the table uses of a key type: `hash`, `isequal` and `===`.
class Key (K : Type) where
  hash : K → UInt64
  isequal : K → K → Bool
  egal : K → K → Bool

-- `isequal` is an equivalence that `===` implies, and `hash` agrees with it.
class LawfulKey (K : Type) [Key K] : Prop where
  refl (a : K) : Key.isequal a a = true
  symm {a b : K} : Key.isequal a b = true → Key.isequal b a = true
  trans {a b c : K} : Key.isequal a b = true → Key.isequal b c = true → Key.isequal a c = true
  isequal_of_egal {a b : K} : Key.egal a b = true → Key.isequal a b = true
  hash_eq {a b : K} : Key.isequal a b = true → Key.hash a = Key.hash b

inductive DictError (K : Type)
  | ArgumentError (msg : String)
  | KeyError (key : K)

-- An unset key or value is `none`.
structure Dict (K V : Type) where
  slots : List UInt8
  keys : List (Option K)
  vals : List (Option V)
  ndel : ℤ
  count : ℤ
  age : UInt64
  idxfloor : ℕ
  maxprobe : ℕ

variable {K V : Type}

-- `Dict{K,V}()`
def Dict.new : Dict K V := ⟨[], [], [], 0, 0, 0, 0, 0⟩

def maxallowedprobe : ℕ := 16

def maxprobeshift : ℕ := 6

-- `x & (sz-1)`; the second form takes an `Int` that may be negative.
def maskNat (x sz : ℕ) : ℕ := x &&& (sz - 1)

def maskInt (x : ℤ) (sz : ℕ) : ℕ := (Int.land x (sz - 1)).toNat

-- `_tablesz(x)`
def tablesz (x : ℤ) : ℕ := if x < 16 then 16 else 1 <<< ((x - 1).toNat.log2 + 1)

def shorthash7 (hsh : UInt64) : UInt8 := (hsh >>> 57).toUInt8 ||| 0x80

def hashindex [Key K] (key : K) (sz : ℕ) : ℕ × UInt8 :=
  let hsh := Key.hash key
  (maskNat hsh.toNat sz, shorthash7 hsh)

def slotAt (slots : List UInt8) (i : ℕ) : UInt8 := slots.getD i 0

def isslotempty (h : Dict K V) (i : ℕ) : Bool := slotAt h.slots i == 0x00

def isslotfilled (h : Dict K V) (i : ℕ) : Bool := slotAt h.slots i &&& 0x80 != 0

def isslotmissing (h : Dict K V) (i : ℕ) : Bool := slotAt h.slots i == 0x7f

-- `while slots[index] != 0  index = (index + 1) & (newsz-1)`; `none` if it does not end.
def rehashFind (slots : List UInt8) (newsz : ℕ) (fuel index : ℕ) : Option ℕ :=
  if slotAt slots index = 0 then some index
  else match fuel with
    | 0 => none
    | fuel + 1 => rehashFind slots newsz fuel (maskNat (index + 1) newsz)

structure Rehashed (K V : Type) where
  slots : List UInt8
  keys : List (Option K)
  vals : List (Option V)
  count : ℤ
  maxprobe : ℕ

-- One pass of the loop of `rehash!` over the old slots.
def rehashStep [Key K] (h : Dict K V) (newsz : ℕ) (new : Rehashed K V) (i : ℕ) :
    Option (Rehashed K V) :=
  if isslotfilled h i then do
    let k ← h.keys.getD i none
    let v ← h.vals.getD i none
    let index0 := (hashindex k newsz).1
    let index ← rehashFind new.slots newsz newsz index0
    let probe := maskInt ((index : ℤ) - index0) newsz
    some ⟨new.slots.set index (slotAt h.slots i), new.keys.set index (some k),
      new.vals.set index (some v), new.count + 1,
      if probe > new.maxprobe then probe else new.maxprobe⟩
  else some new

-- `rehash!(h, newsz)`
def rehash [Key K] (h : Dict K V) (newsz : ℤ) : Option (Dict K V) :=
  let newsz := tablesz newsz
  let slots := List.replicate newsz 0x00
  let keys := List.replicate newsz none
  let vals := List.replicate newsz none
  if h.count = 0 then
    some { h with slots, keys, vals, ndel := 0, age := h.age + 1, idxfloor := 0, maxprobe := 0 }
  else do
    let new ← (List.range h.slots.length).foldlM (rehashStep h newsz) ⟨slots, keys, vals, 0, 0⟩
    some ⟨new.slots, new.keys, new.vals, 0, new.count, h.age + 1 + 1, 0, new.maxprobe⟩

-- `empty!(h)`
def empty (h : Dict K V) : Dict K V :=
  let sz := h.slots.length
  ⟨List.replicate sz 0x00, List.replicate h.keys.length none, List.replicate h.vals.length none,
    0, 0, h.age + 1, 0, 0⟩

-- `sh == h.slots[index] && (key === k || isequal(key, k))`; `none` if the key is unset.
def matchesAt [Key K] (h : Dict K V) (key : K) (sh : UInt8) (index : ℕ) : Option Bool :=
  if sh = slotAt h.slots index then
    (h.keys.getD index none).map fun k => Key.egal key k || Key.isequal key k
  else some false

-- The loop of `ht_keyindex`, entered with `maxprobe - iter`.
def keyindexLoop [Key K] (h : Dict K V) (key : K) (sh : UInt8) (rest index : ℕ) : Option ℤ :=
  if isslotempty h index then some (-1)
  else (matchesAt h key sh index).bind fun found =>
    if found then some index
    else match rest with
      | 0 => some (-1)
      | rest + 1 => keyindexLoop h key sh rest (maskNat (index + 1) h.keys.length)

-- The index where a key is stored, or -1
def htKeyindex [Key K] (h : Dict K V) (key : K) : Option ℤ :=
  if h.count = 0 then some (-1)
  else if ¬h.maxprobe < h.keys.length then none
  else
    let (index, sh) := hashindex key h.keys.length
    keyindexLoop h key sh h.maxprobe index

-- How the first loop of `ht_keyindex2_shorthash!` ends: it returns, or it gives up at
-- `maxprobe` with the slot to go on from.
inductive Scan
  | done (index : ℤ)
  | exhausted (avail : ℤ) (index : ℕ)

def scanLoop [Key K] (h : Dict K V) (key : K) (sh : UInt8) (rest index : ℕ) (avail : ℤ) :
    Option Scan :=
  if isslotempty h index then some (.done (if avail < 0 then avail else -(index + 1)))
  else if isslotmissing h index then
    let avail := if avail = 0 then -(index + 1 : ℤ) else avail
    match rest with
    | 0 => some (.exhausted avail (maskNat (index + 1) h.keys.length))
    | rest + 1 => scanLoop h key sh rest (maskNat (index + 1) h.keys.length) avail
  else (matchesAt h key sh index).bind fun found =>
    if found then some (.done index)
    else match rest with
      | 0 => some (.exhausted avail (maskNat (index + 1) h.keys.length))
      | rest + 1 => scanLoop h key sh rest (maskNat (index + 1) h.keys.length) avail

-- The second loop, entered with `maxallowed - iter`.
def freeLoop (h : Dict K V) (rest index iter : ℕ) : Option (ℕ × ℕ) :=
  match rest with
  | 0 => none
  | rest + 1 =>
      if !isslotfilled h index then some (index, iter)
      else freeLoop h rest (maskNat (index + 1) h.keys.length) (iter + 1)

-- The index where a key is stored, or `-(pos + 1)` for the place to insert it, and its
-- short hash; `fuel` bounds the calls after a rehash.
def htKeyindex2Shorthash [Key K] (fuel : ℕ) (h : Dict K V) (key : K) :
    Option (Dict K V × ℤ × UInt8) :=
  match fuel with
  | 0 => none
  | fuel + 1 =>
      let sz := h.keys.length
      if sz = 0 then do
        let h ← rehash h 4
        let (index, sh) := hashindex key h.keys.length
        some (h, -(index + 1 : ℤ), sh)
      else
        let (index, sh) := hashindex key sz
        (scanLoop h key sh h.maxprobe index 0).bind fun scan =>
          match scan with
          | .done index => some (h, index, sh)
          | .exhausted avail index =>
              if avail < 0 then some (h, avail, sh)
              else
                let maxallowed := max maxallowedprobe (sz >>> maxprobeshift)
                let iter := h.maxprobe + 1
                match freeLoop h (maxallowed - iter) index iter with
                | some (index, iter) => some ({ h with maxprobe := iter }, -(index + 1 : ℤ), sh)
                | none => do
                    let h ← rehash h (if h.count > 64000 then sz * 2 else sz * 4)
                    htKeyindex2Shorthash fuel h key

-- The assignments of `_setindex!(h, v, key, index, sh)`
def writeSlot (h : Dict K V) (v : V) (key : K) (index : ℕ) (sh : UInt8) : Dict K V where
  slots := h.slots.set index sh
  keys := h.keys.set index (some key)
  vals := h.vals.set index (some v)
  ndel := h.ndel - if isslotmissing h index then 1 else 0
  count := h.count + 1
  age := h.age + 1
  idxfloor := if index < h.idxfloor then index else h.idxfloor
  maxprobe := h.maxprobe

-- `_setindex!(h, v, key, index, sh)`
def setindexAt [Key K] (h : Dict K V) (v : V) (key : K) (index : ℕ) (sh : UInt8) :
    Option (Dict K V) :=
  let h := writeSlot h v key index sh
  let sz := h.keys.length
  if (h.count + h.ndel) * 3 > sz * 2 then
    rehash h (if h.count > 64000 then h.count * 2 else max (h.count * 4) 4)
  else some h

-- Enough calls for any collision pattern: every one at least doubles the table.
def calls (h : Dict K V) : ℕ := h.count.toNat + 8

-- `setindex!(h, v, key)` and the end of `get!`
def store [Key K] (h : Dict K V) (v : V) (key : K) (index : ℤ) (sh : UInt8) : Option (Dict K V) :=
  if index ≥ 0 then
    some { h with
      age := h.age + 1
      keys := h.keys.set index.toNat (some key)
      vals := h.vals.set index.toNat (some v) }
  else setindexAt h v key (-index - 1).toNat sh

def setindex [Key K] (h : Dict K V) (v : V) (key : K) : Option (Dict K V) :=
  (htKeyindex2Shorthash (calls h) h key).bind fun (h, index, sh) => store h v key index sh

-- `get!(default, h, key)`; `default` may change the table, and then its age.
def getOrStore [Key K] (h : Dict K V) (key : K) (default : Dict K V → Option (Dict K V × V)) :
    Option (Dict K V × V) :=
  (htKeyindex2Shorthash (calls h) h key).bind fun (h, index, sh) =>
    if index ≥ 0 then (h.vals.getD index.toNat none).map (h, ·)
    else
      let age0 := h.age
      (default h).bind fun (h, v) =>
        (if h.age ≠ age0 then htKeyindex2Shorthash (calls h) h key else some (h, index, sh)).bind
          fun (h, index, sh) => (store h v key index sh).map (·, v)

-- The backward loop of `_delete!`
def sweep (sz fuel : ℕ) (slots : List UInt8) (index : ℕ) (ndel : ℤ) : Option (List UInt8 × ℤ) :=
  match fuel with
  | 0 => none
  | fuel + 1 =>
      let ndel := ndel - 1
      let slots := slots.set index 0x00
      let index := maskInt ((index : ℤ) - 1) sz
      if slotAt slots index = 0x7f then sweep sz fuel slots index ndel else some (slots, ndel)

-- The other assignments of `_delete!(h, index)`
def clearSlot (h : Dict K V) (index : ℕ) (slots : List UInt8) (ndel : ℤ) : Dict K V :=
  { h with
    slots
    keys := h.keys.set index none
    vals := h.vals.set index none
    ndel := h.ndel + ndel
    count := h.count - 1
    age := h.age + 1 }

-- `_delete!(h, index)`
def deleteAt (h : Dict K V) (index : ℕ) : Option (Dict K V) :=
  let sz := h.slots.length
  let nextind := maskNat (index + 1) sz
  let swept := if isslotempty h nextind then sweep sz sz h.slots index 1
    else some (h.slots.set index 0x7f, 1)
  swept.map fun (slots, ndel) => clearSlot h index slots ndel

-- `delete!(h, key)`
def delete [Key K] (h : Dict K V) (key : K) : Option (Dict K V) :=
  (htKeyindex h key).bind fun index =>
    if index ≥ 0 then deleteAt h index.toNat else some h

-- `_pop!(h, index)`
def popAt (h : Dict K V) (index : ℕ) : Option (Dict K V × V) :=
  (h.vals.getD index none).bind fun val => (deleteAt h index).map (·, val)

-- `pop!(h, key)`
def popKey [Key K] (h : Dict K V) (key : K) : Option (Except (DictError K) (Dict K V × V)) :=
  (htKeyindex h key).bind fun index =>
    if index ≥ 0 then (popAt h index.toNat).map .ok else some (.error (.KeyError key))

-- `pop!(h, key, default)`
def popKeyDefault [Key K] (h : Dict K V) (key : K) (default : V) : Option (Dict K V × V) :=
  (htKeyindex h key).bind fun index =>
    if index ≥ 0 then popAt h index.toNat else some (h, default)

def skipDeleted (h : Dict K V) (i : ℤ) : ℤ :=
  let L := h.slots.length
  if i < 0 ∨ i ≥ L then -1
  else match (List.range' i.toNat (L - i.toNat)).find? (isslotfilled h) with
    | some i => i
    | none => -1

-- `pop!(h)` after `skip_deleted_floor!`
def pop (h : Dict K V) : Option (Except (DictError K) (Dict K V × K × V)) :=
  if h.count = 0 then some (.error (.ArgumentError "dict must be non-empty"))
  else
    let idx := skipDeleted h h.idxfloor
    let h := if idx ≥ 0 then { h with idxfloor := idx.toNat } else h
    if idx < 0 then none
    else do
      let key ← h.keys.getD idx.toNat none
      let val ← h.vals.getD idx.toNat none
      let h ← deleteAt h idx.toNat
      some (.ok (h, key, val))

-- One pass of the loop of `filter!`
def filterStep (pred : K × V → Bool) (h : Dict K V) (i : ℕ) : Option (Dict K V) :=
  if isslotfilled h i then do
    let k ← h.keys.getD i none
    let v ← h.vals.getD i none
    if pred (k, v) then some h else deleteAt h i
  else some h

-- `filter!(pred, h)`
def filter (pred : K × V → Bool) (h : Dict K V) : Option (Dict K V) :=
  if h.count = 0 then some h else (List.range h.slots.length).foldlM (filterStep pred) h

-- `iterate(h, i)`; the first call starts from `h.idxfloor`. An index is below the
-- length of the table, so it is never `typemax(Int)`.
def iterate (h : Dict K V) (i : ℤ) : Option ((Option K × Option V) × ℤ) :=
  let i := skipDeleted h i
  if i < 0 then none
  else some ((h.keys.getD i.toNat none, h.vals.getD i.toNat none), i + 1)

end Joolia.Hashtable
