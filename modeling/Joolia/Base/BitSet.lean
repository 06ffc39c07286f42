import Joolia.Base.BitArray.Chunks
import Mathlib.Algebra.Ring.Nat
import Mathlib.Algebra.Ring.Int.Defs

namespace Joolia.Bitset

open Words BitArray

inductive BitSetError
  | ArgumentError (msg : String)
  | KeyError (n : ℤ)
  | InexactError (n : ℤ)
  deriving DecidableEq, Repr

def NO_OFFSET : ℤ := -2 ^ 60

structure BitSet where
  bits : List Word
  offset : ℤ
  deriving DecidableEq, Repr

-- `BitSet()`
def BitSet.new : BitSet := ⟨[], NO_OFFSET⟩

-- `typemin(Int) <= n <= typemax(Int)`
def isConvertibleInt (n : ℤ) : Prop := -2 ^ 63 ≤ n ∧ n ≤ 2 ^ 63 - 1

instance (n : ℤ) : Decidable (isConvertibleInt n) := inferInstanceAs (Decidable (_ ∧ _))

-- `_div64` is an arithmetic shift, so it rounds down.
def div64 (n : ℤ) : ℤ := n / 64

def mod64 (n : ℤ) : ℕ := (n % 64).toNat

def bitsGetindex (b : List Word) (n offset : ℤ) : Bool :=
  let ci := div64 n - offset
  if 0 ≤ ci ∧ ci < b.length then (word b ci.toNat &&& ((1 : Word) <<< mod64 n)) != 0 else false

-- `for i = lo:hi-1  b[i] = CHK0`
def clearRange (lo hi : ℕ) (b : List Word) : List Word :=
  Loop.up lo hi (fun i b => b.set i 0) b

-- `_growbeg!` leaves the new chunks uninitialised, as `_growend!` does.
def growbeg (mem : ℕ → Word) (a : List Word) (n : ℕ) : List Word :=
  (List.range n).map mem ++ a

def deletebeg (a : List Word) (n : ℕ) : List Word := a.drop n

-- `_growend0!` and `_growbeg0!` clear them.
def growend0 (mem : ℕ → Word) (b : List Word) (nchunks : ℕ) : List Word :=
  let len := b.length
  let b := growend mem b nchunks
  clearRange len b.length b

def growbeg0 (mem : ℕ → Word) (b : List Word) (nchunks : ℕ) : List Word :=
  clearRange 0 nchunks (growbeg mem b nchunks)

-- `_setint!(s, idx, b)`
def setint (mem : ℕ → Word) (s : BitSet) (idx : ℤ) (b : Bool) : BitSet :=
  let cidx := div64 idx
  let len := s.bits.length
  let diff := cidx - s.offset
  if diff ≥ len then
    if b = false then s
    else if s.offset = NO_OFFSET then
      ⟨unsafeBitsetindex (growend0 mem s.bits (0 - len + 1 : ℤ).toNat) b 0 (mod64 idx), cidx⟩
    else
      ⟨unsafeBitsetindex (growend0 mem s.bits (diff - len + 1).toNat) b diff.toNat (mod64 idx),
        s.offset⟩
  else if diff < 0 then
    if b = false then s
    else
      ⟨unsafeBitsetindex (growbeg0 mem s.bits (-diff).toNat) b 0 (mod64 idx), s.offset + diff⟩
  else ⟨unsafeBitsetindex s.bits b diff.toNat (mod64 idx), s.offset⟩

-- The bits `i:63` and `0:j` of a chunk, and `i:j`.
def mskFrom (i : ℕ) : Word := ((~~~0 : Word) >>> i) <<< i

def mskTo (j : ℕ) : Word := ((~~~0 : Word) <<< (63 - j)) >>> (63 - j)

def mskFromTo (i j : ℕ) : Word := (((~~~0 : Word) >>> i) <<< (i + 63 - j)) >>> (63 - j)

-- The update of `union!(s, r)` once the chunks `diffa` and `diffb` exist.
def fillRange (bits : List Word) (diffa diffb i j : ℕ) : List Word :=
  if diffa = diffb then bits.set diffa (word bits diffa ||| mskFromTo i j)
  else
    let bits := bits.set diffa (word bits diffa ||| mskFrom i)
    let bits := bits.set diffb (word bits diffb ||| mskTo j)
    Loop.up (diffa + 1) diffb (fun n bits => bits.set n (~~~0)) bits

-- `union!(s, a:b)` for a nonempty range of `Int`s
def unionInts (mem : ℕ → Word) (s : BitSet) (a b : ℤ) : BitSet :=
  let cidxa := div64 a
  let cidxb := div64 b
  let offset := if s.offset = NO_OFFSET then cidxa else s.offset
  let len := s.bits.length
  let diffa := cidxa - offset
  let diffb := cidxb - offset
  let bits := if diffb ≥ len then growend0 mem s.bits (diffb - len + 1).toNat else s.bits
  if diffa < 0 then
    let bits := growbeg0 mem bits (-diffa).toNat
    ⟨fillRange bits 0 (diffb - diffa).toNat (mod64 a) (mod64 b), cidxa⟩
  else ⟨fillRange bits diffa.toNat diffb.toNat (mod64 a) (mod64 b), offset⟩

-- `union!(s, r)` for the integer unit range `r = a:b`
def unionRange (mem : ℕ → Word) (s : BitSet) (a b : ℤ) : Except BitSetError BitSet :=
  if b < a then .ok s
  else if ¬isConvertibleInt a then .error (.InexactError a)
  else if ¬isConvertibleInt b then .error (.InexactError b)
  else .ok (unionInts mem s a b)

-- The functions `f` that `union!`, `intersect!`, `setdiff!` and `symdiff!` map.
inductive SetOp
  | union
  | intersect
  | setdiff
  | symdiff
  deriving DecidableEq, Repr

def SetOp.bool (f : SetOp) (p q : Bool) : Bool :=
  match f with
  | .union => p || q
  | .intersect => p && q
  | .setdiff => p && !q
  | .symdiff => p ^^ q

def SetOp.word (f : SetOp) (p q : Word) : Word :=
  match f with
  | .union => p ||| q
  | .intersect => p &&& q
  | .setdiff => p &&& ~~~q
  | .symdiff => p ^^^ q

def SetOp.leftFalseIsFalse (f : SetOp) : Bool :=
  f.bool false false == f.bool false true && f.bool false true == false

def SetOp.rightFalseIsFalse (f : SetOp) : Bool :=
  f.bool false false == f.bool true false && f.bool true false == false

-- `unsafe_copyto!(dest, doffs, src, soffs, n)`; `none` where it would touch memory
-- outside the vectors.
def unsafeCopyto (dest : List Word) (doffs : ℤ) (src : List Word) (soffs n : ℤ) :
    Option (List Word) :=
  if n = 0 then some dest
  else if 0 < n ∧ 0 ≤ doffs ∧ doffs + n ≤ dest.length ∧ 0 ≤ soffs ∧ soffs + n ≤ src.length then
    some (dest.take doffs.toNat ++ (src.drop soffs.toNat).take n.toNat ++
      dest.drop (doffs + n).toNat)
  else none

-- `a1[i] = f(a1[i], a2[i-bdiff])` over the common indices
def mapCommon (f : SetOp) (a1 a2 : List Word) (bdiff : ℤ) : List Word :=
  Loop.up (max 0 bdiff).toNat (min (a1.length : ℤ) (a2.length + bdiff)).toNat
    (fun i a1 => a1.set i (f.word (Words.word a1 i) (Words.word a2 (i - bdiff).toNat))) a1

-- The end of the window: the updated vector and `l1`.
def matchEnd (mem : ℕ → Word) (f : SetOp) (a1 : List Word) (b1 : ℤ) (a2 : List Word) (b2 : ℤ) :
    Option (List Word × ℤ) :=
  let l1 : ℤ := a1.length
  let l2 : ℤ := a2.length
  let bdiff := b2 - b1
  let e2 := l2 + b2
  let ediff := e2 - (l1 + b1)
  if ediff > 0 then
    if f.leftFalseIsFalse then some (a1, l1)
    else
      let a1 := growend mem a1 ediff.toNat
      let a1 := if bdiff > l1 then clearRange l1.toNat bdiff.toNat a1 else a1
      let l1 := if bdiff > l1 then bdiff else l1
      let ediff := e2 - l1 - b1
      (unsafeCopyto a1 l1 a2 (l2 - ediff) ediff).map fun a1 => (a1, (a1.length : ℤ))
  else if ediff < 0 then
    if f.rightFalseIsFalse then some (deleteend a1 (min l1 (-ediff)).toNat, l1) else some (a1, l1)
  else some (a1, l1)

-- The beginning of the window: the updated vector and the new offset.
def matchBegin (mem : ℕ → Word) (f : SetOp) (a1 : List Word) (l1 b1 : ℤ) (a2 : List Word) (b2 : ℤ) :
    Option (List Word × ℤ) :=
  let l2 : ℤ := a2.length
  let bdiff := b2 - b1
  if bdiff < 0 then
    if f.leftFalseIsFalse then some (a1, b1)
    else
      let a1 := growbeg mem a1 (-bdiff).toNat
      let a1 := clearRange l2.toNat (-bdiff).toNat a1
      (unsafeCopyto a1 0 a2 0 (min (-bdiff) l2)).map (·, b1 + bdiff)
  else if bdiff > 0 then
    if f.rightFalseIsFalse then some (deletebeg a1 (min l1 bdiff).toNat, b1 + bdiff)
    else some (a1, b1)
  else some (a1, b1)

-- `_matched_map!(f, a1, b1, a2, b2, ...)`
def matchedMapBits (mem : ℕ → Word) (f : SetOp) (a1 : List Word) (b1 : ℤ) (a2 : List Word) (b2 : ℤ) :
    Option (List Word × ℤ) :=
  (matchEnd mem f (mapCommon f a1 a2 (b2 - b1)) b1 a2 b2).bind fun (a1, l1) =>
    matchBegin mem f a1 l1 b1 a2 b2

-- `copy!(dest, src)`
def copy (_dest src : BitSet) : BitSet := ⟨src.bits, src.offset⟩

-- `empty!(s)`
def empty (_ : BitSet) : BitSet := ⟨[], NO_OFFSET⟩

-- `_matched_map!(f, s1, s2)`
def matchedMap (mem : ℕ → Word) (f : SetOp) (s1 s2 : BitSet) : Option BitSet :=
  if s1.offset = NO_OFFSET then
    if f.leftFalseIsFalse then some s1 else some (copy s1 s2)
  else if s2.offset = NO_OFFSET then
    if f.rightFalseIsFalse then some (empty s1) else some s1
  else (matchedMapBits mem f s1.bits s1.offset s2.bits s2.offset).map fun (a1, b1) => ⟨a1, b1⟩

-- `in(n, s)`
def isIn (n : ℤ) (s : BitSet) : Bool :=
  if isConvertibleInt n then bitsGetindex s.bits n s.offset else false

def push (dirty : ℕ → Word) (s : BitSet) (n : ℤ) : Except BitSetError BitSet :=
  if isConvertibleInt n then .ok (setint dirty s n true) else .error (.InexactError n)

def delete (dirty : ℕ → Word) (s : BitSet) (n : ℤ) : BitSet :=
  if isConvertibleInt n then setint dirty s n false else s

-- `pop!(s, n)`
def popAt (dirty : ℕ → Word) (s : BitSet) (n : ℤ) : Except BitSetError (BitSet × ℤ) :=
  if isIn n s then .ok (delete dirty s n, n) else .error (.KeyError n)

-- `pop!(s, n, default)`
def popDefault (dirty : ℕ → Word) (s : BitSet) (n default : ℤ) : BitSet × ℤ :=
  if isIn n s then (delete dirty s n, n) else (s, default)

-- The first set bit at or after `start`; the loop passes over the zero chunks.
def unsafeBitfindnext (bc : List Word) (start : ℕ) : Option ℕ :=
  let chunk_start := start / 64
  let within_chunk_start := start % 64
  if chunk_start ≥ bc.length then none
  else
    let mask := msk64 <<< within_chunk_start
    if word bc chunk_start &&& mask ≠ 0 then
      some (chunk_start * 64 + (word bc chunk_start &&& mask).ctz.toNat)
    else
      ((List.range' (chunk_start + 1) (bc.length - (chunk_start + 1))).find?
        fun i => word bc i != 0).map fun i => i * 64 + (word bc i).ctz.toNat

def topSetBit (w : Word) : ℕ := 64 - w.clz.toNat

-- The last set bit at or before `start`
def unsafeBitfindprev (bc : List Word) (start : ℕ) : Option ℕ :=
  let chunk_start := start / 64
  let mask := mskEnd (start + 1)
  if word bc chunk_start &&& mask ≠ 0 then
    some (chunk_start * 64 + topSetBit (word bc chunk_start &&& mask) - 1)
  else
    ((List.range chunk_start).reverse.find? fun i => word bc i != 0).map
      fun i => i * 64 + topSetBit (word bc i) - 1

def bitsFindnext (b : List Word) (start : ℕ) : ℤ :=
  if start / 64 + 1 > b.length then -1
  else match unsafeBitfindnext b start with
    | none => -1
    | some ind => ind

def bitsFindprev (b : List Word) (start : ℤ) : ℤ :=
  if start ≥ 0 then
    match unsafeBitfindprev b start.toNat with
    | none => -1
    | some ind => ind
  else -1

-- `first(s)`
def first (s : BitSet) : Except BitSetError ℤ :=
  let idx := bitsFindnext s.bits 0
  if idx = -1 then .error (.ArgumentError "collection must be non-empty")
  else .ok (idx + s.offset * 64)

-- `last(s)`
def last (s : BitSet) : Except BitSetError ℤ :=
  let idx := bitsFindprev s.bits (s.bits.length * 64 - 1)
  if idx = -1 then .error (.ArgumentError "collection must be non-empty")
  else .ok (idx + s.offset * 64)

-- `pop!(s)` and `popfirst!(s)`
def pop (dirty : ℕ → Word) (s : BitSet) : Except BitSetError (BitSet × ℤ) :=
  (last s).bind (popAt dirty s)

def popfirst (dirty : ℕ → Word) (s : BitSet) : Except BitSetError (BitSet × ℤ) :=
  (first s).bind (popAt dirty s)

-- `length(s) = bitcount(s.bits)`; the counter is an `Int` and wraps.
def bitcount (bc : List Word) : Int64 :=
  Loop.up 0 bc.length (fun i n => n + Int64.ofNat (word bc i).cpop.toNat) 0

-- The `while word == 0` loop of `iterate`, entered `fuel` chunks before the end.
def nextWord (bits : List Word) (w : Word) (idx : ℤ) (fuel : ℕ) : Option (Word × ℤ) :=
  if w ≠ 0 then some (w, idx)
  else match fuel with
    | 0 => none
    | fuel + 1 => nextWord bits (word bits (idx + 1).toNat) (idx + 1) fuel

-- `_blsr`
def blsr (w : Word) : Word := w &&& (w - 1)

-- `iterate(s, (word, idx))`; the first call starts from `(CHK0, -1)`.
def iterate (s : BitSet) (state : Word × ℤ) : Option (ℤ × Word × ℤ) :=
  (nextWord s.bits state.1 state.2 (s.bits.length - (state.2 + 1)).toNat).map fun (w, idx) =>
    (w.ctz.toNat + (idx + s.offset) * 64, blsr w, idx)

-- The positions `lo:hi-1` tested until one fails; `none` where a read lies outside.
def allOf (lo hi : ℤ) (inside test : ℤ → Bool) : Option Bool :=
  (List.range (hi - lo).toNat).foldr (fun (k : ℕ) rest =>
    if inside (lo + k) then if test (lo + k) then rest else some false else none) (some true)

def isIndex (a : List Word) (i : ℤ) : Bool := 0 ≤ i ∧ i < a.length

def andAlso (x y : Option Bool) : Option Bool := x.bind fun ok => if ok then y else some false

-- `_check0(a, b, e)`
def check0 (a : List Word) (b e : ℤ) : Option Bool :=
  allOf b (e + 1) (isIndex a) fun i => word a i.toNat == 0

-- `memcmp(pointer(a1, i), pointer(a2, j), n<<3) == 0`
def memcmp (a1 : List Word) (i : ℤ) (a2 : List Word) (j n : ℤ) : Option Bool :=
  allOf 0 n (fun k => isIndex a1 (i + k) && isIndex a2 (j + k)) fun k =>
    word a1 (i + k).toNat == word a2 (j + k).toNat

-- `s1 == s2` behind the swap
def eqOrdered (s1 s2 : BitSet) : Option Bool :=
  let a1 := s1.bits
  let a2 := s2.bits
  let b1 := s1.offset
  let b2 := s2.offset
  let l1 : ℤ := a1.length
  let l2 : ℤ := a2.length
  let e1 := l1 + b1
  let overlap0 := max 0 (e1 - b2)
  let included := overlap0 ≥ l2
  let overlap := if included then l2 else overlap0
  andAlso (check0 a1 0 (l1 - overlap0 - 1)) <|
    andAlso (if included then check0 a1 (b2 - b1 + l2) (l1 - 1) else check0 a2 overlap (l2 - 1)) <|
      if overlap > 0 then memcmp a1 (b2 - b1) a2 0 overlap else some true

-- `s1 == s2`
def eq (s1 s2 : BitSet) : Option Bool :=
  if s1.offset > s2.offset then eqOrdered s2 s1 else eqOrdered s1 s2

def issubset (a b : BitSet) : Option Bool :=
  let n : ℤ := a.bits.length
  let shift := b.offset - a.offset
  let i := shift
  let j := shift + b.bits.length
  andAlso (allOf 0 (min n i) (isIndex a.bits) fun i => word a.bits i.toNat == 0) <|
    andAlso (allOf (max 0 i) (min n j) (fun i => isIndex a.bits i && isIndex b.bits (i - shift)) fun i =>
        word a.bits i.toNat == word a.bits i.toNat &&& word b.bits (i - shift).toNat) <|
      allOf (max 0 j) n (isIndex a.bits) fun i => word a.bits i.toNat == 0

end Joolia.Bitset
