import Joolia.Library.Iteration
import Joolia.Library.Words

namespace Joolia.BitArray

open Words

-- `_msk64`
def msk64 : Word := ~~~0

-- `_msk_end(l) = _msk64 >>> _mod64(-l)`
def mskEnd (l : ℕ) : Word := msk64 >>> ((-(l : ℤ)) % 64).toNat

def numBitChunks (n : ℕ) : ℕ := n / 64 + if n % 64 = 0 then 0 else 1

-- `_growend!` leaves the new chunks uninitialised: `mem` is what the memory held.
def growend (mem : ℕ → Word) (a : List Word) (n : ℕ) : List Word :=
  a ++ (List.range n).map mem

def deleteend (a : List Word) (n : ℕ) : List Word := a.take (a.length - n)

-- `Bc[end] = w`
def setLast (a : List Word) (w : Word) : List Word := a.set (a.length - 1) w

def unsafeBitgetindex (bc : List Word) (i : ℕ) : Bool :=
  (word bc (i / 64) &&& ((1 : Word) <<< (i % 64))) != 0

-- `_unsafe_bitsetindex!(Bc, x, i1, i2)`
def unsafeBitsetindex (bc : List Word) (x : Bool) (i1 i2 : ℕ) : List Word :=
  let u := (1 : Word) <<< i2
  let c := word bc i1
  bc.set i1 (if x then c ||| u else c &&& ~~~u)

-- Julia shifts by the full count, so a shift by 64 gives zero; `BitVec` agrees.
def glueSrcBitchunks (src : List Word) (k ks1 : ℕ) (msk_s0 : Word) (ls0 : ℕ) : Word :=
  let chunk := (word src k &&& msk_s0) >>> ls0
  if ks1 > k ∧ ls0 > 0 then
    let chunk_n := word src (k + 1) &&& ~~~msk_s0
    chunk ||| (chunk_n <<< (64 - ls0))
  else chunk

-- The source argument of `copy_chunks!`: the destination vector itself
-- (`dest === src`) or another vector.
inductive Source
  | self
  | other (chunks : List Word)

def Source.read (src : Source) (dest : List Word) : List Word :=
  match src with
  | .self => dest
  | .other chunks => chunks

-- The masks of the bits of the first and last destination chunk to keep and of the
-- bits of a source chunk to take.
def mskD0 (ld0 ld1 delta_kd : ℕ) : Word :=
  if delta_kd = 0 then ~~~(msk64 <<< ld0) ||| (msk64 <<< (ld1 + 1)) else ~~~(msk64 <<< ld0)

def mskD1 (ld1 : ℕ) : Word := msk64 <<< (ld1 + 1)

def mskS0 (ls0 ls1 delta_ks : ℕ) : Word :=
  if delta_ks = 0 then (msk64 <<< ls0) &&& ~~~(msk64 <<< (ls1 + 1)) else msk64 <<< ls0

-- The left-to-right copy, the body of `copy_chunks!` after its two early exits.
def copyChunksForward (dest : List Word) (pos_d : ℕ) (src : Source) (pos_s numbits : ℕ) :
    List Word :=
  let kd0 := pos_d / 64
  let ld0 := pos_d % 64
  let kd1 := (pos_d + numbits - 1) / 64
  let ld1 := (pos_d + numbits - 1) % 64
  let ks0 := pos_s / 64
  let ls0 := pos_s % 64
  let ks1 := (pos_s + numbits - 1) / 64
  let ls1 := (pos_s + numbits - 1) % 64
  let delta_kd := kd1 - kd0
  let delta_ks := ks1 - ks0
  let msk_d0 := mskD0 ld0 ld1 delta_kd
  let msk_d1 := mskD1 ld1
  let msk_s0 := mskS0 ls0 ls1 delta_ks
  let chunk_s0 := glueSrcBitchunks (src.read dest) ks0 ks1 msk_s0 ls0
  let dest := dest.set kd0 ((word dest kd0 &&& msk_d0) ||| ((chunk_s0 <<< ld0) &&& ~~~msk_d0))
  if delta_kd = 0 then dest
  else
    let (dest, chunk_s0) := Loop.up 1 (kd1 - kd0) (fun i (dest, chunk_s0) =>
      let chunk_s1 := glueSrcBitchunks (src.read dest) (ks0 + i) ks1 msk_s0 ls0
      let chunk_s := (chunk_s0 >>> (64 - ld0)) ||| (chunk_s1 <<< ld0)
      (dest.set (kd0 + i) chunk_s, chunk_s1)) (dest, chunk_s0)
    let chunk_s1 := if ks1 ≥ ks0 + delta_kd
      then glueSrcBitchunks (src.read dest) (ks0 + delta_kd) ks1 msk_s0 ls0 else 0
    let chunk_s := (chunk_s0 >>> (64 - ld0)) ||| (chunk_s1 <<< ld0)
    dest.set kd1 ((word dest kd1 &&& msk_d1) ||| (chunk_s &&& ~~~msk_d1))

-- One pass of the loop of `copy_chunks_rtol!`: move `s` bits from `ps` to `pd`.
def copyBlockRtol (chunks : List Word) (pd ps s : ℕ) : List Word :=
  let kd0 := pd / 64
  let ld0 := pd % 64
  let kd1 := (pd + s - 1) / 64
  let ld1 := (pd + s - 1) % 64
  let ks0 := ps / 64
  let ls0 := ps % 64
  let ks1 := (ps + s - 1) / 64
  let ls1 := (ps + s - 1) % 64
  let delta_kd := kd1 - kd0
  let delta_ks := ks1 - ks0
  let msk_d0 := mskD0 ld0 ld1 delta_kd
  let msk_d1 := mskD1 ld1
  let msk_s0 := mskS0 ls0 ls1 delta_ks
  let chunk_s0 := glueSrcBitchunks chunks ks0 ks1 msk_s0 ls0 &&& ~~~(msk64 <<< s)
  let chunks := chunks.set kd0
    ((word chunks kd0 &&& msk_d0) ||| ((chunk_s0 <<< ld0) &&& ~~~msk_d0))
  if delta_kd ≠ 0 then
    let chunk_s := chunk_s0 >>> (64 - ld0)
    chunks.set kd1 ((word chunks kd1 &&& msk_d1) ||| (chunk_s &&& ~~~msk_d1))
  else chunks

def copyChunksRtolLoop (chunks : List Word) (pos_d pos_s left : ℕ) : List Word :=
  if left > 0 then
    let s := min left 64
    let b := left - s
    copyChunksRtolLoop (copyBlockRtol chunks (pos_d + b) (pos_s + b) s) pos_d pos_s (left - s)
  else chunks
termination_by left

-- `copy_chunks_rtol!(chunks, pos_d, pos_s, numbits)`
def copyChunksRtol (chunks : List Word) (pos_d pos_s numbits : ℕ) : List Word :=
  if pos_d = pos_s then chunks
  else if pos_d < pos_s then
    if numbits = 0 then chunks else copyChunksForward chunks pos_d .self pos_s numbits
  else copyChunksRtolLoop chunks pos_d pos_s numbits

-- `copy_chunks!(dest, pos_d, src, pos_s, numbits)`
def copyChunks (dest : List Word) (pos_d : ℕ) (src : Source) (pos_s numbits : ℕ) : List Word :=
  if numbits = 0 then dest
  else
    match src with
    | .self =>
        if pos_d > pos_s then copyChunksRtol dest pos_d pos_s numbits
        else copyChunksForward dest pos_d .self pos_s numbits
    | .other chunks => copyChunksForward dest pos_d (.other chunks) pos_s numbits

end Joolia.BitArray
