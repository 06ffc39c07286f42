import Joolia.Base.BitArray.ReverseAlong

namespace Joolia.Broadcast

open BitArray Words Fallible MixedRadix

inductive BroadcastError
  | DimensionMismatch
  | InexactError
  | MethodError
  | BoundsError
  | Outside
deriving DecidableEq, Repr

section Tree

-- The arguments of a call, handled one by one like the tuple they are.
mutual

inductive Arg (F X : Type)
  | leaf (x : X)
  | nested (f : F) (args : Args F X)

inductive Args (F X : Type)
  | nil
  | cons (a : Arg F X) (args : Args F X)

end

variable {F X W : Type}

-- `_broadcast_getindex` of a tree whose leaves are read by `read` and whose functions are run by `run`.
mutual

def broadcastGetindex (run : F → List W → Except BroadcastError W) (read : X → W) : Arg F X → Except BroadcastError W
  | .leaf x => .ok (read x)
  | .nested f args => getindexArgs run read args >>= run f

def getindexArgs (run : F → List W → Except BroadcastError W) (read : X → W) : Args F X → Except BroadcastError (List W)
  | .nil => .ok []
  | .cons a args => do
      let x ← broadcastGetindex run read a
      let xs ← getindexArgs run read args
      .ok (x :: xs)

end

def isflat : Args F X → Bool
  | .nil => true
  | .cons (.leaf _) args => isflat args
  | .cons (.nested _ _) _ => false

mutual

def catNested : Arg F X → List X
  | .leaf x => [x]
  | .nested _ args => catNestedArgs args

def catNestedArgs : Args F X → List X
  | .nil => []
  | .cons a args => catNested a ++ catNestedArgs args

end

-- A function of the whole flat argument list
abbrev MakeArg (W : Type) := List W → Except BroadcastError W

def pick (n : ℕ) : MakeArg W := fun args =>
  match args[n]? with
  | some x => .ok x
  | none => .error .BoundsError

def prepareArgs (makeargs : List (MakeArg W)) (x : List W) : Except BroadcastError (List W) :=
  match makeargs with
  | [] => .ok []
  | makearg :: rest => do
      let y ← makearg x
      let ys ← prepareArgs rest x
      .ok (y :: ys)

mutual

-- `_make_makeargs1`
def makeMakeargs1 (run : F → List W → Except BroadcastError W) : Arg F X → ℕ → MakeArg W × ℕ
  | .leaf _, n => (pick n, n + 1)
  | .nested f args, n =>
      let (makeargs, n) := makeMakeargs run args n
      (fun x => prepareArgs makeargs x >>= run f, n)

-- `_make_makeargs`
def makeMakeargs (run : F → List W → Except BroadcastError W) : Args F X → ℕ → List (MakeArg W) × ℕ
  | .nil, n => ([], n)
  | .cons a args, n =>
      let (head, n) := makeMakeargs1 run a n
      let (rest, n) := makeMakeargs run args n
      (head :: rest, n)

end

-- The function and the arguments of `flatten(bc)`
def flatten (run : F → List W → Except BroadcastError W) (f : F) (args : Args F X) : MakeArg W × List X :=
  if isflat args then (run f, catNestedArgs args)
  else
    let makeargs := (makeMakeargs run args 0).1
    (fun x => prepareArgs makeargs x >>= run f, catNestedArgs args)

end Tree

section Operations

inductive ChunkableOp
  | and
  | or
  | xor
  | tilde
  | identity
  | bang
  | times
  | equal
deriving DecidableEq, Repr

-- `&(a, b, c...)`, `|`, `xor` and `*`, from the left
def reduce {W : Type} (op : W → W → W) : List W → Except BroadcastError W
  | [] => .error .MethodError
  | x :: xs => .ok (xs.foldl op x)

def unary {W : Type} (op : W → W) : List W → Except BroadcastError W
  | [x] => .ok (op x)
  | _ => .error .MethodError

def binary {W : Type} (op : W → W → W) : List W → Except BroadcastError W
  | [x, y] => .ok (op x y)
  | _ => .error .MethodError

-- bool.jl
def ChunkableOp.onBools : ChunkableOp → List Bool → Except BroadcastError Bool
  | .and => reduce (· && ·)
  | .or => reduce (· || ·)
  | .xor => reduce (· ^^ ·)
  | .tilde => unary (! ·)
  | .identity => unary id
  | .bang => unary (! ·)
  | .times => reduce (· && ·)
  | .equal => binary (· == ·)

-- The operations on chunks, the last one being `(~)∘(xor)`
inductive LiftedOp
  | and
  | or
  | xor
  | tilde
  | identity
  | notXor
deriving DecidableEq, Repr

def LiftedOp.onWords : LiftedOp → List Word → Except BroadcastError Word
  | .and => reduce (· &&& ·)
  | .or => reduce (· ||| ·)
  | .xor => reduce (· ^^^ ·)
  | .tilde => unary (~~~ ·)
  | .identity => unary id
  | .notXor => fun ws => reduce (· ^^^ ·) ws >>= fun w => .ok (~~~w)

def ChunkableOp.lift : ChunkableOp → LiftedOp
  | .and => .and
  | .or => .or
  | .xor => .xor
  | .tilde => .tilde
  | .identity => .identity
  | .bang => .tilde
  | .times => .and
  | .equal => .notXor

variable {α : Type}

-- A value of the broadcast; the values that are no `Bool`s are of any type.
inductive Value (α : Type)
  | bool (b : Bool)
  | other (x : α)

-- What the operations do with other values than `Bool`s, and how these convert to `Bool`
structure Others (α : Type) where
  apply : ChunkableOp → List (Value α) → Except BroadcastError (Value α)
  convert : α → Except BroadcastError Bool

inductive Func (α : Type)
  | op (o : ChunkableOp)
  | fn (f : List (Value α) → Except BroadcastError (Value α))

def bools : List (Value α) → Option (List Bool)
  | [] => some []
  | .bool b :: vs => (bools vs).map (b :: ·)
  | .other _ :: _ => none

def Func.run (O : Others α) : Func α → List (Value α) → Except BroadcastError (Value α)
  | .op .identity, vs => unary id vs
  | .op o, vs =>
      match bools vs with
      | some bs => (o.onBools bs).map .bool
      | none => O.apply o vs
  | .fn f, vs => f vs

-- `convert(Bool, x)`
def Others.convertBool (O : Others α) : Value α → Except BroadcastError Bool
  | .bool b => .ok b
  | .other x => O.convert x

-- The functions of `liftfuncs(bc)`; those that are not chunkable have no method for chunks.
def Func.onWords : Func α → List Word → Except BroadcastError Word
  | .op o, ws => o.lift.onWords ws
  | .fn _, _ => .error .MethodError

end Operations

section Arguments

abbrev Bits := {B : BitArrayN // Shaped B}

-- `preprocess` copies what shares memory with the destination, but for the destination itself. Scalar-likes ignore
-- the index; how other arrays recompute it is part of their `getindex`.
inductive Leaf (α : Type)
  | bits (B : Operand Bits)
  | bool (b : Bool)
  | scalar (x : Value α)
  | array (getindex : List ℤ → Value α)

-- `newindex(I, keep, default)` of a `BitArray` with these dimensions
def newindex (dims : List ℕ) (I : List ℤ) : List ℤ := List.zipWith (fun d i => if d ≠ 1 then i else 0) dims I

def bitGetindex (dims : List ℕ) (chunks : List Word) (I : List ℤ) : Bool :=
  unsafeBitgetindex chunks (value dims ((newindex dims I).map Int.toNat))

variable {α : Type}

-- A leaf at the index `I` while the destination holds `destc`
def Leaf.read (dims : List ℕ) (destc : List Word) (I : List ℤ) : Leaf α → Value α
  | .bits .self => .bool (bitGetindex dims destc I)
  | .bits (.other B) => .bool (bitGetindex B.val.dims B.val.chunks I)
  | .bool b => .bool b
  | .scalar x => x
  | .array getindex => getindex I

-- Whether the style of a leaf is `AbstractArrayStyle{0}`
def Leaf.zeroDim (dims : List ℕ) : Leaf α → Bool
  | .bits .self => dims.isEmpty
  | .bits (.other B) => B.val.dims.isEmpty
  | .bool _ => true
  | .scalar _ => true
  | .array _ => false

mutual

def zeroDimArg (dims : List ℕ) : Arg (Func α) (Leaf α) → Bool
  | .leaf x => x.zeroDim dims
  | .nested _ args => zeroDimArgs dims args

def zeroDimArgs (dims : List ℕ) : Args (Func α) (Leaf α) → Bool
  | .nil => true
  | .cons a args => zeroDimArg dims a && zeroDimArgs dims args

end

inductive Style
  | nothing
  | zero
  | array
deriving DecidableEq, Repr

structure Broadcasted (α : Type) where
  style : Style
  f : Func α
  args : Args (Func α) (Leaf α)
  axes : List UnitRange

-- `bc[I]`
def Broadcasted.getindex (O : Others α) (bc : Broadcasted α) (dims : List ℕ) (destc : List Word) (I : List ℤ) :
    Except BroadcastError (Value α) :=
  broadcastGetindex (Func.run O) (Leaf.read dims destc I) (.nested bc.f bc.args)

-- `convert(Bool, bc[I])`
def Broadcasted.getbool (O : Others α) (bc : Broadcasted α) (dims : List ℕ) (destc : List Word) (I : List ℤ) :
    Except BroadcastError Bool :=
  bc.getindex O dims destc I >>= O.convertBool

end Arguments

section Copyto

def axis (d : ℕ) : UnitRange := ⟨0, (d : ℤ) - 1, by omega⟩

def UnitRange.toList (r : UnitRange) : List ℤ := (List.range r.length).map fun (k : ℕ) => r.start + k

-- `==` of two ranges
def sameRange (r s : UnitRange) : Bool :=
  (r.length == 0 && s.length == 0) || (r.start == s.start && r.stop == s.stop)

def sameAxes : List UnitRange → List UnitRange → Bool
  | [], [] => true
  | r :: rs, s :: ss => sameRange r s && sameAxes rs ss
  | _, _ => false

def store (destc : List Word) (k : ℕ) (w : Word) : Except BroadcastError (List Word) :=
  if k < destc.length then .ok (destc.set k w) else .error .Outside

structure Packer where
  destc : List Word
  indc : ℕ
  bitst : ℕ
  remain : Word

abbrev Getbool := List Word → List ℤ → Except BroadcastError Bool

-- `for j = lo:63  z |= UInt64(convert(Bool, bc[i+=1, I])) << (j & 63)`
def gather (get : Getbool) (destc : List Word) (I : List ℤ) (lo : ℕ) (z : Word) (i : ℤ) : Except BroadcastError (Word × ℤ) :=
  (List.range' lo (64 - lo)).foldlM (fun (state : Word × ℤ) j => do
    let b ← get destc ((state.2 + 1) :: I)
    .ok (state.1 ||| (boolWord b <<< (j % 64)), state.2 + 1)) (z, i)

-- `while i <= last(ax1) - 64`; a pass takes 64 of the indices, so `fuel` passes are enough.
def wholeChunks (get : Getbool) (last : ℤ) (I : List ℤ) : ℕ → Packer → ℤ → Except BroadcastError (Packer × ℤ)
  | 0, s, i => .ok (s, i)
  | fuel + 1, s, i =>
      if i ≤ last - 64 then do
        let (z, i) ← gather get s.destc I 0 0 i
        let destc ← store s.destc s.indc z
        wholeChunks get last I fuel { s with destc := destc, indc := s.indc + 1 } i
      else .ok (s, i)

def rest (get : Getbool) (last : ℤ) (I : List ℤ) (s : Packer) (i : ℤ) : Except BroadcastError Packer :=
  (List.range (last - i).toNat).foldlM (fun (s : Packer) (k : ℕ) => do
    let b ← get s.destc ((i + 1 + k) :: I)
    .ok { s with remain := s.remain ||| (boolWord b <<< (s.bitst % 64)), bitst := s.bitst + 1 }) s

-- One pass of `for I in out`
def packColumn (get : Getbool) (nd : ℕ) (ax1 : UnitRange) (s : Packer) (I : List ℤ) : Except BroadcastError Packer := do
  let i := ax1.start - 1
  let (s, i) ←
    if nd = 1 ∨ (s.bitst : ℤ) ≥ 64 - ax1.length then do
      let (s, i) ←
        if nd > 1 ∧ s.bitst ≠ 0 then do
          let (remain, i) ← gather get s.destc I s.bitst s.remain i
          let destc ← store s.destc s.indc remain
          .ok ((⟨destc, s.indc + 1, 0, 0⟩ : Packer), i)
        else .ok (s, i)
      wholeChunks get ax1.stop I ax1.length s i
    else .ok (s, i)
  rest get ax1.stop I s i

-- What is left in the register after the last column
def flush (s : Packer) : Except BroadcastError (List Word) :=
  if s.bitst ≠ 0 then store s.destc s.indc s.remain else .ok s.destc

variable {α : Type} (O : Others α)

-- The element-by-element part of `copyto!(dest::BitArray, bc::Broadcasted{Nothing})`
def elementcopyto (dest : BitArrayN) (bc : Broadcasted α) : Except BroadcastError BitArrayN :=
  match bc.axes with
  | [] => do
      let x ← bc.getbool O dest.dims dest.chunks []
      .ok { dest with chunks := setindex dest.chunks x 0 }
  | ax1 :: tail => do
      let get : Getbool := fun destc I => bc.getbool O dest.dims destc I
      let out := columnMajor (tail.map UnitRange.toList)
      let s ← out.foldlM (packColumn get bc.axes.length ax1) ⟨dest.chunks, 0, 0, 0⟩
      let destc ← flush s
      .ok { dest with chunks := destc }

def Leaf.ischunked (dims : List ℕ) : Leaf α → Bool
  | .bits .self => true
  | .bits (.other B) => dims == B.val.dims
  | .bool _ => true
  | .scalar _ => false
  | .array _ => false

mutual

def ischunkedArg (dims : List ℕ) : Arg (Func α) (Leaf α) → Bool
  | .leaf x => x.ischunked dims
  | .nested (.op _) args => ischunkedArgs dims args
  | .nested (.fn _) _ => false

def ischunkedArgs (dims : List ℕ) : Args (Func α) (Leaf α) → Bool
  | .nil => true
  | .cons a args => ischunkedArg dims a && ischunkedArgs dims args

end

def ischunkedbroadcast (dims : List ℕ) (bc : Broadcasted α) : Bool := ischunkedArg dims (.nested bc.f bc.args)

-- `ithchunk(i, args...)` of an argument of `liftchunks(f.args)`
def Leaf.ithchunk (dc : List Word) (i : ℕ) : Leaf α → Except BroadcastError Word
  | .bits .self => .ok (word dc i)
  | .bits (.other B) => .ok (word B.val.chunks i)
  | .bool b => .ok (if b then msk64 else 0)
  | .scalar _ => .error .MethodError
  | .array _ => .error .MethodError

def chunkedcopyto (dest : BitArrayN) (bc : Broadcasted α) : Except BroadcastError BitArrayN :=
  if dest.len = 0 then .ok dest
  else do
    let (f, args) := flatten Func.onWords bc.f bc.args
    let dc ← (List.range dest.chunks.length).foldlM (fun dc (i : ℕ) => do
      let ws ← args.mapM (Leaf.ithchunk dc i)
      let w ← f ws
      .ok (dc.set i w)) dest.chunks
    .ok { dest with chunks := setLast dc (word dc (dc.length - 1) &&& mskEnd dest.len) }

-- `copyto!(dest::BitArray, bc::Broadcasted{Nothing})`
def copytoNothing (dest : BitArrayN) (bc : Broadcasted α) : Except BroadcastError BitArrayN :=
  if ¬sameAxes (dest.dims.map axis) bc.axes then .error .DimensionMismatch
  else if ischunkedbroadcast dest.dims bc then chunkedcopyto dest bc
  else elementcopyto O dest bc

-- `fill!(B::BitArray, x)`
def fill (dest : BitArrayN) (y : Bool) : BitArrayN :=
  if dest.len = 0 then dest
  else if !y then { dest with chunks := dest.chunks.map fun _ => 0 }
  else
    let bc := dest.chunks.map fun _ => msk64
    { dest with chunks := setLast bc (word bc (bc.length - 1) &&& mskEnd dest.len) }

-- `copyto!(dest, bc)`; a broadcast of the style `AbstractArrayStyle{0}` may only fill the destination.
def copyto (dest : BitArrayN) (bc : Broadcasted α) : Except BroadcastError BitArrayN :=
  match bc.style, bc.f, bc.args with
  | .zero, .op .identity, .cons (.leaf x) .nil => (O.convertBool (x.read dest.dims dest.chunks [])).map (fill dest)
  | _, _, _ => copytoNothing O dest bc

end Copyto

end Joolia.Broadcast

namespace Joolia.Broadcast

open BitArray Words Fallible

section Flatten

variable {F X W : Type} (run : F → List W → Except BroadcastError W) (read : X → W)

theorem pick_spec {n : ℕ} {pre post : List W} (hn : n = pre.length) (w : W) : pick n (pre ++ w :: post) = .ok w := by
  rw [pick, hn, List.getElem?_append_right (Nat.le_refl _), Nat.sub_self]
  rfl

-- A maker takes its argument from the part of the flat list that its node fills.
mutual

theorem makeMakeargs1_spec (a : Arg F X) {n : ℕ} {p q : List W} (hn : n = p.length) :
    (makeMakeargs1 run a n).2 = n + (catNested a).length ∧
    (makeMakeargs1 run a n).1 (p ++ (catNested a).map read ++ q) = broadcastGetindex run read a := by
  cases a with
  | leaf x =>
      rw [makeMakeargs1, catNested, broadcastGetindex]
      refine ⟨rfl, ?_⟩
      rw [List.map_singleton, List.append_assoc]
      exact pick_spec hn (read x)
  | nested f args =>
      obtain ⟨hnext, hargs⟩ := makeMakeargs_spec args (q := q) hn
      rw [makeMakeargs1, catNested, broadcastGetindex]
      refine ⟨hnext, ?_⟩
      dsimp only
      rw [hargs]

theorem makeMakeargs_spec (args : Args F X) {n : ℕ} {p q : List W} (hn : n = p.length) :
    (makeMakeargs run args n).2 = n + (catNestedArgs args).length ∧
    prepareArgs (makeMakeargs run args n).1 (p ++ (catNestedArgs args).map read ++ q) = getindexArgs run read args := by
  cases args with
  | nil =>
      rw [makeMakeargs, catNestedArgs, getindexArgs]
      exact ⟨rfl, rfl⟩
  | cons a args =>
      obtain ⟨hnext, hhead⟩ := makeMakeargs1_spec a (q := (catNestedArgs args).map read ++ q) hn
      obtain ⟨hlast, hrest⟩ := makeMakeargs_spec args (p := p ++ (catNested a).map read) (q := q)
        (n := (makeMakeargs1 run a n).2) (by rw [hnext, hn, List.length_append, List.length_map])
      rw [makeMakeargs, catNestedArgs, getindexArgs]
      refine ⟨by rw [hlast, hnext, List.length_append, Nat.add_assoc], ?_⟩
      have hsplit : p ++ (catNested a ++ catNestedArgs args).map read ++ q =
          p ++ (catNested a).map read ++ ((catNestedArgs args).map read ++ q) := by
        rw [List.map_append]
        simp only [List.append_assoc]
      rw [hsplit]
      dsimp only
      rw [prepareArgs, hhead, ← List.append_assoc, hrest]

end

-- A flat tree needs no maker.
theorem getindexArgs_of_isflat : ∀ {args : Args F X}, isflat args = true →
    getindexArgs run read args = .ok ((catNestedArgs args).map read)
  | .nil, _ => by rw [getindexArgs, catNestedArgs]; rfl
  | .cons (.nested f inner) args, h => by cases h
  | .cons (.leaf x) args, h => by
      rw [getindexArgs, broadcastGetindex, catNestedArgs, catNested, getindexArgs_of_isflat (show isflat args = true from h)]
      rfl

-- The flat function of the values of all leaves is the value of the tree.
theorem flatten_spec (f : F) (args : Args F X) :
    (flatten run f args).1 ((flatten run f args).2.map read) = broadcastGetindex run read (.nested f args) := by
  rw [flatten, broadcastGetindex]
  split_ifs with hflat
  · rw [getindexArgs_of_isflat run read hflat]
    rfl
  · have hargs := (makeMakeargs_spec run read args (p := []) (q := []) (n := 0) rfl).2
    rw [List.nil_append, List.append_nil] at hargs
    dsimp only
    rw [hargs]

theorem flatten_args (f : F) (args : Args F X) : (flatten run f args).2 = catNestedArgs args := by
  unfold flatten
  split_ifs <;> rfl

end Flatten

end Joolia.Broadcast
