import Joolia.Library.Fallible
import Joolia.Library.Segment
import Mathlib.Tactic.Ring

namespace Joolia.Reinterpret

open Fallible Segment

section Model

inductive AccessError
  | BoundsError
  -- an access outside of the parent or of a buffer
  | Outside
  | OutOfFuel
deriving DecidableEq, Repr

-- A value without padding
@[ext] structure Value (n : ℕ) where
  bytes : List UInt8
  length_bytes : bytes.length = n
deriving DecidableEq, Repr

-- `memcpy(dst + lo, src + lo', nb)`
def memcpy {n m : ℕ} (dst : Value n) (lo : ℕ) (src : Value m) (lo' nb : ℕ) : Except AccessError (Value n) :=
  if h : lo + nb ≤ n ∧ lo' + nb ≤ m then
    .ok ⟨overwrite dst.bytes lo (seg src.bytes lo' nb), by
      have hseg : (seg src.bytes lo' nb).length = nb := length_seg (h.2.trans (Nat.le_of_eq src.length_bytes.symm))
      exact (length_overwrite (by rw [hseg, dst.length_bytes]; exact h.1)).trans dst.length_bytes⟩
  else .error .Outside

-- `unsafe_load` of a value of `n` bytes from inside of another value
def unsafeLoad {m : ℕ} (n : ℕ) (src : Value m) (lo : ℕ) : Except AccessError (Value n) :=
  if h : lo + n ≤ m then .ok ⟨seg src.bytes lo n, length_seg (h.trans (Nat.le_of_eq src.length_bytes.symm))⟩ else .error .Outside

-- A view with elements of `t` bytes on an array with elements of `s` bytes. The dimensions after the first one are
-- counted through: their indices together are the number of a column.
structure ReinterpretArray (t s : ℕ) where
  rows : ℕ
  columns : ℕ
  scalar : Bool
  linear : Bool
  pointer : Bool
  size_of_scalar : scalar = true → t = s
  size_of_singleton : t = 0 → s = 0
  whole : t ∣ rows * s
deriving DecidableEq, Repr

-- The elements of the parent, column by column
structure Parent {t s : ℕ} (a : ReinterpretArray t s) where
  elements : List (Value s)
  length_elements : elements.length = a.rows * a.columns
deriving DecidableEq, Repr

-- Either one index for each dimension, or one index for all of them
inductive Index
  | subscripts (i j : ℕ)
  | linear (i : ℕ)
deriving DecidableEq, Repr

variable {t s : ℕ} {a : ReinterpretArray t s}

-- `size(a)[0]`
def size1 (a : ReinterpretArray t s) : ℕ := if t = 0 then a.rows else a.rows * s / t

def elsize (_ : ReinterpretArray t s) : ℕ := if t = s then s else t

def checkbounds (a : ReinterpretArray t s) : Index → Except AccessError Unit
  | .subscripts i j => if i < size1 a ∧ j < a.columns then .ok () else .error .BoundsError
  | .linear i => if i < size1 a * a.columns then .ok () else .error .BoundsError

-- `_to_linear_index`, `_to_subscript_indices`
def toLinearIndex (a : ReinterpretArray t s) : Index → ℕ
  | .subscripts i j => i + size1 a * j
  | .linear i => i

def toSubscriptIndices (a : ReinterpretArray t s) (i : ℕ) : Index := .subscripts (i % size1 a) (i / size1 a)

def Index.first : Index → ℕ
  | .subscripts i _ => i
  | .linear i => i

-- `(i1, tailinds...)` with another first index
def Index.withFirst : Index → ℕ → Index
  | .subscripts _ j, p => .subscripts p j
  | .linear _, p => .linear p

-- Where the element with this index of the parent is
def position (a : ReinterpretArray t s) : Index → Except AccessError ℕ
  | .subscripts p j => if p < a.rows ∧ j < a.columns then .ok (p + a.rows * j) else .error .Outside
  | .linear p => .ok p

def Parent.getindex (p : Parent a) (ind : Index) : Except AccessError (Value s) := do
  let q ← position a ind
  match p.elements[q]? with
  | some x => .ok x
  | none => .error .Outside

def Parent.setindex (p : Parent a) (x : Value s) (ind : Index) : Except AccessError (Parent a) := do
  let q ← position a ind
  if q < p.elements.length then .ok ⟨p.elements.set q x, List.length_set.trans p.length_elements⟩ else .error .Outside

-- The loop of `_getindex_ra` where neither size divides the other
def getLoop (p : Parent a) (ind : Index) (indStart : ℕ) : ℕ → ℕ → ℕ → ℕ → Value t → Except AccessError (Value t)
  | 0, _, _, _, _ => .error .OutOfFuel
  | fuel + 1, i, nbytesCopied, sidx, tbuf =>
      if nbytesCopied < t then do
        let x ← p.getindex (ind.withFirst (indStart + i))
        let nb := min (s - sidx) (t - nbytesCopied)
        let tbuf ← memcpy tbuf nbytesCopied x sidx nb
        getLoop p ind indStart fuel (i + 1) (nbytesCopied + nb) 0 tbuf
      else .ok tbuf

-- `_getindex_ra`; `tbuf` is what the memory of the result holds before.
def getindexRa (p : Parent a) (tbuf : Value t) (ind : Index) : Except AccessError (Value t) :=
  if ht : t = 0 then do
    checkbounds a ind
    .ok ⟨[], ht.symm⟩
  else if hscalar : a.scalar = true then do
    let x ← p.getindex ind
    .ok ⟨x.bytes, x.length_bytes.trans (a.size_of_scalar hscalar).symm⟩
  else do
    checkbounds a ind
    let indStart := ind.first * t / s
    let sidx := ind.first * t % s
    if t % s = 0 then
      (List.range (t / s)).foldlM (fun tbuf i => do
        let x ← p.getindex (ind.withFirst (indStart + i))
        memcpy tbuf (i * s) x 0 s) tbuf
    else if s % t = 0 then do
      let x ← p.getindex (ind.withFirst indStart)
      unsafeLoad t x sidx
    else getLoop p ind indStart (t + 1) 0 0 sidx tbuf

-- The three parts of `_setindex_ra!` where neither size divides the other: the partial element at the start, the main
-- body of elements and the trailing partial element
def setStart (v : Value t) (ind : Index) (indStart sidx : ℕ) (sbuf : Value s) (p : Parent a) :
    Except AccessError (ℕ × ℕ × Value s × Parent a) :=
  if sidx ≠ 0 then do
    let sbuf ← p.getindex (ind.withFirst (indStart + 0))
    let nb := min (s - sidx) t
    let sbuf ← memcpy sbuf sidx v 0 nb
    let p ← p.setindex sbuf (ind.withFirst (indStart + 0))
    .ok (0 + 1, 0 + nb, sbuf, p)
  else .ok (0, 0, sbuf, p)

def setLoop (v : Value t) (ind : Index) (indStart : ℕ) :
    ℕ → ℕ → ℕ → Value s → Parent a → Except AccessError (ℕ × ℕ × Value s × Parent a)
  | 0, _, _, _, _ => .error .OutOfFuel
  | fuel + 1, i, nbytesCopied, sbuf, p =>
      if nbytesCopied < t ∧ t - nbytesCopied > s then do
        let nb := min s (t - nbytesCopied)
        let sbuf ← memcpy sbuf 0 v nbytesCopied nb
        let p ← p.setindex sbuf (ind.withFirst (indStart + i))
        setLoop v ind indStart fuel (i + 1) (nbytesCopied + nb) sbuf p
      else .ok (i, nbytesCopied, sbuf, p)

def setTrailing (v : Value t) (ind : Index) (indStart : ℕ) : ℕ × ℕ × Value s × Parent a → Except AccessError (Parent a)
  | (i, nbytesCopied, _, p) =>
      if nbytesCopied < t then do
        let sbuf ← p.getindex (ind.withFirst (indStart + i))
        let nb := min s (t - nbytesCopied)
        let sbuf ← memcpy sbuf 0 v nbytesCopied nb
        p.setindex sbuf (ind.withFirst (indStart + i))
      else .ok p

-- `_setindex_ra!`; `sbuf` is what the memory of the variable `s` holds before.
def setindexRa (p : Parent a) (sbuf : Value s) (v : Value t) (ind : Index) : Except AccessError (Parent a) :=
  if t = 0 then do
    checkbounds a ind
    .ok p
  else if hscalar : a.scalar = true then
    p.setindex ⟨v.bytes, v.length_bytes.trans (a.size_of_scalar hscalar)⟩ ind
  else do
    checkbounds a ind
    let indStart := ind.first * t / s
    let sidx := ind.first * t % s
    if t % s = 0 then
      (List.range (t / s)).foldlM (fun p i => do
        let x ← unsafeLoad s v (i * s)
        p.setindex x (ind.withFirst (indStart + i))) p
    else if s % t = 0 then do
      let x ← p.getindex (ind.withFirst indStart)
      let x ← memcpy x sidx v 0 t
      p.setindex x (ind.withFirst indStart)
    else do
      let (i, nbytesCopied, sbuf, p) ← setStart v ind indStart sidx sbuf p
      let state ← setLoop v ind indStart (t + 1) i nbytesCopied sbuf p
      setTrailing v ind indStart state

-- The bytes of the parent in memory
def Parent.memory (p : Parent a) : List UInt8 := (p.elements.map Value.bytes).flatten

-- The values in the first `n * s` bytes of a memory
def values (s : ℕ) : (n : ℕ) → (bytes : List UInt8) → bytes.length = n * s → List (Value s)
  | 0, _, _ => []
  | n + 1, bytes, h =>
      ⟨bytes.take s, by rw [List.length_take, h, Nat.succ_mul]; omega⟩ ::
        values s n (bytes.drop s) (by rw [List.length_drop, h, Nat.succ_mul, Nat.add_sub_cancel])

theorem length_values (s n : ℕ) (bytes : List UInt8) (h : bytes.length = n * s) : (values s n bytes h).length = n := by
  induction n generalizing bytes with
  | zero => rfl
  | succ n ih => rw [values, List.length_cons, ih]

-- `_getindex_ptr`
def getindexPtr (p : Parent a) (ind : Index) : Except AccessError (Value t) := do
  checkbounds a ind
  let li := toLinearIndex a ind
  if h : elsize a * li + t ≤ p.memory.length then .ok ⟨seg p.memory (elsize a * li) t, length_seg h⟩
  else .error .Outside

theorem length_row (l : List (Value s)) : ∀ r ∈ l.map Value.bytes, r.length = s := by
  intro r hr
  obtain ⟨x, -, rfl⟩ := List.mem_map.1 hr
  exact x.length_bytes

theorem Parent.length_memory (p : Parent a) : p.memory.length = a.rows * a.columns * s := by
  rw [Parent.memory, length_flatten_rows (length_row p.elements), List.length_map, p.length_elements]

-- The parent after a store of bytes into its memory
def Parent.store (p : Parent a) (lo : ℕ) (u : List UInt8) (h : lo + u.length ≤ p.memory.length) : Parent a :=
  ⟨values s (a.rows * a.columns) (overwrite p.memory lo u) ((length_overwrite h).trans p.length_memory),
    length_values _ _ _ _⟩

-- `_setindex_ptr!`
def setindexPtr (p : Parent a) (v : Value t) (ind : Index) : Except AccessError (Parent a) := do
  checkbounds a ind
  let li := toLinearIndex a ind
  if h : elsize a * li + v.bytes.length ≤ p.memory.length then .ok (p.store (elsize a * li) v.bytes h)
  else .error .Outside

def checkPtrIndexable (a : ReinterpretArray t s) : Bool := if t = s then false else a.pointer

-- The index that `getindex` and `setindex!` hand on
def resolve (a : ReinterpretArray t s) : Index → Index
  | .subscripts i j => .subscripts i j
  | .linear i => if a.linear then .linear i else toSubscriptIndices a i

def getindex (p : Parent a) (tbuf : Value t) (ind : Index) : Except AccessError (Value t) :=
  if checkPtrIndexable a then getindexPtr p ind else getindexRa p tbuf (resolve a ind)

-- `setindex!`
def setindex (p : Parent a) (sbuf : Value s) (v : Value t) (ind : Index) : Except AccessError (Parent a) :=
  if checkPtrIndexable a then setindexPtr p v ind else setindexRa p sbuf v (resolve a ind)

end Model

section Memory

variable {t s : ℕ} {a : ReinterpretArray t s} {p p' : Parent a} {lo n q : ℕ} {u : List UInt8}

theorem seg_memory {x : Value s} (hq : p.elements[q]? = some x) (hn : lo + n ≤ s) :
    seg p.memory (q * s + lo) n = seg x.bytes lo n :=
  seg_flatten (length_row p.elements) (by rw [List.getElem?_map, hq]; rfl) hn

theorem memory_set {x y : Value s} (hq : p.elements[q]? = some x) (hy : y.bytes = overwrite x.bytes lo u) (hn : lo + u.length ≤ s)
    (hlen : (p.elements.set q y).length = a.rows * a.columns) :
    (⟨p.elements.set q y, hlen⟩ : Parent a).memory = overwrite p.memory (q * s + lo) u := by
  have hrow : (p.elements.map Value.bytes)[q]? = some x.bytes := by rw [List.getElem?_map, hq]; rfl
  calc
    ((p.elements.set q y).map Value.bytes).flatten = ((p.elements.map Value.bytes).set q (overwrite x.bytes lo u)).flatten := by
      rw [List.map_set, hy]
    _ = overwrite p.memory (q * s + lo) u := flatten_set (length_row p.elements) hrow hn

theorem eq_of_flatten {l l' : List (Value s)} (hlen : l.length = l'.length)
    (h : (l.map Value.bytes).flatten = (l'.map Value.bytes).flatten) : l = l' := by
  induction l generalizing l' with
  | nil => exact (List.length_eq_zero_iff.1 hlen.symm).symm
  | cons x l ih =>
      cases l' with
      | nil => cases hlen
      | cons y l' =>
          obtain ⟨hxy, hrest⟩ := List.append_inj h (x.length_bytes.trans y.length_bytes.symm)
          obtain rfl : x = y := by
            cases x
            cases y
            cases hxy
            rfl
          rw [ih (Nat.succ.inj hlen) hrest]

-- The parent is known by its bytes.
theorem Parent.eq_of_memory (h : p.memory = p'.memory) : p = p' := by
  obtain ⟨l, hl⟩ := p
  obtain ⟨l', hl'⟩ := p'
  obtain rfl : l = l' := eq_of_flatten (hl.trans hl'.symm) h
  rfl

theorem flatten_values (s n : ℕ) (bytes : List UInt8) (h : bytes.length = n * s) :
    ((values s n bytes h).map Value.bytes).flatten = bytes := by
  induction n generalizing bytes with
  | zero => exact (List.length_eq_zero_iff.1 (h.trans (Nat.zero_mul s))).symm
  | succ n ih =>
      rw [values, List.map_cons, List.flatten_cons, ih]
      exact List.take_append_drop s bytes

theorem Parent.memory_store (h : lo + u.length ≤ p.memory.length) : (p.store lo u h).memory = overwrite p.memory lo u :=
  flatten_values _ _ _ _

end Memory

section Layout

variable {t s : ℕ} {a : ReinterpretArray t s} {p : Parent a} {ind : Index}

def Index.Within (a : ReinterpretArray t s) : Index → Prop
  | .subscripts i j => i < size1 a ∧ j < a.columns
  | .linear i => i < size1 a * a.columns

theorem checkbounds_eq (h : ind.Within a) : checkbounds a ind = .ok () := by
  cases ind with
  | subscripts i j => exact if_pos h
  | linear i => exact if_pos h

theorem size1_bytes (a : ReinterpretArray t s) : size1 a * t = a.rows * s := by
  rcases Nat.eq_zero_or_pos t with ht | ht
  · exact (Nat.mul_eq_zero.2 (.inr ht)).trans (Nat.mul_eq_zero.2 (.inr (a.size_of_singleton ht))).symm
  · rw [size1, if_neg (by omega), Nat.div_mul_cancel a.whole]

-- The elements that the first index of the parent runs through: where they begin, and their number
def Index.start (a : ReinterpretArray t s) : Index → ℕ
  | .subscripts _ j => a.rows * j
  | .linear _ => 0

def Index.extent (a : ReinterpretArray t s) : Index → ℕ
  | .subscripts _ _ => a.rows
  | .linear _ => a.rows * a.columns

theorem first_bytes (h : ind.Within a) : (ind.first + 1) * t ≤ ind.extent a * s := by
  cases ind with
  | subscripts i j =>
      calc
        (i + 1) * t ≤ size1 a * t := Nat.mul_le_mul_right t h.1
        _ = a.rows * s := size1_bytes a
  | linear i =>
      calc
        (i + 1) * t ≤ size1 a * a.columns * t := Nat.mul_le_mul_right t h
        _ = a.columns * (size1 a * t) := by ring
        _ = a.rows * a.columns * s := by rw [size1_bytes]; ring

theorem linear_bytes (a : ReinterpretArray t s) (ind : Index) : toLinearIndex a ind * t = ind.start a * s + ind.first * t := by
  cases ind with
  | subscripts i j =>
      calc
        (i + size1 a * j) * t = (size1 a * t) * j + i * t := by ring
        _ = a.rows * j * s + i * t := by rw [size1_bytes]; ring
  | linear i => exact (Nat.zero_add (i * t)).symm.trans (congrArg (· + i * t) (Nat.zero_mul s).symm)

theorem position_withFirst {r : ℕ} (h : ind.Within a) (hr : r < ind.extent a) :
    position a (ind.withFirst r) = .ok (ind.start a + r) ∧ ind.start a + r < a.rows * a.columns := by
  cases ind with
  | subscripts i j =>
      refine ⟨(if_pos ⟨hr, h.2⟩).trans (congrArg Except.ok (Nat.add_comm r (a.rows * j))), ?_⟩
      calc
        a.rows * j + r < a.rows * j + a.rows := Nat.add_lt_add_left hr _
        _ = a.rows * (j + 1) := (Nat.mul_succ a.rows j).symm
        _ ≤ a.rows * a.columns := Nat.mul_le_mul_left a.rows h.2
  | linear i => exact ⟨congrArg Except.ok (Nat.zero_add r).symm, (Nat.zero_add r).trans_lt hr⟩

-- The element of the parent with the byte `nb` of the view's element
theorem element_of_byte (r lo nb : ℕ) (h : ind.Within a) (hr : r * s + lo = ind.first * t + nb) (hnb : nb < t) :
    ∃ q, position a (ind.withFirst r) = .ok q ∧ q < a.rows * a.columns ∧ q * s + lo = toLinearIndex a ind * t + nb := by
  have hend := first_bytes h
  have hlt : r * s < ind.extent a * s := by
    have hsucc : (ind.first + 1) * t = ind.first * t + t := Nat.succ_mul _ _
    omega
  obtain ⟨hpos, hq⟩ := position_withFirst h (Nat.lt_of_mul_lt_mul_right hlt)
  refine ⟨_, hpos, hq, ?_⟩
  rw [linear_bytes, Nat.add_mul]
  omega

theorem getindex_of_position {q : ℕ} (hpos : position a ind = .ok q) (hq : q < a.rows * a.columns) :
    ∃ x, p.elements[q]? = some x ∧ p.getindex ind = .ok x := by
  have hlt : q < p.elements.length := hq.trans_eq p.length_elements.symm
  have hx : p.elements[q]? = some p.elements[q] := List.getElem?_eq_getElem hlt
  refine ⟨p.elements[q], hx, ?_⟩
  rw [Parent.getindex, hpos, ok_bind, hx]

theorem setindex_of_position {q : ℕ} (hpos : position a ind = .ok q) (hq : q < a.rows * a.columns) (y : Value s) :
    p.setindex y ind = .ok ⟨p.elements.set q y, List.length_set.trans p.length_elements⟩ := by
  rw [Parent.setindex, hpos, ok_bind, if_pos (hq.trans_eq p.length_elements.symm)]

-- The bytes of one column
def Parent.column (p : Parent a) (j : ℕ) : List UInt8 := ((seg p.elements (a.rows * j) a.rows).map Value.bytes).flatten

theorem column_eq (p : Parent a) (j : ℕ) : p.column j = seg p.memory (a.rows * j * s) (a.rows * s) := by
  have hmap : (seg p.elements (a.rows * j) a.rows).map Value.bytes = seg (p.elements.map Value.bytes) (a.rows * j) a.rows := by
    rw [seg, seg, List.map_take, List.map_drop]
  rw [Parent.column, hmap, flatten_seg (length_row p.elements), Parent.memory]

theorem column_fits (p : Parent a) {j : ℕ} (hj : j < a.columns) : a.rows * j * s + a.rows * s ≤ p.memory.length :=
  calc
    a.rows * j * s + a.rows * s = a.rows * (j + 1) * s := by ring
    _ ≤ a.rows * a.columns * s := Nat.mul_le_mul_right s (Nat.mul_le_mul_left a.rows hj)
    _ = p.memory.length := p.length_memory.symm

end Layout

section Reading

variable {t s : ℕ} {a : ReinterpretArray t s} {p : Parent a} {ind : Index} {r lo nb n : ℕ}

-- The first `nb` bytes of the view's element are copied.
def Copied (p : Parent a) (ind : Index) (buf : Value t) (nb : ℕ) : Prop :=
  seg buf.bytes 0 nb = seg p.memory (toLinearIndex a ind * t) nb

theorem Copied.zero (p : Parent a) (ind : Index) (buf : Value t) : Copied p ind buf 0 := (seg_zero _ _).trans (seg_zero _ _).symm

theorem Copied.bytes {buf : Value t} (h : Copied p ind buf t) : buf.bytes = seg p.memory (toLinearIndex a ind * t) t := by
  have hfull : seg buf.bytes 0 t = buf.bytes := (congrArg (seg buf.bytes 0) buf.length_bytes.symm).trans (seg_full buf.bytes)
  exact hfull.symm.trans h

-- One more piece is copied.
theorem Copied.step {buf : Value t} (h : Copied p ind buf nb) (r lo n : ℕ) (hwithin : ind.Within a) (hr : r * s + lo = ind.first * t + nb)
    (hnb : nb < t) (hn : lo + n ≤ s) (hnt : nb + n ≤ t) :
    ∃ x buf', p.getindex (ind.withFirst r) = .ok x ∧ memcpy buf nb x lo n = .ok buf' ∧ Copied p ind buf' (nb + n) := by
  obtain ⟨q, hpos, hq, hbyte⟩ := element_of_byte r lo nb hwithin hr hnb
  obtain ⟨x, hx, hget⟩ := getindex_of_position (p := p) hpos hq
  have hpiece : (seg x.bytes lo n).length = n := length_seg (hn.trans_eq x.length_bytes.symm)
  have hfit : nb + (seg x.bytes lo n).length ≤ buf.bytes.length := by rw [hpiece, buf.length_bytes]; exact hnt
  refine ⟨x, _, hget, dif_pos ⟨hnt, hn⟩, ?_⟩
  have hbefore : seg (overwrite buf.bytes nb (seg x.bytes lo n)) 0 nb = seg buf.bytes 0 nb :=
    (sameOutside_overwrite hfit).seg_eq (.inl (by omega))
  have hpieceAt : seg (overwrite buf.bytes nb (seg x.bytes lo n)) nb n = seg x.bytes lo n := by
    have hseg := seg_overwrite hfit
    rwa [hpiece] at hseg
  calc
    seg (overwrite buf.bytes nb (seg x.bytes lo n)) 0 (nb + n) =
        seg (overwrite buf.bytes nb (seg x.bytes lo n)) 0 nb ++ seg (overwrite buf.bytes nb (seg x.bytes lo n)) nb n := by
      rw [seg_add, Nat.zero_add]
    _ = seg p.memory (toLinearIndex a ind * t) nb ++ seg p.memory (q * s + lo) n := by
      rw [hbefore, hpieceAt, seg_memory hx hn, show seg buf.bytes 0 nb = _ from h]
    _ = seg p.memory (toLinearIndex a ind * t) (nb + n) := by rw [hbyte, ← seg_add]

theorem getLoop_spec (fuel i : ℕ) {sidx : ℕ} {buf : Value t} (h : Copied p ind buf nb) (hwithin : ind.Within a) (hs : 0 < s)
    (hr : nb < t → (r + i) * s + sidx = ind.first * t + nb) (hsidx : sidx < s) (hnt : nb ≤ t) (hfuel : t < nb + fuel) :
    ∃ buf', getLoop p ind r fuel i nb sidx buf = .ok buf' ∧ Copied p ind buf' t := by
  induction fuel generalizing i nb sidx buf with
  | zero => omega
  | succ fuel ih =>
      rw [getLoop]
      rcases Nat.lt_or_ge nb t with hlt | hge
      · have hstart := hr hlt
        obtain ⟨x, buf', hget, hcpy, hcopied⟩ := h.step (r + i) sidx (min (s - sidx) (t - nb)) hwithin hstart hlt (by omega) (by omega)
        rw [if_pos hlt, hget, ok_bind]
        dsimp only
        rw [hcpy, ok_bind]
        refine ih _ hcopied (fun hmore => ?_) hs (by omega) (by omega)
        -- the element ended before the view's element did
        have hmin : min (s - sidx) (t - nb) = s - sidx := by omega
        have hsucc : (r + (i + 1)) * s = (r + i) * s + s := Nat.succ_mul (r + i) s
        omega
      · obtain rfl : nb = t := by omega
        exact ⟨buf, by rw [if_neg (Nat.lt_irrefl _)], h⟩

theorem pos_of_within (h : ind.Within a) (ht : 0 < t) : 0 < s := by
  refine Nat.pos_of_ne_zero fun hs => ?_
  have hbytes := first_bytes h
  have hzero : ind.extent a * s = 0 := Nat.mul_eq_zero.2 (.inr hs)
  have hpos : 0 < (ind.first + 1) * t := Nat.mul_pos (Nat.succ_pos _) ht
  omega

theorem Index.withFirst_first (ind : Index) : ind.withFirst ind.first = ind := by cases ind <;> rfl

-- An element of the parent holds several elements of the view.
theorem room_of_mod {i : ℕ} (hs : 0 < s) (h : s % t = 0) : i * t % s + t ≤ s := by
  have hdvd : t ∣ i * t % s := (Nat.dvd_mod_iff (Nat.dvd_of_mod_eq_zero h)).2 (Nat.dvd_mul_left t i)
  obtain ⟨c, hc⟩ := hdvd
  obtain ⟨d, hd⟩ := Nat.dvd_of_mod_eq_zero h
  have hlt : t * c < t * d := by
    rw [← hc, ← hd]
    exact Nat.mod_lt _ hs
  calc
    i * t % s + t = t * (c + 1) := congrArg (· + t) hc
    _ ≤ t * d := Nat.mul_le_mul_left t (Nat.lt_of_mul_lt_mul_left hlt)
    _ = s := hd.symm

theorem start_bytes {i : ℕ} (h : t % s = 0) : i * t / s * s = i * t :=
  Nat.div_mul_cancel ((Nat.dvd_of_mod_eq_zero h).trans (Nat.dvd_mul_left t i))

theorem getindexRa_spec (hwithin : ind.Within a) (tbuf : Value t) :
    ∃ x, getindexRa p tbuf ind = .ok x ∧ x.bytes = seg p.memory (toLinearIndex a ind * t) t := by
  rw [getindexRa]
  by_cases ht : t = 0
  · rw [dif_pos ht, checkbounds_eq hwithin, ok_bind]
    exact ⟨_, rfl, ((congrArg (seg p.memory _) ht).trans (seg_zero _ _)).symm⟩
  have hs := pos_of_within hwithin (Nat.pos_of_ne_zero ht)
  rw [dif_neg ht]
  by_cases hscalar : a.scalar = true
  · have hts := a.size_of_scalar hscalar
    obtain ⟨q, hpos, hq, hbyte⟩ := element_of_byte ind.first 0 0 hwithin
      (congrArg (ind.first * ·) hts).symm (Nat.pos_of_ne_zero ht)
    rw [ind.withFirst_first] at hpos
    obtain ⟨x, hx, hget⟩ := getindex_of_position (p := p) hpos hq
    rw [dif_pos hscalar, hget, ok_bind]
    refine ⟨_, rfl, ?_⟩
    calc
      x.bytes = seg x.bytes 0 s := ((congrArg (seg x.bytes 0) x.length_bytes.symm).trans (seg_full x.bytes)).symm
      _ = seg p.memory (q * s + 0) s := (seg_memory hx (Nat.le_of_eq (Nat.zero_add s))).symm
      _ = seg p.memory (toLinearIndex a ind * t) t := congrArg₂ (seg p.memory) hbyte hts.symm
  rw [dif_neg hscalar, checkbounds_eq hwithin, ok_bind]
  dsimp only
  by_cases hmult : t % s = 0
  · have hstart := start_bytes (i := ind.first) hmult
    have hfull : t / s * s = t := Nat.div_mul_cancel (Nat.dvd_of_mod_eq_zero hmult)
    obtain ⟨buf, hloop, hcopied⟩ := foldlM_up (f := fun tbuf i => do
        let x ← p.getindex (ind.withFirst (ind.first * t / s + i))
        memcpy tbuf (i * s) x 0 s) (fun i buf => Copied p ind buf (i * s)) (Nat.zero_le (t / s))
      (show Copied p ind tbuf (0 * s) from (Nat.zero_mul s).symm ▸ Copied.zero p ind tbuf) fun i buf _ hi hcopied => by
        have hsucc : (i + 1) * s ≤ t / s * s := Nat.mul_le_mul_right s hi
        have hadd : (i + 1) * s = i * s + s := Nat.succ_mul i s
        obtain ⟨x, buf', hget, hcpy, hstep⟩ := hcopied.step (ind.first * t / s + i) 0 s hwithin
          (by rw [Nat.add_mul, hstart, Nat.add_zero]) (by omega) (by omega) (by omega)
        exact ⟨buf', by rw [hget, ok_bind, hcpy], hadd ▸ hstep⟩
    rw [if_pos hmult, List.range_eq_range']
    exact ⟨buf, hloop, ((congrArg (Copied p ind buf) hfull).mp hcopied).bytes⟩
  rw [if_neg hmult]
  have hdiv := Nat.div_add_mod' (ind.first * t) s
  by_cases hpart : s % t = 0
  · obtain ⟨q, hpos, hq, hbyte⟩ := element_of_byte _ _ 0 hwithin hdiv (Nat.pos_of_ne_zero ht)
    obtain ⟨x, hx, hget⟩ := getindex_of_position (p := p) hpos hq
    have hroom := room_of_mod (i := ind.first) hs hpart
    rw [if_pos hpart, hget, ok_bind, unsafeLoad, dif_pos hroom]
    exact ⟨_, rfl, (seg_memory hx hroom).symm.trans (congrArg (seg p.memory · t) hbyte)⟩
  · rw [if_neg hpart]
    obtain ⟨buf, hloop, hcopied⟩ := getLoop_spec (t + 1) 0 (.zero p ind tbuf) hwithin hs
      (fun _ => hdiv) (Nat.mod_lt _ hs) (Nat.zero_le t) (by omega)
    exact ⟨buf, hloop, hcopied.bytes⟩

end Reading

section Writing

variable {t s : ℕ} {a : ReinterpretArray t s} {p₀ p : Parent a} {ind : Index} {v : Value t} {r lo nb n : ℕ}

-- The first `nb` bytes of the view's element are written.
def Written (p₀ p : Parent a) (ind : Index) (v : Value t) (nb : ℕ) : Prop :=
  p.memory = overwrite p₀.memory (toLinearIndex a ind * t) (seg v.bytes 0 nb)

theorem Written.zero (p : Parent a) (ind : Index) (v : Value t) : Written p p ind v 0 :=
  ((congrArg (overwrite p.memory _) (seg_zero v.bytes 0)).trans (overwrite_nil _ _)).symm

theorem Value.seg_all (v : Value n) : seg v.bytes 0 n = v.bytes :=
  (congrArg (seg v.bytes 0) v.length_bytes.symm).trans (seg_full v.bytes)

theorem Value.length_seg (v : Value n) (h : lo + nb ≤ n) : (seg v.bytes lo nb).length = nb :=
  Segment.length_seg (h.trans_eq v.length_bytes.symm)

theorem Written.all (h : Written p₀ p ind v t) : p.memory = overwrite p₀.memory (toLinearIndex a ind * t) v.bytes :=
  h.trans (congrArg (overwrite p₀.memory _) v.seg_all)

-- One more piece is written: an element of the parent is stored where only the piece is changed.
theorem Written.step {y : Value s} (h : Written p₀ p ind v nb) (r lo n : ℕ) (hwithin : ind.Within a)
    (hr : r * s + lo = ind.first * t + nb) (hnb : nb < t) (hn : lo + n ≤ s) (hnt : nb + n ≤ t)
    (hy : ∀ x, p.getindex (ind.withFirst r) = .ok x → y.bytes = overwrite x.bytes lo (seg v.bytes nb n)) :
    ∃ p', p.setindex y (ind.withFirst r) = .ok p' ∧ Written p₀ p' ind v (nb + n) := by
  obtain ⟨q, hpos, hq, hbyte⟩ := element_of_byte r lo nb hwithin hr hnb
  obtain ⟨x, hx, hget⟩ := getindex_of_position (p := p) hpos hq
  have hdone : (seg v.bytes 0 nb).length = nb := v.length_seg (by omega)
  have hpiece : (seg v.bytes nb n).length = n := v.length_seg hnt
  have hend : q * s + s ≤ a.rows * a.columns * s := (Nat.succ_mul q s).symm.trans_le (Nat.mul_le_mul_right s hq)
  have hmem : p₀.memory.length = a.rows * a.columns * s := p₀.length_memory
  refine ⟨_, setindex_of_position hpos hq y, ?_⟩
  calc
    Parent.memory (⟨p.elements.set q y, _⟩ : Parent a) = overwrite p.memory (q * s + lo) (seg v.bytes nb n) :=
      memory_set hx (hy x hget) (by rw [hpiece]; exact hn) _
    _ = overwrite (overwrite p₀.memory (toLinearIndex a ind * t) (seg v.bytes 0 nb))
          (toLinearIndex a ind * t + (seg v.bytes 0 nb).length) (seg v.bytes nb n) := by
      rw [hbyte, hdone, show p.memory = _ from h]
    _ = overwrite p₀.memory (toLinearIndex a ind * t) (seg v.bytes 0 nb ++ seg v.bytes nb n) :=
      overwrite_overwrite (by omega)
    _ = overwrite p₀.memory (toLinearIndex a ind * t) (seg v.bytes 0 (nb + n)) := by rw [seg_add, Nat.zero_add]

-- An element of the parent is read, changed and stored.
theorem Written.update (h : Written p₀ p ind v nb) (r lo n : ℕ) (hwithin : ind.Within a) (hr : r * s + lo = ind.first * t + nb)
    (hnb : nb < t) (hn : lo + n ≤ s) (hnt : nb + n ≤ t) :
    ∃ x y p', p.getindex (ind.withFirst r) = .ok x ∧ memcpy x lo v nb n = .ok y ∧
      p.setindex y (ind.withFirst r) = .ok p' ∧ Written p₀ p' ind v (nb + n) := by
  obtain ⟨q, hpos, hq, -⟩ := element_of_byte r lo nb hwithin hr hnb
  obtain ⟨x, -, hget⟩ := getindex_of_position (p := p) hpos hq
  obtain ⟨y, hcpy, hbytes⟩ : ∃ y, memcpy x lo v nb n = .ok y ∧ y.bytes = overwrite x.bytes lo (seg v.bytes nb n) :=
    ⟨_, dif_pos ⟨hn, hnt⟩, rfl⟩
  obtain ⟨p', hset, hwritten⟩ := h.step (y := y) r lo n hwithin hr hnb hn hnt fun x' hx' => by
    obtain rfl : x = x' := Except.ok.inj (hget.symm.trans hx')
    exact hbytes
  exact ⟨x, y, p', hget, hcpy, hset, hwritten⟩

-- A whole element of the parent is stored.
theorem Written.replace {y : Value s} (h : Written p₀ p ind v nb) (r : ℕ) (hwithin : ind.Within a) (hr : r * s = ind.first * t + nb)
    (hnb : nb < t) (hnt : nb + s ≤ t) (hy : y.bytes = seg v.bytes nb s) :
    ∃ p', p.setindex y (ind.withFirst r) = .ok p' ∧ Written p₀ p' ind v (nb + s) := by
  refine h.step r 0 s hwithin ((Nat.add_zero _).trans hr) hnb (Nat.le_of_eq (Nat.zero_add s)) hnt fun x _ => ?_
  exact hy.trans (overwrite_full ((v.length_seg hnt).trans x.length_bytes.symm)).symm

theorem setStart_spec {sidx : ℕ} (sbuf : Value s) (hwithin : ind.Within a) (ht : 0 < t) (hr : r * s + sidx = ind.first * t)
    (hsidx : sidx < s) :
    ∃ i nb sbuf' p', setStart v ind r sidx sbuf p = .ok (i, nb, sbuf', p') ∧ Written p p' ind v nb ∧ nb ≤ t ∧
      (nb < t → (r + i) * s = ind.first * t + nb) := by
  rw [setStart]
  by_cases hzero : sidx = 0
  · rw [if_neg (not_not_intro hzero)]
    exact ⟨0, 0, sbuf, p, rfl, .zero p ind v, Nat.zero_le t, fun _ => by rw [Nat.add_zero]; omega⟩
  · obtain ⟨x, y, p', hget, hcpy, hset, hwritten⟩ := (Written.zero p ind v).update (r + 0) sidx (min (s - sidx) t) hwithin hr
      ht (by omega) (by omega)
    rw [if_pos hzero, hget, ok_bind]
    dsimp only
    rw [hcpy, ok_bind, hset, ok_bind]
    refine ⟨_, _, y, p', rfl, hwritten, by omega, fun hmore => ?_⟩
    have hsucc : (r + (0 + 1)) * s = r * s + s := Nat.succ_mul r s
    omega

theorem setLoop_spec (fuel i : ℕ) (sbuf : Value s) (h : Written p₀ p ind v nb) (hwithin : ind.Within a) (hs : 0 < s) (hnt : nb ≤ t)
    (hr : nb < t → (r + i) * s = ind.first * t + nb) (hfuel : t < nb + fuel) :
    ∃ i' nb' sbuf' p', setLoop v ind r fuel i nb sbuf p = .ok (i', nb', sbuf', p') ∧ Written p₀ p' ind v nb' ∧ nb' ≤ t ∧
      t ≤ nb' + s ∧ (nb' < t → (r + i') * s = ind.first * t + nb') := by
  induction fuel generalizing i nb sbuf p with
  | zero => omega
  | succ fuel ih =>
      rw [setLoop]
      by_cases hmore : nb < t ∧ t - nb > s
      · obtain ⟨hlt, hgt⟩ := hmore
        have hmin : min s (t - nb) = s := by omega
        obtain ⟨y, hcpy, hbytes⟩ : ∃ y, memcpy sbuf 0 v nb s = .ok y ∧ y.bytes = seg v.bytes nb s :=
          ⟨_, dif_pos ⟨by omega, by omega⟩, overwrite_full ((v.length_seg (by omega)).trans sbuf.length_bytes.symm)⟩
        obtain ⟨p', hset, hwritten⟩ := h.replace (r + i) hwithin (hr hlt) hlt (by omega) hbytes
        rw [if_pos ⟨hlt, hgt⟩]
        dsimp only
        rw [hmin, hcpy, ok_bind, hset, ok_bind]
        refine ih _ _ hwritten (by omega) (fun _ => ?_) (by omega)
        have hsucc : (r + (i + 1)) * s = (r + i) * s + s := Nat.succ_mul (r + i) s
        have hstart := hr hlt
        omega
      · exact ⟨i, nb, sbuf, p, if_neg hmore, h, hnt, by omega, hr⟩

theorem setTrailing_spec (i : ℕ) (sbuf : Value s) (h : Written p₀ p ind v nb) (hwithin : ind.Within a) (hnt : nb ≤ t)
    (hlast : t ≤ nb + s) (hr : nb < t → (r + i) * s = ind.first * t + nb) :
    ∃ p', setTrailing v ind r (i, nb, sbuf, p) = .ok p' ∧ Written p₀ p' ind v t := by
  rw [setTrailing]
  rcases Nat.lt_or_ge nb t with hlt | hge
  · obtain ⟨x, y, p', hget, hcpy, hset, hwritten⟩ := h.update (r + i) 0 (min s (t - nb)) hwithin (hr hlt) hlt
      (by omega) (by omega)
    have hend : nb + min s (t - nb) = t := by omega
    rw [if_pos hlt, hget, ok_bind]
    dsimp only
    rw [hcpy, ok_bind]
    exact ⟨p', hset, (congrArg (Written p₀ p' ind v) hend).mp hwritten⟩
  · obtain rfl : nb = t := by omega
    exact ⟨p, if_neg (Nat.lt_irrefl _), h⟩

theorem setindexRa_spec (hwithin : ind.Within a) (sbuf : Value s) (v : Value t) :
    ∃ p', setindexRa p sbuf v ind = .ok p' ∧ p'.memory = overwrite p.memory (toLinearIndex a ind * t) v.bytes := by
  rw [setindexRa]
  by_cases ht : t = 0
  · rw [if_pos ht, checkbounds_eq hwithin, ok_bind]
    have hnil : v.bytes = [] := List.length_eq_zero_iff.1 (v.length_bytes.trans ht)
    exact ⟨p, rfl, by rw [hnil, overwrite_nil]⟩
  have hs := pos_of_within hwithin (Nat.pos_of_ne_zero ht)
  rw [if_neg ht]
  by_cases hscalar : a.scalar = true
  · have hts := a.size_of_scalar hscalar
    obtain ⟨p', hset, hwritten⟩ := (Written.zero p ind v).replace
      (y := ⟨v.bytes, v.length_bytes.trans (a.size_of_scalar hscalar)⟩) ind.first hwithin (congrArg (ind.first * ·) hts).symm
      (Nat.pos_of_ne_zero ht) (by omega) ((congrArg (seg v.bytes 0) hts).symm.trans v.seg_all).symm
    rw [ind.withFirst_first] at hset
    rw [dif_pos hscalar]
    exact ⟨p', hset, Written.all ((congrArg (Written p p' ind v) (by omega)).mp hwritten)⟩
  rw [dif_neg hscalar, checkbounds_eq hwithin, ok_bind]
  dsimp only
  by_cases hmult : t % s = 0
  · have hstart := start_bytes (i := ind.first) hmult
    have hfull : t / s * s = t := Nat.div_mul_cancel (Nat.dvd_of_mod_eq_zero hmult)
    obtain ⟨p', hloop, hwritten⟩ := foldlM_up (f := fun p i => do
        let x ← unsafeLoad s v (i * s)
        p.setindex x (ind.withFirst (ind.first * t / s + i))) (fun i p' => Written p p' ind v (i * s)) (Nat.zero_le (t / s))
      ((congrArg (Written p p ind v) (Nat.zero_mul s)).mpr (.zero p ind v)) fun i p' _ hi hwritten => by
        have hsucc : (i + 1) * s ≤ t / s * s := Nat.mul_le_mul_right s hi
        have hadd : (i + 1) * s = i * s + s := Nat.succ_mul i s
        obtain ⟨y, hload, hbytes⟩ : ∃ y, unsafeLoad s v (i * s) = .ok y ∧ y.bytes = seg v.bytes (i * s) s :=
          ⟨_, dif_pos (by omega), rfl⟩
        obtain ⟨p'', hset, hstep⟩ := hwritten.replace (ind.first * t / s + i) hwithin (by rw [Nat.add_mul, hstart]) (by omega)
          (by omega) hbytes
        exact ⟨p'', by rw [hload, ok_bind, hset], (congrArg (Written p p'' ind v) hadd).mpr hstep⟩
    rw [if_pos hmult, List.range_eq_range']
    exact ⟨p', hloop, Written.all ((congrArg (Written p p' ind v) hfull).mp hwritten)⟩
  rw [if_neg hmult]
  have hdiv := Nat.div_add_mod' (ind.first * t) s
  by_cases hpart : s % t = 0
  · obtain ⟨x, y, p', hget, hcpy, hset, hwritten⟩ := (Written.zero p ind v).update _ _ t hwithin hdiv (Nat.pos_of_ne_zero ht)
      (room_of_mod hs hpart) (by omega)
    rw [if_pos hpart, hget, ok_bind, hcpy, ok_bind]
    exact ⟨p', hset, Written.all ((congrArg (Written p p' ind v) (Nat.zero_add t)).mp hwritten)⟩
  · obtain ⟨i, nb, sbuf', p₁, hstart, hwritten, hnt, hr⟩ := setStart_spec (p := p) (v := v) sbuf hwithin (Nat.pos_of_ne_zero ht) hdiv
      (Nat.mod_lt _ hs)
    obtain ⟨i', nb', sbuf'', p₂, hloop, hwritten', hnt', hlast, hr'⟩ := setLoop_spec (t + 1) i sbuf' hwritten hwithin
      hs hnt hr (by omega)
    obtain ⟨p₃, htrailing, hall⟩ := setTrailing_spec i' sbuf'' hwritten' hwithin hnt' hlast hr'
    rw [if_neg hpart, hstart, ok_bind]
    dsimp only
    rw [hloop, ok_bind]
    exact ⟨p₃, htrailing, hall.all⟩

end Writing

section Exact

variable {t s : ℕ} {a : ReinterpretArray t s} {p p' : Parent a} {ind : Index} {v : Value t} {i j : ℕ}

theorem elsize_eq (a : ReinterpretArray t s) : elsize a = t := by
  rw [elsize]
  split
  case isTrue hts => exact hts.symm
  case isFalse => rfl

theorem linear_fits (p : Parent a) (h : ind.Within a) : toLinearIndex a ind * t + t ≤ p.memory.length := by
  have hlt : toLinearIndex a ind < size1 a * a.columns := by
    cases ind with
    | subscripts i j =>
        calc
          i + size1 a * j < size1 a * j + size1 a := by
            rw [Nat.add_comm]
            exact Nat.add_lt_add_left h.1 _
          _ = size1 a * (j + 1) := (Nat.mul_succ _ _).symm
          _ ≤ size1 a * a.columns := Nat.mul_le_mul_left _ h.2
    | linear i => exact h
  calc
    toLinearIndex a ind * t + t = (toLinearIndex a ind + 1) * t := (Nat.succ_mul _ _).symm
    _ ≤ size1 a * a.columns * t := Nat.mul_le_mul_right t hlt
    _ = a.columns * (size1 a * t) := by ring
    _ = a.rows * a.columns * s := by rw [size1_bytes]; ring
    _ = p.memory.length := p.length_memory.symm

theorem getindexPtr_spec (p : Parent a) (h : ind.Within a) :
    ∃ x : Value t, getindexPtr p ind = .ok x ∧ x.bytes = seg p.memory (toLinearIndex a ind * t) t := by
  have hbyte : elsize a * toLinearIndex a ind = toLinearIndex a ind * t := by rw [elsize_eq, Nat.mul_comm]
  have hfits := linear_fits p h
  rw [getindexPtr, checkbounds_eq h, ok_bind]
  dsimp only
  rw [dif_pos (by omega)]
  exact ⟨_, rfl, congrArg (seg p.memory · t) hbyte⟩

theorem setindexPtr_spec (p : Parent a) (h : ind.Within a) (v : Value t) :
    ∃ p', setindexPtr p v ind = .ok p' ∧ p'.memory = overwrite p.memory (toLinearIndex a ind * t) v.bytes := by
  have hbyte : elsize a * toLinearIndex a ind = toLinearIndex a ind * t := by rw [elsize_eq, Nat.mul_comm]
  have hfits := linear_fits p h
  have hlen := v.length_bytes
  rw [setindexPtr, checkbounds_eq h, ok_bind]
  dsimp only
  rw [dif_pos (by omega)]
  exact ⟨_, rfl, (Parent.memory_store _).trans (congrArg (overwrite p.memory · v.bytes) hbyte)⟩

-- An index of the element `i` of column `j`
def Index.Names (a : ReinterpretArray t s) (ind : Index) (i j : ℕ) : Prop :=
  ind = .subscripts i j ∨ ind = .linear (i + size1 a * j)

theorem Index.Names.within (h : ind.Names a i j) (hi : i < size1 a) (hj : j < a.columns) : ind.Within a := by
  rcases h with rfl | rfl
  · exact ⟨hi, hj⟩
  · calc
      i + size1 a * j < size1 a + size1 a * j := Nat.add_lt_add_right hi _
      _ = size1 a * (j + 1) := (Nat.add_comm _ _).trans (Nat.mul_succ _ _).symm
      _ ≤ size1 a * a.columns := Nat.mul_le_mul_left _ hj

theorem Index.Names.linear (h : ind.Names a i j) : toLinearIndex a ind = i + size1 a * j := by
  rcases h with rfl | rfl <;> rfl

theorem Index.Names.resolve (h : ind.Names a i j) (hi : i < size1 a) : (resolve a ind).Names a i j := by
  rcases h with rfl | rfl
  · exact .inl rfl
  · rw [Reinterpret.resolve]
    by_cases hlinear : a.linear = true
    · exact .inr (if_pos hlinear)
    · refine .inl ((if_neg hlinear).trans ?_)
      have hmod : (i + size1 a * j) % size1 a = i := (Nat.add_mul_mod_self_left i _ j).trans (Nat.mod_eq_of_lt hi)
      have hdiv : (i + size1 a * j) / size1 a = j := by
        rw [Nat.add_mul_div_left _ _ (Nat.zero_lt_of_lt hi), Nat.div_eq_of_lt hi, Nat.zero_add]
      exact congrArg₂ Index.subscripts hmod hdiv

theorem bytes_in_column (a : ReinterpretArray t s) (i j : ℕ) (hi : i < size1 a) :
    a.rows * j * s + i * t = (i + size1 a * j) * t ∧ i * t + t ≤ a.rows * s := by
  constructor
  · exact (linear_bytes a (.subscripts i j)).symm
  · calc
      i * t + t = (i + 1) * t := (Nat.succ_mul i t).symm
      _ ≤ size1 a * t := Nat.mul_le_mul_right t hi
      _ = a.rows * s := size1_bytes a

theorem seg_column (p : Parent a) (hi : i < size1 a) : seg (p.column j) (i * t) t = seg p.memory ((i + size1 a * j) * t) t := by
  obtain ⟨hstart, hend⟩ := bytes_in_column a i j hi
  rw [column_eq, seg_seg hend, hstart]

theorem column_overwrite (hi : i < size1 a) (hj : j < a.columns)
    (h : p'.memory = overwrite p.memory ((i + size1 a * j) * t) v.bytes) :
    p'.column j = overwrite (p.column j) (i * t) v.bytes ∧ ∀ j', j' ≠ j → p'.column j' = p.column j' := by
  obtain ⟨hstart, hend⟩ := bytes_in_column a i j hi
  have hlen := v.length_bytes
  have hfits := column_fits p hj
  constructor
  · rw [column_eq, column_eq, h, ← hstart]
    exact seg_overwrite_inside hfits (by omega)
  · intro j' hne
    rw [column_eq, column_eq, h]
    refine (sameOutside_overwrite (by omega)).seg_eq ?_
    rcases Nat.lt_or_gt_of_ne hne with hlt | hgt
    · refine .inl ?_
      calc
        a.rows * j' * s + a.rows * s = a.rows * (j' + 1) * s := by ring
        _ ≤ a.rows * j * s := Nat.mul_le_mul_right s (Nat.mul_le_mul_left a.rows hlt)
        _ ≤ (i + size1 a * j) * t := by omega
    · refine .inr ?_
      calc
        (i + size1 a * j) * t + v.bytes.length ≤ a.rows * j * s + a.rows * s := by omega
        _ = a.rows * (j + 1) * s := by ring
        _ ≤ a.rows * j' * s := Nat.mul_le_mul_right s (Nat.mul_le_mul_left a.rows hgt)

-- Every way to read the element gives its bytes of the column, and every way to write it changes just these bytes.
theorem reinterpret_exact {t s : ℕ} (a : ReinterpretArray t s) (p : Parent a) {i j : ℕ} (hi : i < size1 a) (hj : j < a.columns) :
    (∃ x : Value t, x.bytes = seg (p.column j) (i * t) t ∧ ∀ ind : Index, ind.Names a i j → ∀ tbuf : Value t,
      getindexRa p tbuf ind = .ok x ∧ getindexPtr p ind = .ok x ∧ getindex p tbuf ind = .ok x) ∧
    ∀ v : Value t, ∃ p' : Parent a, p'.column j = overwrite (p.column j) (i * t) v.bytes ∧
      (∀ j', j' ≠ j → p'.column j' = p.column j') ∧ ∀ ind : Index, ind.Names a i j → ∀ sbuf : Value s,
        setindexRa p sbuf v ind = .ok p' ∧ setindexPtr p v ind = .ok p' ∧ setindex p sbuf v ind = .ok p' := by
  constructor
  · obtain ⟨x, -, hx⟩ := getindexPtr_spec p (show (Index.subscripts i j).Within a from ⟨hi, hj⟩)
    have hra : ∀ ind : Index, ind.Names a i j → ∀ tbuf : Value t, getindexRa p tbuf ind = .ok x := fun ind hind tbuf => by
      obtain ⟨y, hget, hy⟩ := getindexRa_spec (p := p) (hind.within hi hj) tbuf
      rw [hget, Value.ext (hy.trans ((congrArg (fun k => seg p.memory (k * t) t) hind.linear).trans hx.symm))]
    have hptr : ∀ ind : Index, ind.Names a i j → getindexPtr p ind = .ok x := fun ind hind => by
      obtain ⟨y, hget, hy⟩ := getindexPtr_spec p (hind.within hi hj)
      rw [hget, Value.ext (hy.trans ((congrArg (fun k => seg p.memory (k * t) t) hind.linear).trans hx.symm))]
    refine ⟨x, hx.trans (seg_column p hi).symm, fun ind hind tbuf => ⟨hra ind hind tbuf, hptr ind hind, ?_⟩⟩
    rw [getindex]
    split
    case isTrue => exact hptr ind hind
    case isFalse => exact hra _ (hind.resolve hi) tbuf
  · intro v
    obtain ⟨p', -, hmem⟩ := setindexPtr_spec p (show (Index.subscripts i j).Within a from ⟨hi, hj⟩) v
    obtain ⟨hcolumn, hothers⟩ := column_overwrite hi hj hmem
    have hra : ∀ ind : Index, ind.Names a i j → ∀ sbuf : Value s, setindexRa p sbuf v ind = .ok p' := fun ind hind sbuf => by
      obtain ⟨p'', hset, hp''⟩ := setindexRa_spec (p := p) (hind.within hi hj) sbuf v
      rw [hset, Parent.eq_of_memory
        (hp''.trans ((congrArg (fun k => overwrite p.memory (k * t) v.bytes) hind.linear).trans hmem.symm))]
    have hptr : ∀ ind : Index, ind.Names a i j → setindexPtr p v ind = .ok p' := fun ind hind => by
      obtain ⟨p'', hset, hp''⟩ := setindexPtr_spec p (hind.within hi hj) v
      rw [hset, Parent.eq_of_memory
        (hp''.trans ((congrArg (fun k => overwrite p.memory (k * t) v.bytes) hind.linear).trans hmem.symm))]
    refine ⟨p', hcolumn, hothers, fun ind hind sbuf => ⟨hra ind hind sbuf, hptr ind hind, ?_⟩⟩
    rw [setindex]
    split
    case isTrue => exact hptr ind hind
    case isFalse => exact hra _ (hind.resolve hi) sbuf

-- An element of three bytes that begins and ends inside of elements of two bytes
theorem reinterpret_exact_straddling : ∃ (a : ReinterpretArray 3 2) (p : Parent a), 1 < size1 a ∧ 1 < a.columns ∧
    ∃ x : Value 3, x.bytes = [9, 10, 11] ∧ getindexRa p ⟨[0, 0, 0], rfl⟩ (.subscripts 1 1) = .ok x := by
  let a : ReinterpretArray 3 2 := ⟨3, 2, false, false, false, by decide, by decide, by decide⟩
  let p : Parent a :=
    ⟨[⟨[0, 1], rfl⟩, ⟨[2, 3], rfl⟩, ⟨[4, 5], rfl⟩, ⟨[6, 7], rfl⟩, ⟨[8, 9], rfl⟩, ⟨[10, 11], rfl⟩], rfl⟩
  have hi : 1 < size1 a := by decide
  have hj : 1 < a.columns := by decide
  obtain ⟨x, hx, hget⟩ := (reinterpret_exact a p hi hj).1
  exact ⟨a, p, hi, hj, x, hx.trans (by decide), (hget _ (.inl rfl) _).1⟩

end Exact

end Joolia.Reinterpret
