import Joolia.Base.Strings
import Joolia.Library.Fallible

namespace Joolia.Strings

-- The number of continuation bytes that a leading byte asks for.
def need (b : Byte) : ℕ :=
  if b.toNat < 0xc0 then 0 else if b.toNat < 0xe0 then 1 else if b.toNat < 0xf0 then 2 else if b.toNat < 0xf8 then 3 else 0

def byteAt (data : List Byte) (i : ℕ) : Byte := data.getD i 0

theorem isContinuation_iff (b : Byte) : isContinuation b = true ↔ 0x80 ≤ b.toNat ∧ b.toNat < 0xc0 := by
  revert b
  decide

theorem need_of_isContinuation {b : Byte} (h : isContinuation b = true) : need b = 0 := by
  rw [isContinuation_iff] at h
  simp [need, h.2]

theorem need_le (b : Byte) : need b ≤ 3 := by
  unfold need
  split_ifs <;> omega

-- The character that starts at `k` takes the byte at `i` as one of its continuation bytes.
structure Covers (data : List Byte) (k i : ℕ) : Prop where
  lt : k < i
  inBounds : i < data.length
  le_need : i ≤ k + need (byteAt data k)
  continuation : ∀ j, k < j → j ≤ i → isContinuation (byteAt data j) = true

section Covers

variable {data : List Byte} {k k' i e : ℕ}

theorem Covers.mono (h : Covers data k i) (hk : k < k') (hi : k' ≤ i) : Covers data k k' :=
  ⟨hk, lt_of_le_of_lt hi h.inBounds, hi.trans h.le_need, fun j hj hji => h.continuation j hj (hji.trans hi)⟩

theorem Covers.need_pos (h : Covers data k i) : 0 < need (byteAt data k) := by
  have := h.lt
  have := h.le_need
  omega

-- A covered byte is a continuation byte, so it covers nothing itself.
theorem Covers.not_covers (h : Covers data k i) (i' : ℕ) : ¬Covers data i i' := by
  intro h'
  have := h'.need_pos
  rw [need_of_isContinuation (h.continuation i h.lt le_rfl)] at this
  omega

theorem Covers.unique (h : Covers data k i) (h' : Covers data k' i) : k = k' := by
  rcases Nat.lt_trichotomy k k' with hlt | heq | hlt
  · exact absurd h' ((h.mono hlt h'.lt.le).not_covers i)
  · exact heq
  · exact absurd h ((h'.mono hlt h.lt.le).not_covers i)

theorem covers_succ (hk : k < i) :
    Covers data k (i + 1) ↔ Covers data k i ∧ i + 1 < data.length ∧ i + 1 ≤ k + need (byteAt data k) ∧
      isContinuation (byteAt data (i + 1)) = true := by
  constructor
  · intro h
    exact ⟨h.mono hk (Nat.le_succ i), h.inBounds, h.le_need, h.continuation _ h.lt le_rfl⟩
  · rintro ⟨h, hlen, hneed, hcont⟩
    refine ⟨h.lt.trans (Nat.lt_succ_self i), hlen, hneed, fun j hj hji => ?_⟩
    rcases Nat.le_succ_iff.1 hji with hle | rfl
    · exact h.continuation j hj hle
    · exact hcont

theorem covers_one :
    Covers data k (k + 1) ↔ k + 1 < data.length ∧ 1 ≤ need (byteAt data k) ∧ isContinuation (byteAt data (k + 1)) = true := by
  constructor
  · intro h
    exact ⟨h.inBounds, h.need_pos, h.continuation _ h.lt le_rfl⟩
  · rintro ⟨hlen, hneed, hcont⟩
    refine ⟨Nat.lt_succ_self k, hlen, by omega, fun j hj hji => ?_⟩
    obtain rfl : j = k + 1 := by omega
    exact hcont

theorem covers_two :
    Covers data k (k + 2) ↔ k + 2 < data.length ∧ 2 ≤ need (byteAt data k) ∧ isContinuation (byteAt data (k + 1)) = true ∧
      isContinuation (byteAt data (k + 2)) = true := by
  rw [covers_succ (Nat.lt_succ_self k), covers_one]
  constructor
  · rintro ⟨⟨-, -, h1⟩, hlen, hneed, h2⟩
    exact ⟨hlen, by omega, h1, h2⟩
  · rintro ⟨hlen, hneed, h1, h2⟩
    exact ⟨⟨by omega, by omega, h1⟩, hlen, by omega, h2⟩

theorem covers_three :
    Covers data k (k + 3) ↔ k + 3 < data.length ∧ 3 ≤ need (byteAt data k) ∧ isContinuation (byteAt data (k + 1)) = true ∧
      isContinuation (byteAt data (k + 2)) = true ∧ isContinuation (byteAt data (k + 3)) = true := by
  rw [covers_succ (show k < k + 2 by omega), covers_two]
  constructor
  · rintro ⟨⟨-, -, h1, h2⟩, hlen, hneed, h3⟩
    exact ⟨hlen, by omega, h1, h2, h3⟩
  · rintro ⟨hlen, hneed, h1, h2, h3⟩
    exact ⟨⟨by omega, by omega, h1, h2⟩, hlen, by omega, h3⟩

theorem Covers.le_three (h : Covers data k i) : i ≤ k + 3 :=
  h.le_need.trans (Nat.add_le_add_left (need_le _) k)

-- The bytes from `k` up to `e` are those a decoder that starts at `k` takes.
structure Spans (data : List Byte) (k e : ℕ) : Prop where
  lt : k < e
  le : e ≤ data.length
  covers : ∀ i, k < i → i < e → Covers data k i
  stops : ¬Covers data k e

theorem Spans.unique {e' : ℕ} (h : Spans data k e) (h' : Spans data k e') : e = e' := by
  rcases Nat.lt_trichotomy e e' with hlt | heq | hlt
  · exact absurd (h'.covers e h.lt hlt) h.stops
  · exact heq
  · exact absurd (h.covers e' h'.lt hlt) h'.stops

theorem Spans.of_last (hlast : Covers data k i) (hstops : ¬Covers data k (i + 1)) : Spans data k (i + 1) :=
  ⟨hlast.lt.trans (Nat.lt_succ_self i), hlast.inBounds, fun _ hk hi => hlast.mono hk (Nat.lt_succ_iff.1 hi), hstops⟩

theorem Spans.single (hk : k < data.length) (hstops : ¬Covers data k (k + 1)) : Spans data k (k + 1) :=
  ⟨Nat.lt_succ_self k, hk, fun _ hk hi => by omega, hstops⟩

theorem Spans.of_need_eq_zero (hk : k < data.length) (hneed : need (byteAt data k) = 0) : Spans data k (k + 1) :=
  .single hk fun h => by have := h.need_pos; omega

-- No character before `k` takes the byte at `k`.
def IsStart (data : List Byte) (k : ℕ) : Prop := k < data.length ∧ ∀ j, ¬Covers data j k

-- A block of the partition: it starts a character and ends where that one does.
structure IsBlock (data : List Byte) (k e : ℕ) : Prop where
  start : IsStart data k
  spans : Spans data k e

theorem Spans.covers_iff (h : Spans data k e) : Covers data k i ↔ k < i ∧ i < e := by
  constructor
  · intro hi
    refine ⟨hi.lt, ?_⟩
    by_contra hle
    exact h.stops (hi.mono h.lt (by omega))
  · rintro ⟨hk, hi⟩
    exact h.covers i hk hi

-- Within a block only its first byte is a start.
theorem IsBlock.covers_iff (h : IsBlock data k e) (hk : k ≤ i) (hi : i < e) {j : ℕ} : Covers data j i ↔ j = k ∧ k < i := by
  rcases Nat.eq_or_lt_of_le hk with rfl | hlt
  · simp [h.start.2 j]
  · have hki := h.spans.covers i hlt hi
    constructor
    · intro hj
      exact ⟨hj.unique hki, hlt⟩
    · rintro ⟨rfl, -⟩
      exact hki

theorem IsBlock.isStart_iff (h : IsBlock data k e) (hk : k ≤ i) (hi : i < e) : IsStart data i ↔ i = k := by
  constructor
  · intro hs
    by_contra hne
    exact hs.2 k ((h.covers_iff hk hi).2 ⟨rfl, by omega⟩)
  · rintro rfl
    exact h.start

-- The block after a block.
theorem IsBlock.isStart_stop (h : IsBlock data k e) (he : e < data.length) : IsStart data e := by
  refine ⟨he, fun j hj => ?_⟩
  rcases Nat.lt_trichotomy j k with hlt | rfl | hlt
  · exact h.start.2 j (hj.mono hlt h.spans.lt.le)
  · exact h.spans.stops hj
  · exact (h.spans.covers j hlt hj.lt).not_covers e hj

theorem isStart_zero (h : 0 < data.length) : IsStart data 0 := ⟨h, fun _ hj => absurd hj.lt (by omega)⟩

end Covers

end Joolia.Strings

namespace Joolia.Strings

-- `_UTF8DFAState`: the shift at which the rows of the table hold the next state.
abbrev DFAState := BitVec 32

def stateShifts : List ℕ := [0, 4, 10, 14, 18, 24, 8, 20, 12, 26]

def characterClasses : List ℕ :=
  [0, 0, 0, 0, 0, 0, 0, 0, 0, 0, 0, 0, 0, 0, 0, 0,
   0, 0, 0, 0, 0, 0, 0, 0, 0, 0, 0, 0, 0, 0, 0, 0,
   0, 0, 0, 0, 0, 0, 0, 0, 0, 0, 0, 0, 0, 0, 0, 0,
   0, 0, 0, 0, 0, 0, 0, 0, 0, 0, 0, 0, 0, 0, 0, 0,
   0, 0, 0, 0, 0, 0, 0, 0, 0, 0, 0, 0, 0, 0, 0, 0,
   0, 0, 0, 0, 0, 0, 0, 0, 0, 0, 0, 0, 0, 0, 0, 0,
   0, 0, 0, 0, 0, 0, 0, 0, 0, 0, 0, 0, 0, 0, 0, 0,
   0, 0, 0, 0, 0, 0, 0, 0, 0, 0, 0, 0, 0, 0, 0, 0,
   1, 1, 1, 1, 1, 1, 1, 1, 1, 1, 1, 1, 1, 1, 1, 1,
   9, 9, 9, 9, 9, 9, 9, 9, 9, 9, 9, 9, 9, 9, 9, 9,
   7, 7, 7, 7, 7, 7, 7, 7, 7, 7, 7, 7, 7, 7, 7, 7,
   7, 7, 7, 7, 7, 7, 7, 7, 7, 7, 7, 7, 7, 7, 7, 7,
   8, 8, 2, 2, 2, 2, 2, 2, 2, 2, 2, 2, 2, 2, 2, 2,
   2, 2, 2, 2, 2, 2, 2, 2, 2, 2, 2, 2, 2, 2, 2, 2,
   10, 3, 3, 3, 3, 3, 3, 3, 3, 3, 3, 3, 3, 4, 3, 3,
   11, 6, 6, 6, 5, 8, 8, 8, 8, 8, 8, 8, 8, 8, 8, 8]

def stateArrays : List (List ℕ) :=
  [[0, 1, 2, 2, 2, 2, 2, 2, 2, 2],
   [2, 2, 2, 1, 3, 2, 3, 2, 4, 4],
   [3, 3, 2, 2, 2, 2, 2, 2, 2, 2],
   [4, 4, 2, 2, 2, 2, 2, 2, 2, 2],
   [6, 6, 2, 2, 2, 2, 2, 2, 2, 2],
   [9, 9, 2, 2, 2, 2, 2, 2, 2, 2],
   [8, 8, 2, 2, 2, 2, 2, 2, 2, 2],
   [2, 2, 2, 1, 3, 3, 2, 4, 4, 2],
   [2, 2, 2, 2, 2, 2, 2, 2, 2, 2],
   [2, 2, 2, 1, 3, 2, 3, 4, 4, 2],
   [5, 5, 2, 2, 2, 2, 2, 2, 2, 2],
   [7, 7, 2, 2, 2, 2, 2, 2, 2, 2]]

-- The row of a class holds the shift of the next state at the shift of the current one.
def classRow (i : ℕ) : DFAState :=
  (List.range 10).foldl (fun row j =>
    let toShift : BitVec 8 := BitVec.ofNat 8 (stateShifts.getD ((stateArrays.getD i []).getD j 0) 0)
    row ||| toShift.zeroExtend 32 <<< stateShifts.getD j 0) 0

-- `_UTF8_DFA_TABLE`
def dfaTable : List DFAState := characterClasses.map classRow

def dfaAccept : DFAState := 4
def dfaInvalid : DFAState := 10

-- `_utf_dfa_step`
def dfaStep (state : DFAState) (byte : Byte) : DFAState :=
  dfaTable.getD byte.toNat 0 >>> state &&& 0x1e

-- `@inbounds bytes[i]`; a byte outside the vector is not defined.
def inbounds (bytes : List Byte) (i : ℤ) : Option Byte := if 0 ≤ i then bytes[i.toNat]? else none

-- `for n = first:last`, with one byte read in each pass.
def sweep {σ : Type} (f : σ → Byte → σ) (bytes : List Byte) (first last : ℤ) (s : σ) : Option σ :=
  (List.range (last + 1 - first).toNat).foldlM (fun s (k : ℕ) => do
    let b ← inbounds bytes (first + k)
    return f s b) s

-- `_isvalid_utf8_dfa`
def isvalidUtf8Dfa (state : DFAState) (bytes : List Byte) (first last : ℤ) : Option DFAState :=
  sweep dfaStep bytes first last state

-- basic.jl: `_isascii`
def isasciiChunk (bytes : List Byte) (first last : ℤ) : Option Bool := do
  let r ← sweep (fun r b => r ||| b) bytes first last 0
  return 0 ≤ r ∧ r < 0x80

-- The loop of `_find_nonascii_chunk`, with a pass of `fuel` for each of its passes. The inner
-- `none` is `nothing`.
def findNonasciiLoop (chunkSize : ℤ) (cu : List Byte) (last : ℤ) : ℕ → ℤ → Option (Option ℤ)
  | 0, _ => none
  | fuel + 1, n => do
      if n ≤ last - chunkSize then
        if ¬(← isasciiChunk cu n (n + chunkSize - 1)) then return some n
        findNonasciiLoop chunkSize cu last fuel (n + chunkSize)
      else
        let n := last - chunkSize + 1
        if ¬(← isasciiChunk cu n last) then return some n
        return none

def findNonasciiChunk (chunkSize : ℤ) (cu : List Byte) (first last : ℤ) : Option (Option ℤ) :=
  findNonasciiLoop chunkSize cu last (cu.length + 1) first

-- The inner loop of `_byte_string_classify_nonascii`: `start` and `stop` behind the ASCII chunks.
def skipAscii (chunkSize : ℤ) (bytes : List Byte) (last : ℤ) : ℕ → ℤ → ℤ → Option (ℤ × ℤ)
  | 0, _, _ => none
  | fuel + 1, start, stop => do
      if ¬(← isasciiChunk bytes start stop) then return (start, stop)
      let start := start + chunkSize
      if ¬(start ≤ last) then return (start, stop)
      skipAscii chunkSize bytes last fuel start (min last (stop + chunkSize))

-- `while state == _UTF8_DFA_ACCEPT`
def asciiChunks (chunkSize : ℤ) (bytes : List Byte) (last : ℤ) (fuel : ℕ) (start stop : ℤ) (state : DFAState) :
    Option (ℤ × ℤ) :=
  if state = dfaAccept then skipAscii chunkSize bytes last fuel start stop else some (start, stop)

-- The outer loop, with its final `ifelse`.
def classifyLoop (chunkSize : ℤ) (bytes : List Byte) (last : ℤ) : ℕ → ℤ → ℤ → DFAState → Option ℤ
  | 0, _, _, _ => none
  | fuel + 1, start, stop, state => do
      if ¬(start ≤ last) then return if state = dfaAccept then 2 else 0
      -- try to process ascii chunks
      let (start, stop) ← asciiChunks chunkSize bytes last fuel start stop state
      -- process non ascii chunk
      let state ← isvalidUtf8Dfa state bytes start stop
      if state = dfaInvalid then return 0
      classifyLoop chunkSize bytes last fuel (start + chunkSize) (min last (stop + chunkSize)) state

def byteStringClassifyNonascii (bytes : List Byte) (first last : ℤ) : Option ℤ :=
  let chunkSize := 256
  classifyLoop chunkSize bytes last (bytes.length + 2) first (min last (first + chunkSize - 1)) dfaAccept

-- 0: neither valid ASCII nor UTF-8, 1: valid ASCII, 2: valid UTF-8
def byteStringClassify (bytes : List Byte) : Option ℤ := do
  let chunkSize : ℤ := 1024
  let chunkThreshold := chunkSize + chunkSize / 2
  let n : ℤ := bytes.length
  let last := n - 1
  if n > chunkThreshold then
    match ← findNonasciiChunk chunkSize bytes 0 last with
    | none => return 1
    | some start => byteStringClassifyNonascii bytes start last
  else
    if ← isasciiChunk bytes 0 last then return 1
    byteStringClassifyNonascii bytes 0 last

end Joolia.Strings

namespace Joolia.Strings

open Fallible

-- The byte classes that the index functions test, by the number of bytes asked for.
theorem between_iff (b lo hi : Byte) : between b lo hi = true ↔ lo.toNat ≤ b.toNat ∧ b.toNat ≤ hi.toNat := by
  simp [between, BitVec.le_def]

theorem between_two_bytes (b : Byte) : between b 0b11000000 0b11110111 = true ↔ 1 ≤ need b := by
  rw [between_iff]
  unfold need
  split_ifs <;> simp <;> omega

theorem between_three_bytes (b : Byte) : between b 0b11100000 0b11110111 = true ↔ 2 ≤ need b := by
  rw [between_iff]
  unfold need
  split_ifs <;> simp <;> omega

theorem between_four_bytes (b : Byte) : between b 0b11110000 0b11110111 = true ↔ 3 ≤ need b := by
  rw [between_iff]
  unfold need
  split_ifs <;> simp <;> omega

theorem between_long (b : Byte) : between b 0x80 0xf7 = true ↔ isContinuation b = true ∨ 1 ≤ need b := by
  rw [between_iff, isContinuation_iff]
  unfold need
  split_ifs <;> simp <;> omega

theorem lt_lead {b : Byte} : b < 0xc0 ∧ between b 0x80 0xf7 = true ↔ isContinuation b = true := by
  rw [between_iff, isContinuation_iff, BitVec.lt_def]
  simp
  omega

section Index

variable {s : Str} {i k e : ℕ}

theorem codeunit_eq {z : ℤ} (hz : z = (k : ℤ)) (hk : k < s.data.length) : codeunit s z = .ok (byteAt s.data k) := by
  subst hz
  simp [codeunit, ncodeunits, byteAt, hk]

theorem not_covers_of_not_isContinuation (h : ¬isContinuation (byteAt s.data i) = true) (j : ℕ) : ¬Covers s.data j i :=
  fun hj => h (hj.continuation i hj.lt le_rfl)

-- `k` is the start of the character that the byte at `i` belongs to.
def StartOf (data : List Byte) (k i : ℕ) : Prop := Covers data k i ∨ k = i ∧ ∀ j, ¬Covers data j i

theorem thisindContinued_spec (hi : i < s.data.length) (h0 : 0 < i) (hcont : isContinuation (byteAt s.data i) = true) :
    ∃ k : ℕ, thisindContinued s i = .ok (k : ℤ) ∧ StartOf s.data k i := by
  obtain ⟨i, rfl⟩ := Nat.exists_eq_add_one_of_ne_zero h0.ne'
  simp only [thisindContinued, codeunit_eq (s := s) (k := i) (z := ((i + 1 : ℕ) : ℤ) - 1) (by omega) (by omega), ok_bind,
    between_two_bytes, pure_eq_ok]
  by_cases h1 : 1 ≤ need (byteAt s.data i)
  · exact ⟨i, by simp [h1], .inl (covers_one.2 ⟨hi, h1, hcont⟩)⟩
  have hnot1 : ∀ j, Covers s.data j (i + 1) → j + 1 ≤ i := by
    intro j hj
    have hlt := hj.lt
    by_contra hle
    obtain rfl : j = i := by omega
    exact h1 hj.need_pos
  simp only [if_neg h1]
  -- A character that starts earlier takes the byte before as well.
  by_cases hc1 : isContinuation (byteAt s.data i) = true ∧ ((i + 1 : ℕ) : ℤ) - 2 ≥ 0
  swap
  · refine ⟨i + 1, by simp only [if_pos hc1], .inr ⟨rfl, fun j hj => hc1 ?_⟩⟩
    have hle := hnot1 j hj
    exact ⟨hj.continuation i (by omega) (by omega), by omega⟩
  obtain ⟨i, rfl⟩ := Nat.exists_eq_add_one_of_ne_zero (n := i) (by omega)
  simp only [if_neg (not_not.2 hc1), ok_bind, between_three_bytes,
    codeunit_eq (s := s) (k := i) (z := ((i + 1 + 1 : ℕ) : ℤ) - 2) (by omega) (by omega)]
  by_cases h2 : 2 ≤ need (byteAt s.data i)
  · exact ⟨i, by simp only [if_pos h2]; congr; omega, .inl (covers_two.2 ⟨hi, h2, hc1.1, hcont⟩)⟩
  have hnot2 : ∀ j, Covers s.data j (i + 1 + 1) → j + 1 ≤ i := by
    intro j hj
    have hle := hnot1 j hj
    by_contra hle'
    obtain rfl : j = i := by omega
    exact h2 (covers_two.1 hj).2.1
  simp only [if_neg h2]
  by_cases hc2 : isContinuation (byteAt s.data i) = true ∧ ((i + 1 + 1 : ℕ) : ℤ) - 3 ≥ 0
  swap
  · refine ⟨i + 1 + 1, by simp only [if_pos hc2], .inr ⟨rfl, fun j hj => hc2 ?_⟩⟩
    have hle := hnot2 j hj
    exact ⟨hj.continuation i (by omega) (by omega), by omega⟩
  obtain ⟨i, rfl⟩ := Nat.exists_eq_add_one_of_ne_zero (n := i) (by omega)
  simp only [if_neg (not_not.2 hc2), ok_bind, between_four_bytes,
    codeunit_eq (s := s) (k := i) (z := ((i + 1 + 1 + 1 : ℕ) : ℤ) - 3) (by omega) (by omega)]
  by_cases h3 : 3 ≤ need (byteAt s.data i)
  · exact ⟨i, by simp only [if_pos h3]; congr; omega, .inl (covers_three.2 ⟨hi, h3, hc2.1, hc1.1, hcont⟩)⟩
  · refine ⟨i + 1 + 1 + 1, by simp only [if_neg h3], .inr ⟨rfl, fun j hj => h3 ?_⟩⟩
    have hle := hnot2 j hj
    have hthree := hj.le_three
    obtain rfl : j = i := by omega
    exact (covers_three.1 hj).2.1

-- One specification for every index in bounds.
theorem thisind_spec (hi : i < s.data.length) : ∃ k : ℕ, thisind s i = .ok (k : ℤ) ∧ StartOf s.data k i := by
  have hread := codeunit_eq (s := s) (k := i) rfl hi
  simp only [thisind, hread, ok_bind, pure_eq_ok, ncodeunits, if_neg (show ¬(i : ℤ) = -1 by omega),
    if_neg (show ¬(i : ℤ) = s.data.length by omega),
    if_neg (not_not.2 (show 0 ≤ (i : ℤ) ∧ (i : ℤ) ≤ s.data.length - 1 by omega))]
  by_cases hc : isContinuation (byteAt s.data i) = true ∧ (i : ℤ) - 1 ≥ 0
  · simp only [if_neg (not_not.2 hc)]
    exact thisindContinued_spec hi (by omega) hc.1
  · refine ⟨i, by simp only [if_pos hc], .inr ⟨rfl, fun j hj => hc ?_⟩⟩
    have hlt := hj.lt
    exact ⟨hj.continuation i hlt le_rfl, by omega⟩

theorem IsBlock.thisind_eq (h : IsBlock s.data k e) (hk : k ≤ i) (hi : i < e) : thisind s i = .ok (k : ℤ) := by
  obtain ⟨k', hk', hstart⟩ := thisind_spec (hi.trans_le h.spans.le)
  rcases hstart with hcov | ⟨rfl, hnot⟩
  · rw [hk', ((h.covers_iff hk hi).1 hcov).1]
  · rw [hk', (h.isStart_iff hk hi).1 ⟨hi.trans_le h.spans.le, hnot⟩]

end Index

end Joolia.Strings
