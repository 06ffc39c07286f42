import Joolia.Base.Strings.Blocks
import Joolia.Library.Segment

namespace Joolia.Strings

open Segment

-- A range of bytes, both ends included.
abbrev Bytes := Byte × Byte

def Bytes.Has (r : Bytes) (b : Byte) : Prop := r.1.toNat ≤ b.toNat ∧ b.toNat ≤ r.2.toNat

instance (r : Bytes) (b : Byte) : Decidable (r.Has b) := inferInstanceAs (Decidable (_ ∧ _))

def AllAscii (l : List Byte) : Prop := ∀ b ∈ l, b.toNat < 0x80

instance (l : List Byte) : Decidable (AllAscii l) := inferInstanceAs (Decidable (∀ b ∈ l, b.toNat < 0x80))

@[simp] theorem allAscii_nil : AllAscii [] := List.forall_mem_nil _

@[simp] theorem allAscii_cons {b : Byte} {l : List Byte} : AllAscii (b :: l) ↔ b.toNat < 0x80 ∧ AllAscii l :=
  List.forall_mem_cons

@[simp] theorem allAscii_append {l l' : List Byte} : AllAscii (l ++ l') ↔ AllAscii l ∧ AllAscii l' :=
  List.forall_mem_append

def trailing : Bytes := (0x80, 0xbf)

-- The well-formed byte sequences of one character: the rows of the Unicode table 3-7.
def wellFormedRows : List (List Bytes) :=
  [[(0x00, 0x7f)],
   [(0xc2, 0xdf), trailing],
   [(0xe0, 0xe0), (0xa0, 0xbf), trailing],
   [(0xe1, 0xec), trailing, trailing],
   [(0xed, 0xed), (0x80, 0x9f), trailing],
   [(0xee, 0xef), trailing, trailing],
   [(0xf0, 0xf0), (0x90, 0xbf), trailing, trailing],
   [(0xf1, 0xf3), trailing, trailing, trailing],
   [(0xf4, 0xf4), (0x80, 0x8f), trailing, trailing]]

def Matches (row : List Bytes) (l : List Byte) : Prop := List.Forall₂ Bytes.Has row l

inductive WellFormed : List Byte → Prop
  | nil : WellFormed []
  | append {row : List Bytes} {l rest : List Byte} (hrow : row ∈ wellFormedRows) (hl : Matches row l)
      (hrest : WellFormed rest) : WellFormed (l ++ rest)

-- The states of the automaton, but the invalid one, by what has to follow.
def pending : List (List Bytes × DFAState) :=
  [([], dfaAccept),
   ([trailing], 14),
   ([trailing, trailing], 18),
   ([(0xa0, 0xbf), trailing], 24),
   ([(0x80, 0x9f), trailing], 8),
   ([(0x90, 0xbf), trailing, trailing], 20),
   ([trailing, trailing, trailing], 12),
   ([(0x80, 0x8f), trailing, trailing], 26)]

-- What completes the character that was begun, and well-formed characters behind it.
def Completes (row : List Bytes) (l : List Byte) : Prop :=
  ∃ first rest, l = first ++ rest ∧ Matches row first ∧ WellFormed rest

section Automaton

variable {row : List Bytes} {q : DFAState} {b : Byte} {l : List Byte}

def InHead (row : List Bytes) (b : Byte) : Prop :=
  match row with
  | [] => False
  | r :: _ => r.Has b

instance : ∀ row b, Decidable (InHead row b)
  | [], _ => inferInstanceAs (Decidable False)
  | r :: _, b => inferInstanceAs (Decidable (r.Has b))

-- The class of a byte, by its number.
def byteClass (n : ℕ) : ℕ :=
  if n < 0x80 then 0 else if n < 0x90 then 1 else if n < 0xa0 then 9 else if n < 0xc0 then 7
  else if n < 0xc2 then 8 else if n < 0xe0 then 2 else if n = 0xe0 then 10 else if n = 0xed then 4
  else if n < 0xf0 then 3 else if n = 0xf0 then 11 else if n < 0xf4 then 6 else if n = 0xf4 then 5 else 8

-- The classes of the ranges that lead a row; both ranges of class 3 leave out a part of it.
def leadClasses : List (Bytes × List ℕ) :=
  [((0x00, 0x7f), [0]), ((0xc2, 0xdf), [2]), ((0xe0, 0xe0), [10]), ((0xe1, 0xec), [3]), ((0xed, 0xed), [4]),
   ((0xee, 0xef), [3]), ((0xf0, 0xf0), [11]), ((0xf1, 0xf3), [6]), ((0xf4, 0xf4), [5])]

-- The other ranges are unions of classes.
def tailClasses : List (Bytes × List ℕ) :=
  [(trailing, [1, 9, 7]), ((0xa0, 0xbf), [7]), ((0x80, 0x9f), [1, 9]), ((0x90, 0xbf), [9, 7]), ((0x80, 0x8f), [1])]

def headClasses : List Bytes → List ℕ
  | [] => []
  | r :: _ => ((leadClasses ++ tailClasses).lookup r).getD []

def stepClass (q : DFAState) (c : ℕ) : DFAState := classRow c >>> q &&& 0x1e

-- What the classes are, checked at every byte.
theorem byteClass_table : characterClasses = (List.range 256).map byteClass ∧ (∀ n < 256, byteClass n < 12) ∧
    (∀ e ∈ leadClasses ++ tailClasses, ∀ k < e.1.2.toNat + 1 - e.1.1.toNat, byteClass (e.1.1.toNat + k) ∈ e.2) ∧
    (∀ e ∈ tailClasses, ∀ n < 256, byteClass n ∈ e.2 → e.1.1.toNat ≤ n ∧ n ≤ e.1.2.toNat) ∧
    ∀ n < 256, byteClass n ∈ [1, 9, 7, 8] ∨ ∃ e ∈ leadClasses, e.1.1.toNat ≤ n ∧ n ≤ e.1.2.toNat := by
  decide +kernel

theorem byteClass_lt (b : Byte) : byteClass b.toNat < 12 := byteClass_table.2.1 b.toNat b.isLt

theorem dfaStep_eq (q : DFAState) (b : Byte) : dfaStep q b = stepClass q (byteClass b.toNat) := by
  have hb : (List.range 256)[b.toNat]? = some b.toNat := List.getElem?_range b.isLt
  rw [dfaStep, dfaTable, byteClass_table.1, List.getD_eq_getElem?_getD, List.getElem?_map, List.getElem?_map, hb]
  rfl

theorem mem_of_inHead (hrow : row ∈ wellFormedRows ++ pending.map Prod.fst) (hb : InHead row b) :
    byteClass b.toNat ∈ headClasses row := by
  have hhead : ∀ row ∈ wellFormedRows ++ pending.map Prod.fst,
      row.head?.all (fun r => decide ((r, headClasses row) ∈ leadClasses ++ tailClasses)) = true := by decide
  cases row with
  | nil => exact hb.elim
  | cons r row =>
      obtain ⟨hlo, hhi⟩ : r.1.toNat ≤ b.toNat ∧ b.toNat ≤ r.2.toNat := hb
      have hmem := byteClass_table.2.2.1 _ (of_decide_eq_true (hhead _ hrow)) (b.toNat - r.1.toNat) (by dsimp only; omega)
      rwa [Nat.add_sub_cancel' hlo] at hmem

theorem inHead_of_mem (h : (row, q) ∈ pending) (hc : byteClass b.toNat ∈ headClasses row) : InHead row b := by
  have hhead : ∀ e ∈ pending, e.1.head?.all (fun r => decide ((r, headClasses e.1) ∈ tailClasses)) = true := by decide
  cases row with
  | nil => exact absurd hc List.not_mem_nil
  | cons r row => exact byteClass_table.2.2.2.1 _ (of_decide_eq_true (hhead _ h)) b.toNat b.isLt hc

-- The bytes that lead no row: the trailing ones and those that occur in no row.
theorem no_lead (hb : ∀ row ∈ wellFormedRows, ¬InHead row b) : byteClass b.toNat ∈ [1, 9, 7, 8] := by
  have hrow : ∀ e ∈ leadClasses, ∃ row ∈ wellFormedRows, row.head? = some e.1 := by decide
  rcases byteClass_table.2.2.2.2 b.toNat b.isLt with hc | ⟨e, he, hin⟩
  · exact hc
  · obtain ⟨row, hmem, hhead⟩ := hrow e he
    obtain ⟨rest, rfl⟩ := List.head?_eq_some_iff.1 hhead
    exact absurd hin (hb _ hmem)

theorem dfaStep_lead (hrow : row ∈ wellFormedRows) (hb : InHead row b) : (row.tail, dfaStep dfaAccept b) ∈ pending := by
  have hall : ∀ row ∈ wellFormedRows, ∀ c ∈ headClasses row, (row.tail, stepClass dfaAccept c) ∈ pending := by
    decide
  rw [dfaStep_eq]
  exact hall row hrow _ (mem_of_inHead (List.mem_append_left _ hrow) hb)

theorem dfaStep_no_lead (hb : ∀ row ∈ wellFormedRows, ¬InHead row b) : dfaStep dfaAccept b = dfaInvalid := by
  have hall : ∀ c ∈ [1, 9, 7, 8], stepClass dfaAccept c = dfaInvalid := by decide
  rw [dfaStep_eq]
  exact hall _ (no_lead hb)

theorem dfaStep_next (h : (row, q) ∈ pending) (hb : InHead row b) : (row.tail, dfaStep q b) ∈ pending := by
  have hall : ∀ e ∈ pending, ∀ c ∈ headClasses e.1, (e.1.tail, stepClass e.2 c) ∈ pending := by decide
  rw [dfaStep_eq]
  exact hall _ h _ (mem_of_inHead (List.mem_append_right _ (List.mem_map_of_mem h)) hb)

theorem dfaStep_refused (h : (row, q) ∈ pending) (hne : row ≠ []) (hb : ¬InHead row b) : dfaStep q b = dfaInvalid := by
  have hall : ∀ e ∈ pending, e.1 ≠ [] → ∀ c < 12, c ∉ headClasses e.1 → stepClass e.2 c = dfaInvalid := by
    decide
  rw [dfaStep_eq]
  exact hall _ h hne _ (byteClass_lt _) (mt (inHead_of_mem h) hb)

theorem dfaStep_invalid (b : Byte) : dfaStep dfaInvalid b = dfaInvalid := by
  have hall : ∀ c < 12, stepClass dfaInvalid c = dfaInvalid := by decide
  rw [dfaStep_eq]
  exact hall _ (byteClass_lt _)

theorem dfaStep_ascii (hb : b.toNat < 0x80) : dfaStep dfaAccept b = dfaAccept := by
  rw [dfaStep_eq, byteClass, if_pos hb]
  decide

theorem pending_accept (h : (row, q) ∈ pending) : q = dfaAccept ↔ row = [] := by
  have hall : ∀ e ∈ pending, e.2 = dfaAccept ↔ e.1 = [] := by decide
  exact hall _ h

theorem foldl_invalid (l : List Byte) : l.foldl dfaStep dfaInvalid = dfaInvalid := by
  induction l with
  | nil => rfl
  | cons b l ih => rw [List.foldl_cons, dfaStep_invalid, ih]

theorem foldl_ascii (h : AllAscii l) : l.foldl dfaStep dfaAccept = dfaAccept := by
  induction l with
  | nil => rfl
  | cons b l ih =>
      obtain ⟨hb, hl⟩ := allAscii_cons.1 h
      rw [List.foldl_cons, dfaStep_ascii hb, ih hl]

theorem completes_nil : Completes row [] ↔ row = [] := by
  constructor
  · rintro ⟨first, rest, hl, hfirst, _⟩
    obtain ⟨rfl, rfl⟩ := List.append_eq_nil_iff.1 hl.symm
    cases hfirst
    exact .refl _
  · rintro rfl
    exact ⟨[], [], .refl _, .nil, .nil⟩

theorem completes_cons {r : Bytes} : Completes (r :: row) (b :: l) ↔ r.Has b ∧ Completes row l := by
  constructor
  · rintro ⟨first, rest, hl, hfirst, hrest⟩
    cases hfirst with
    | cons hb hfirst =>
        obtain ⟨rfl, rfl⟩ := List.cons.inj hl
        exact ⟨hb, _, rest, .refl _, hfirst, hrest⟩
  · rintro ⟨hb, first, rest, rfl, hfirst, hrest⟩
    exact ⟨b :: first, rest, .refl _, .cons hb hfirst, hrest⟩

theorem completes_empty : Completes [] l ↔ WellFormed l := by
  constructor
  · rintro ⟨first, rest, rfl, hfirst, hrest⟩
    cases hfirst
    exact hrest
  · exact fun h => ⟨[], l, .refl _, .nil, h⟩

-- A well-formed sequence, by its first byte.
theorem wellFormed_cons : WellFormed (b :: l) ↔ ∃ row ∈ wellFormedRows, InHead row b ∧ Completes row.tail l := by
  constructor
  · intro h
    generalize hbl : b :: l = bytes at h
    cases h with
    | nil => cases hbl
    | append hrow hl hrest =>
        cases hl with
        | nil => exact absurd hrow (by decide)
        | cons hb hl =>
            obtain ⟨rfl, rfl⟩ := List.cons.inj hbl
            exact ⟨_, hrow, hb, _, _, .refl _, hl, hrest⟩
  · rintro ⟨row, hrow, hb, first, rest, rfl, hfirst, hrest⟩
    cases row with
    | nil => exact hb.elim
    | cons r row => exact .append (l := b :: first) hrow (.cons hb hfirst) hrest

-- The automaton accepts what completes the character it is in. The induction is on the bytes.
theorem foldl_dfaStep_iff (h : (row, q) ∈ pending) : l.foldl dfaStep q = dfaAccept ↔ Completes row l := by
  induction l generalizing row q with
  | nil => exact (pending_accept h).trans completes_nil.symm
  | cons b l ih =>
      rw [List.foldl_cons]
      cases row with
      | nil =>
          obtain rfl := (pending_accept h).2 rfl
          rw [completes_empty, wellFormed_cons]
          constructor
          · intro hl
            by_contra hno
            have hlead : ∀ row ∈ wellFormedRows, ¬InHead row b := fun row hrow hb =>
              hno ⟨row, hrow, hb, (ih (dfaStep_lead hrow hb)).1 hl⟩
            rw [dfaStep_no_lead hlead, foldl_invalid] at hl
            exact absurd hl (by decide)
          · rintro ⟨row, hrow, hb, hl⟩
            exact (ih (dfaStep_lead hrow hb)).2 hl
      | cons r row =>
          rw [completes_cons]
          by_cases hb : r.Has b
          · rw [ih (dfaStep_next h hb)]
            exact (and_iff_right hb).symm
          · rw [dfaStep_refused h (List.cons_ne_nil r row) hb, foldl_invalid]
            exact iff_of_false (by decide) fun hr => hb hr.1

theorem foldl_accept_iff : l.foldl dfaStep dfaAccept = dfaAccept ↔ WellFormed l :=
  (foldl_dfaStep_iff (by decide)).trans completes_empty

end Automaton

section Chunks

variable {σ : Type} {bytes : List Byte} {a n : ℕ} {last : ℤ}

theorem sweep_eq (f : σ → Byte → σ) (s : σ) (hlast : last + 1 = a + n) (hn : a + n ≤ bytes.length) :
    sweep f bytes a last s = some ((seg bytes a n).foldl f s) := by
  have hcount : (last + 1 - a).toNat = n := by omega
  rw [sweep, hcount]
  clear hcount hlast
  induction n with
  | zero => rfl
  | succ n ih =>
      have hread : inbounds bytes ((a : ℤ) + n) = some bytes[a + n] := by
        rw [inbounds, if_pos (by omega), show ((a : ℤ) + n).toNat = a + n by omega]
        exact List.getElem?_eq_getElem (by omega)
      rw [List.range_succ, List.foldlM_append, ih (by omega), seg_succ (by omega), List.foldl_append]
      simp [hread]

-- A range that ends before it starts.
theorem sweep_empty (f : σ → Byte → σ) {first : ℤ} (s : σ) (h : last < first) : sweep f bytes first last s = some s := by
  rw [sweep, show (last + 1 - first).toNat = 0 by omega]
  rfl

theorem or_lt {x y : Byte} : x ||| y < 0x80 ↔ x < 0x80 ∧ y < 0x80 := by
  have hmsb : ∀ z : Byte, z < 0x80 ↔ z.msb = false := fun z => by
    rw [BitVec.msb_eq_decide, BitVec.lt_def]
    simp
  rw [hmsb, hmsb, hmsb, BitVec.msb_or, Bool.or_eq_false_iff]

theorem foldl_or_lt (l : List Byte) (r : Byte) :
    l.foldl (fun r b => r ||| b) r < 0x80 ↔ r < 0x80 ∧ AllAscii l := by
  induction l generalizing r with
  | nil => simp
  | cons b l ih =>
      rw [List.foldl_cons, ih, or_lt, allAscii_cons, and_assoc]
      exact Iff.rfl

theorem isasciiChunk_eq (hlast : last + 1 = a + n) (hn : a + n ≤ bytes.length) :
    isasciiChunk bytes a last = some (decide (AllAscii (seg bytes a n))) := by
  have hiff := foldl_or_lt (seg bytes a n) 0
  rw [isasciiChunk, sweep_eq _ _ hlast hn]
  simp only [Option.bind_eq_bind, Option.bind_some, Option.pure_def, Option.some.injEq, decide_eq_decide]
  exact ⟨fun h => (hiff.1 h.2).2, fun h => ⟨Nat.zero_le _, hiff.2 ⟨by decide, h⟩⟩⟩

theorem foldl_drop {α : Type} (f : σ → α → σ) (v : List α) (a c : ℕ) (s : σ) :
    (v.drop a).foldl f s = (v.drop (a + c)).foldl f ((seg v a c).foldl f s) := by
  rw [← List.foldl_append, seg, ← List.drop_drop, List.take_append_drop]

theorem seg_of_le {v : List Byte} (h : v.length ≤ a) (c : ℕ) : seg v a c = [] := by
  rw [seg, List.drop_of_length_le h, List.take_nil]

-- The chunk at `a`, or what is left of it.
theorem seg_min {v : List Byte} (a c : ℕ) : seg v a (min (v.length - a) c) = seg v a c := by
  rw [seg, seg, List.take_eq_take_iff, List.length_drop]
  omega

variable {c : ℕ}

theorem sweep_chunk (f : σ → Byte → σ) (s : σ) (ha : a < bytes.length) :
    sweep f bytes a (min (bytes.length - 1) (a + c - 1)) s = some ((seg bytes a c).foldl f s) := by
  rw [← seg_min]
  apply sweep_eq <;> omega

theorem isasciiChunk_chunk (ha : a < bytes.length) :
    isasciiChunk bytes a (min (bytes.length - 1) (a + c - 1)) =
      some (decide (AllAscii (seg bytes a c))) := by
  rw [← seg_min]
  apply isasciiChunk_eq <;> omega

-- Where the next chunk of the loop ends.
def Ends (bytes : List Byte) (c a : ℕ) (stop : ℤ) : Prop :=
  (a < bytes.length → stop = min ((bytes.length : ℤ) - 1) ((a : ℤ) + c - 1)) ∧ (bytes.length ≤ a → stop < a)

theorem Ends.next {stop : ℤ} (h : Ends bytes c a stop) : Ends bytes c (a + c) (min ((bytes.length : ℤ) - 1) (stop + c)) := by
  constructor
  · intro hlt
    have hstop := h.1 (by omega)
    omega
  · intro hle
    omega

-- The skipped chunks leave the automaton in the accepting state.
theorem skipAscii_spec (hc : 0 < c) {fuel : ℕ} {stop : ℤ} (ha : a < bytes.length) (hfuel : bytes.length - a ≤ fuel)
    (hstop : Ends bytes c a stop) :
    ∃ (a' : ℕ) (stop' : ℤ), skipAscii c bytes (bytes.length - 1) fuel a stop = some ((a' : ℤ), stop') ∧ a ≤ a' ∧
      Ends bytes c a' stop' ∧ (bytes.drop a).foldl dfaStep dfaAccept = (bytes.drop a').foldl dfaStep dfaAccept := by
  induction fuel generalizing a stop with
  | zero => omega
  | succ fuel ih =>
      have hread := isasciiChunk_chunk (c := c) ha
      rw [← hstop.1 ha] at hread
      rw [skipAscii, hread]
      by_cases hascii : AllAscii (seg bytes a c)
      · have hskip : (bytes.drop a).foldl dfaStep dfaAccept = (bytes.drop (a + c)).foldl dfaStep dfaAccept := by
          rw [foldl_drop dfaStep bytes a c, foldl_ascii hascii]
        by_cases hle : (a : ℤ) + c ≤ bytes.length - 1
        · obtain ⟨a', stop', hrun, hle', hstop', hfold⟩ := ih (a := a + c) (by omega) (by omega) hstop.next
          refine ⟨a', stop', ?_, by omega, hstop', hskip.trans hfold⟩
          simpa [hascii, hle] using hrun
        · refine ⟨a + c, stop, ?_, by omega, ⟨by omega, fun _ => ?_⟩, hskip⟩
          · simp [hascii, hle]
          · have hend := hstop.1 ha
            omega
      · exact ⟨a, stop, by simp [hascii], le_refl a, hstop, .refl _⟩

theorem asciiChunks_spec (hc : 0 < c) (fuel : ℕ) {stop : ℤ} (q : DFAState) (ha : a < bytes.length)
    (hfuel : bytes.length - a ≤ fuel) (hstop : Ends bytes c a stop) :
    ∃ (a' : ℕ) (stop' : ℤ), asciiChunks c bytes (bytes.length - 1) fuel a stop q = some ((a' : ℤ), stop') ∧ a ≤ a' ∧
      Ends bytes c a' stop' ∧ (bytes.drop a).foldl dfaStep q = (bytes.drop a').foldl dfaStep q := by
  by_cases hq : q = dfaAccept
  · subst hq
    rw [asciiChunks, if_pos (.refl _)]
    exact skipAscii_spec hc ha hfuel hstop
  · exact ⟨a, stop, if_neg hq, le_refl a, hstop, .refl _⟩

theorem isvalidUtf8Dfa_chunk {stop : ℤ} (q : DFAState) (hstop : Ends bytes c a stop) :
    isvalidUtf8Dfa q bytes a stop = some ((seg bytes a c).foldl dfaStep q) := by
  rcases Nat.lt_or_ge a bytes.length with ha | ha
  · rw [isvalidUtf8Dfa, hstop.1 ha]
    exact sweep_chunk dfaStep q ha
  · rw [isvalidUtf8Dfa, seg_of_le ha]
    exact sweep_empty dfaStep q (hstop.2 ha)

-- The loop runs the automaton over the bytes from its chunk on. The induction is on the passes.
theorem classifyLoop_spec (hc : 0 < c) (fuel : ℕ) {stop : ℤ} (q : DFAState) (hfuel : bytes.length - a + 1 ≤ fuel)
    (hstop : Ends bytes c a stop) :
    classifyLoop c bytes (bytes.length - 1) fuel a stop q =
      some (if (bytes.drop a).foldl dfaStep q = dfaAccept then 2 else 0) := by
  induction fuel generalizing a stop q with
  | zero => omega
  | succ fuel ih =>
      rw [classifyLoop]
      rcases Nat.lt_or_ge a bytes.length with ha | ha
      · obtain ⟨a', stop', hrun, hle, hstop', hfold⟩ := asciiChunks_spec hc fuel q ha (by omega) hstop
        have hnext := ih (a := a' + c) ((seg bytes a' c).foldl dfaStep q) (by omega) hstop'.next
        have hlt : (a : ℤ) ≤ bytes.length - 1 := by omega
        rw [hfold, foldl_drop dfaStep bytes a' c]
        simp only [hlt, not_true, if_false, hrun, isvalidUtf8Dfa_chunk q hstop', Option.bind_eq_bind, Option.bind_some]
        by_cases hinvalid : (seg bytes a' c).foldl dfaStep q = dfaInvalid
        · rw [if_pos hinvalid, hinvalid, foldl_invalid, if_neg (by decide)]
          rfl
        · rw [if_neg hinvalid]
          exact_mod_cast hnext
      · rw [List.drop_of_length_le ha, if_pos (by omega)]
        rfl

-- The bytes in front of the chunk that is returned are ASCII.
theorem findNonasciiLoop_spec (hc : 0 < c) (hle : c ≤ bytes.length) (fuel : ℕ) (ha : a ≤ bytes.length)
    (hfuel : bytes.length - a + 1 ≤ fuel) (hascii : AllAscii (bytes.take a)) :
    (findNonasciiLoop c bytes (bytes.length - 1) fuel a = some none ∧ AllAscii bytes) ∨
      ∃ a' : ℕ, findNonasciiLoop c bytes (bytes.length - 1) fuel a = some (some (a' : ℤ)) ∧ a' ≤ bytes.length ∧
        AllAscii (bytes.take a') ∧ ¬AllAscii bytes := by
  induction fuel generalizing a with
  | zero => omega
  | succ fuel ih =>
      rw [findNonasciiLoop]
      by_cases hin : (a : ℤ) ≤ bytes.length - 1 - c
      · have hread : isasciiChunk bytes a (a + c - 1) = some (decide (AllAscii (seg bytes a c))) := by
          apply isasciiChunk_eq <;> omega
        rw [if_pos hin, hread]
        by_cases hchunk : AllAscii (seg bytes a c)
        · have htake : AllAscii (bytes.take (a + c)) := by
            rw [List.take_add]
            exact allAscii_append.2 ⟨hascii, hchunk⟩
          simpa [hchunk] using ih (a := a + c) (by omega) (by omega) htake
        · refine .inr ⟨a, by simp [hchunk], by omega, hascii, fun hall => hchunk fun b hb => ?_⟩
          exact hall b (List.mem_of_mem_drop (List.mem_of_mem_take hb))
      · have hlast : ((bytes.length : ℤ) - 1 - c + 1) = ((bytes.length - c : ℕ) : ℤ) := by omega
        have hread : isasciiChunk bytes ((bytes.length - c : ℕ) : ℤ) (bytes.length - 1) =
            some (decide (AllAscii (seg bytes (bytes.length - c) c))) := by
          apply isasciiChunk_eq <;> omega
        have htake : AllAscii (bytes.take (bytes.length - c)) := fun b hb =>
          hascii b (List.take_subset_take_left bytes (by omega) hb)
        rw [if_neg hin]
        dsimp only
        rw [hlast, hread]
        by_cases hchunk : AllAscii (seg bytes (bytes.length - c) c)
        · refine .inl ⟨by simp [hchunk], ?_⟩
          have hall : bytes = bytes.take (bytes.length - c) ++ seg bytes (bytes.length - c) c := by
            rw [seg, ← List.take_add, Nat.sub_add_cancel hle, List.take_length]
          rw [hall]
          exact allAscii_append.2 ⟨htake, hchunk⟩
        · refine .inr ⟨bytes.length - c, by simp [hchunk], by omega, htake, fun hall => hchunk fun b hb => ?_⟩
          exact hall b (List.mem_of_mem_drop (List.mem_of_mem_take hb))

end Chunks

section Classification

variable {bytes : List Byte} {a : ℕ}

theorem classifyNonascii_eq (ha : AllAscii (bytes.take a)) :
    byteStringClassifyNonascii bytes a (bytes.length - 1) =
      some (if bytes.foldl dfaStep dfaAccept = dfaAccept then 2 else 0) := by
  have hends : Ends bytes 256 a (min ((bytes.length : ℤ) - 1) ((a : ℤ) + 256 - 1)) :=
    ⟨fun _ => .refl _, fun _ => by omega⟩
  have hrun := classifyLoop_spec (by decide) (bytes.length + 2) dfaAccept (by omega) hends
  have hsplit : bytes.foldl dfaStep dfaAccept = (bytes.drop a).foldl dfaStep dfaAccept := by
    conv_lhs => rw [← List.take_append_drop a bytes, List.foldl_append, foldl_ascii ha]
  rw [hsplit]
  exact hrun

theorem byteStringClassify_eq (bytes : List Byte) :
    (AllAscii bytes → byteStringClassify bytes = some 1) ∧
    (¬AllAscii bytes →
      byteStringClassify bytes = some (if bytes.foldl dfaStep dfaAccept = dfaAccept then 2 else 0)) := by
  by_cases hlong : (bytes.length : ℤ) > 1024 + 1024 / 2
  · have hfind := findNonasciiLoop_spec (c := 1024) (a := 0) (by decide) (by omega) (bytes.length + 1)
      (Nat.zero_le bytes.length) (by omega) (by simp)
    rcases hfind with ⟨hrun, hall⟩ | ⟨a', hrun, _, hascii, hsome⟩
    · have hnone : findNonasciiChunk 1024 bytes 0 (bytes.length - 1) = some none := hrun
      rw [byteStringClassify, if_pos hlong, hnone]
      exact ⟨fun _ => .refl _, fun h => absurd hall h⟩
    · have hstart : findNonasciiChunk 1024 bytes 0 (bytes.length - 1) = some (some (a' : ℤ)) := hrun
      rw [byteStringClassify, if_pos hlong, hstart]
      exact ⟨fun h => absurd h hsome, fun _ => classifyNonascii_eq hascii⟩
  · have hread : isasciiChunk bytes (0 : ℕ) (bytes.length - 1) = some (decide (AllAscii (seg bytes 0 bytes.length))) := by
      apply isasciiChunk_eq <;> omega
    rw [seg_full] at hread
    have hshort : byteStringClassify bytes = (isasciiChunk bytes (0 : ℕ) (bytes.length - 1)).bind fun ascii =>
        if ascii then some 1 else byteStringClassifyNonascii bytes (0 : ℕ) (bytes.length - 1) := if_neg hlong
    rw [hshort, hread, Option.bind_some]
    constructor
    · intro hall
      rw [if_pos (decide_eq_true hall)]
    · intro hsome
      rw [if_neg (by simpa using hsome)]
      exact classifyNonascii_eq (by simp)

-- Validation is exact, wherever the chunks end.
theorem byteStringClassify_exact (bytes : List Byte) :
    (byteStringClassify bytes = some 1 ↔ AllAscii bytes) ∧
    (byteStringClassify bytes = some 2 ↔ WellFormed bytes ∧ ¬AllAscii bytes) ∧
    (byteStringClassify bytes = some 0 ↔ ¬WellFormed bytes) := by
  obtain ⟨hone, hother⟩ := byteStringClassify_eq bytes
  by_cases hall : AllAscii bytes
  · have hwell : WellFormed bytes := foldl_accept_iff.1 (foldl_ascii hall)
    simp [hone hall, hall, hwell]
  · rw [hother hall]
    by_cases hwell : WellFormed bytes
    · simp [foldl_accept_iff.2 hwell, hwell, hall]
    · simp [mt foldl_accept_iff.1 hwell, hwell, hall]

end Classification

end Joolia.Strings
