import Joolia.Base.Char.Encoding
import Joolia.Base.Escape
import Joolia.Base.Strings.Theorems

namespace Joolia.Strings

open Fallible Packing

section Source

variable {s : Str} {k e : ℕ}

-- The bytes of a block are an encoding.
theorem Spans.isEncoding (h : Spans s.data k e) : IsEncoding (slice s.data k e) := by
  have hlt := h.lt
  have hfirst : byteAt (slice s.data k e) 0 = byteAt s.data k := byteAt_slice (by omega)
  refine ⟨by rw [length_slice]; omega, ?_, ?_⟩
  · rw [length_slice, hfirst]
    rcases Nat.eq_or_lt_of_le (Nat.succ_le_of_lt hlt) with heq | hgt
    · omega
    · have := (h.covers (e - 1) (by omega) (by omega)).le_need
      omega
  · intro j hj hlen
    rw [length_slice] at hlen
    rw [byteAt_slice (by omega)]
    exact (h.covers (k + j) (by omega) (by omega)).continuation (k + j) (by omega) le_rfl

theorem Yields.charsFrom_eq {i : ℕ} {blocks : List Block} (h : Yields s i blocks) {fuel : ℕ} (hfuel : blocks.length < fuel) :
    charsFrom s fuel i = .ok (blocks.map Block.char) := by
  induction h generalizing fuel with
  | done hend =>
      obtain ⟨fuel, rfl⟩ := Nat.exists_eq_add_one_of_ne_zero (n := fuel) (by omega)
      simp [charsFrom, hend]
  | next hnext _ ih =>
      obtain ⟨fuel, rfl⟩ := Nat.exists_eq_add_one_of_ne_zero (n := fuel) (by omega)
      simp only [List.length_cons] at hfuel
      simp [charsFrom, hnext, ih (show _ < fuel by omega)]

theorem Tiling.length_le {blocks : List Block} (h : Tiling s k blocks) : blocks.length ≤ s.data.length := by
  have hle : (blocks.map Block.start).length ≤ (List.range s.data.length).length := by
    apply (List.subperm_of_subset ((List.pairwise_map.2 h.sorted).imp fun hlt => hlt.ne) ?_).length_le
    intro i hi
    obtain ⟨b, hb, rfl⟩ := List.mem_map.1 hi
    exact List.mem_range.2 (h.ok b hb).isBlock.start.1
  simpa using hle

-- The characters of a string, as the encodings that make it up.
theorem chars_spec (s : Str) : ∃ ls : List (List Byte), chars s = .ok (ls.map charOf) ∧ (∀ l ∈ ls, IsEncoding l) ∧ ls.flatten = s.data := by
  have hfirst : 0 = s.data.length ∨ IsStart s.data 0 := by
    rcases Nat.eq_zero_or_pos s.data.length with hzero | hpos
    · exact .inl hzero.symm
    · exact .inr (isStart_zero hpos)
  obtain ⟨blocks, h⟩ := exists_tiling hfirst
  refine ⟨blocks.map fun b => slice s.data b.start b.stop, ?_, ?_, ?_⟩
  · rw [chars, show (0 : ℤ) = ((0 : ℕ) : ℤ) by rfl, h.yields.charsFrom_eq (Nat.lt_succ_of_le h.length_le), List.map_map]
    congr 1
    exact List.map_congr_left fun b hb => (h.ok b hb).char_eq
  · intro l hl
    obtain ⟨b, hb, rfl⟩ := List.mem_map.1 hl
    exact (h.ok b hb).isBlock.spans.isEncoding
  · have hbytes := h.bytes
    rw [slice_all, List.flatMap_def] at hbytes
    refine Eq.trans ?_ hbytes
    congr 1
    refine List.map_congr_left fun b hb => ?_
    rw [(h.ok b hb).char_eq, (h.ok b hb).isBlock.spans.writeChar_eq]

end Source

-- An encoding with all of its continuation bytes, which no byte after it can extend.
structure IsClosed (l : List Byte) : Prop extends IsEncoding l where
  length_eq : l.length = need (byteAt l 0) + 1

theorem IsClosed.spans {l data : List Byte} (h : IsClosed l) (pre post : List Byte) (hdata : data = pre ++ (l ++ post)) :
    Spans data pre.length (pre.length + l.length) := by
  have hpos := h.pos
  have hlen := h.length_eq
  have hread : ∀ j < l.length, byteAt data (pre.length + j) = byteAt l j := by
    intro j hj
    simp [byteAt, hdata, List.getElem?_append_right, List.getElem?_append_left, hj]
  have hfirst := hread 0 hpos
  rw [Nat.add_zero] at hfirst
  refine ⟨by omega, by simp [hdata], fun i hi hi' => ?_, fun hc => ?_⟩
  · refine ⟨hi, by simp [hdata]; omega, by rw [hfirst]; omega, fun j hj hji => ?_⟩
    have hcont := h.continuation (j - pre.length) (by omega) (by omega)
    rwa [← hread _ (by omega), Nat.add_sub_cancel' hj.le] at hcont
  · have := hc.le_need
    rw [hfirst] at this
    omega

-- A text of closed encodings is read as these characters.
theorem charsFrom_closed {s : Str} {ls : List (List Byte)} (pre : List Byte) (hls : ∀ l ∈ ls, IsClosed l)
    (hdata : s.data = pre ++ ls.flatten) {fuel : ℕ} (hfuel : ls.length < fuel) :
    charsFrom s fuel pre.length = .ok (ls.map charOf) := by
  induction ls generalizing pre fuel with
  | nil =>
      obtain ⟨fuel, rfl⟩ := Nat.exists_eq_add_one_of_ne_zero (n := fuel) (by omega)
      have hend := iterate_end (s := s)
      rw [show s.data.length = pre.length by simp [hdata]] at hend
      simp [charsFrom, hend]
  | cons l ls ih =>
      obtain ⟨fuel, rfl⟩ := Nat.exists_eq_add_one_of_ne_zero (n := fuel) (by omega)
      simp only [List.length_cons] at hfuel
      have hl := hls l List.mem_cons_self
      have hspans := hl.spans pre ls.flatten (hdata.trans (by simp))
      have hnext := hspans.iterate_eq
      have hslice : slice s.data pre.length (pre.length + l.length) = l := by
        rw [slice_eq_take hspans.le, hdata, List.drop_left, Nat.add_sub_cancel_left]
        exact List.take_left
      have hrest := ih (pre ++ l) (fun l' hl' => hls l' (List.mem_cons_of_mem _ hl')) (by simp [hdata]) (show _ < fuel by omega)
      rw [hslice] at hnext
      rw [List.length_append, Nat.cast_add] at hrest
      simp [charsFrom, hnext, hrest]

theorem length_le_flatten {ls : List (List Byte)} (hls : ∀ l ∈ ls, IsClosed l) : ls.length ≤ ls.flatten.length := by
  induction ls with
  | nil => simp
  | cons l ls ih =>
      have hpos := (hls l List.mem_cons_self).pos
      have hrest := ih fun l' hl' => hls l' (List.mem_cons_of_mem _ hl')
      simp only [List.length_cons, List.flatten_cons, List.length_append]
      omega

theorem chars_closed {s : Str} {ls : List (List Byte)} (hls : ∀ l ∈ ls, IsClosed l) (hdata : s.data = ls.flatten) :
    chars s = .ok (ls.map charOf) := by
  have hlen := length_le_flatten hls
  exact charsFrom_closed [] hls hdata (by rw [hdata]; omega)

end Joolia.Strings

namespace Joolia.Strings

open Fallible Packing

-- The last `n` hexadecimal digits of a number, the highest first.
def nibbles : ℕ → ℕ → List ℕ
  | 0, _ => []
  | n + 1, x => nibbles n (x / 16) ++ [x % 16]

-- The character of a digit.
def digitChar (d : ℕ) : List Byte := [hexDigit (BitVec.ofNat 8 d)]

theorem length_nibbles (n x : ℕ) : (nibbles n x).length = n := by
  induction n generalizing x with
  | zero => rfl
  | succ n ih => simp [nibbles, ih]

theorem nibbles_lt {n x d : ℕ} (h : d ∈ nibbles n x) : d < 16 := by
  induction n generalizing x with
  | zero => simp [nibbles] at h
  | succ n ih =>
      rw [nibbles, List.mem_append, List.mem_singleton] at h
      rcases h with h | rfl
      · exact ih h
      · omega

-- Reading the digits again.
theorem foldl_nibbles (n x : ℕ) (v : ℤ) (hx : x < 16 ^ n) :
    (nibbles n x).foldl (fun (v : ℤ) (d : ℕ) => v <<< (4 : ℕ) + (d : ℤ)) v = v * 16 ^ n + x := by
  induction n generalizing x v with
  | zero =>
      obtain rfl : x = 0 := by simpa using hx
      simp [nibbles]
  | succ n ih =>
      have hdiv : x / 16 < 16 ^ n := by
        rw [Nat.div_lt_iff_lt_mul (by decide)]
        rwa [pow_succ] at hx
      rw [nibbles, List.foldl_append, ih (x / 16) v hdiv]
      simp only [List.foldl_cons, List.foldl_nil, Int.shiftLeft_eq]
      push_cast
      rw [pow_succ]
      have hmod := Int.emod_add_mul_ediv (x : ℤ) 16
      linarith

theorem low_nibble {w : ℕ} (x : BitVec w) : x.truncate 8 &&& 0xf = BitVec.ofNat 8 (x.toNat % 16) := by
  apply BitVec.eq_of_toNat_eq
  rw [toNat_and_field _ _ 0 4 rfl]
  simp only [BitVec.truncate, BitVec.toNat_setWidth, BitVec.toNat_ofNat]
  omega

theorem high_nibble {w : ℕ} (x : BitVec w) : (x.truncate 8 : Byte) >>> 4 = BitVec.ofNat 8 (x.toNat / 16 % 16) := by
  apply BitVec.eq_of_toNat_eq
  simp only [BitVec.truncate, BitVec.toNat_ushiftRight, BitVec.toNat_setWidth, BitVec.toNat_ofNat, Nat.shiftRight_eq_div_pow]
  omega

theorem hexLoop_eq {w : ℕ} (n : ℕ) (x : BitVec w) (str : List Byte) :
    hexLoop n x str = (nibbles n x.toNat).flatMap digitChar ++ str := by
  induction n using Nat.strong_induction_on generalizing x str with
  | _ n ih =>
      match n with
      | 0 => simp [hexLoop, nibbles]
      | 1 => rw [hexLoop, low_nibble, nibbles, nibbles]; rfl
      | n + 2 =>
          rw [hexLoop, ih n (by omega), high_nibble, low_nibble, nibbles, nibbles]
          have hshift : (x >>> 8).toNat = x.toNat / 16 / 16 := by
            simp only [BitVec.toNat_ushiftRight, Nat.shiftRight_eq_div_pow]
            omega
          simp [hshift, digitChar]

-- The number of digits that are written.
theorem hex_eq {w : ℕ} (hw : w = 8 ∨ w = 32) (x : BitVec w) (pad k : ℕ) (hk : pad ≤ k) (hx : x.toNat < 16 ^ k) :
    ∃ n, pad ≤ n ∧ n ≤ k ∧ hex x pad = (nibbles n x.toNat).flatMap digitChar ∧ x.toNat < 16 ^ n := by
  refine ⟨max pad (2 * (w / 8) - (x.clz.toNat >>> 2)), le_max_left _ _, ?_, ?_, ?_⟩
  · refine max_le hk ?_
    rw [Nat.shiftRight_eq_div_pow]
    by_cases hzero : x = 0#w
    · have hclz := BitVec.clz_eq_iff_eq_zero.2 hzero
      have := congrArg BitVec.toNat hclz
      rw [BitVec.natCast_eq_ofNat, BitVec.toNat_ofNat, Nat.mod_eq_of_lt (Nat.lt_two_pow_self)] at this
      omega
    · have hge := BitVec.two_pow_sub_clz_le_toNat_of_ne_zero (by omega) hzero
      rw [show (16 : ℕ) = 2 ^ 4 by rfl, ← pow_mul] at hx
      have hlt := (Nat.pow_lt_pow_iff_right (by decide : 1 < 2)).1 (hge.trans_lt hx)
      omega
  · rw [hex, hexLoop_eq, List.append_nil]
  · have hlt := BitVec.toNat_lt_two_pow_sub_clz (x := x)
    refine hlt.trans_le ?_
    rw [show (16 : ℕ) = 2 ^ 4 by rfl, ← pow_mul]
    refine Nat.pow_le_pow_right (by decide) ?_
    rw [Nat.shiftRight_eq_div_pow]
    omega

theorem digitChar_isClosed {d : ℕ} (hd : d < 16) : IsClosed (digitChar d) := by
  have hneed : ∀ d < 16, need (hexDigit (BitVec.ofNat 8 d)) = 0 := by decide
  have hfirst : need (byteAt (digitChar d) 0) = 0 := hneed d hd
  refine ⟨⟨by simp [digitChar], by simp [digitChar], ?_⟩, by rw [hfirst]; rfl⟩
  intro j hj hlen
  simp only [digitChar, List.length_singleton] at hlen
  omega

-- One digit of the loop.
theorem scanHex_digit {m k : ℕ} (n : ℤ) (a : List Chr) {d : ℕ} (hd : d < 16) (hk : k + 1 ≤ m) :
    scanHex m k n (charOf (digitChar d) :: a) = scanHex m (k + 1) (n <<< (4 : ℕ) + (d : ℤ)) a := by
  rw [scanHex, if_neg (not_not.2 hk)]
  by_cases hlow : d < 10
  · have hrange : ∀ d < 10, lit '0' ≤ charOf (digitChar d) ∧ charOf (digitChar d) ≤ lit '9' := by decide
    have hdiff : ∀ d < 10, charDiff (charOf (digitChar d)) (lit '0') = .ok (d : ℤ) := by decide
    rw [if_pos (hrange d hlow), hdiff d hlow, ok_bind]
  · have hrange : ∀ d < 16, ¬d < 10 → ¬(lit '0' ≤ charOf (digitChar d) ∧ charOf (digitChar d) ≤ lit '9') ∧
        lit 'a' ≤ charOf (digitChar d) ∧ charOf (digitChar d) ≤ lit 'f' := by decide
    have hdiff : ∀ d < 16, ¬d < 10 → charDiff (charOf (digitChar d)) (lit 'a') = .ok ((d : ℤ) - 10) := by decide
    rw [if_neg (hrange d hd hlow).1, if_pos (hrange d hd hlow).2, hdiff d hd hlow, ok_bind, sub_add_cancel]

theorem scanHex_digits {m k : ℕ} (n : ℤ) (a : List Chr) {ds : List ℕ} (hds : ∀ d ∈ ds, d < 16) (hk : k + ds.length ≤ m) :
    scanHex m k n (ds.map (fun d => charOf (digitChar d)) ++ a) =
      scanHex m (k + ds.length) (ds.foldl (fun (v : ℤ) (d : ℕ) => v <<< (4 : ℕ) + (d : ℤ)) n) a := by
  induction ds generalizing k n with
  | nil => simp
  | cons d ds ih =>
      rw [List.length_cons] at hk
      rw [List.map_cons, List.cons_append, scanHex_digit n _ (hds d List.mem_cons_self) (by omega),
        ih _ (fun d' hd' => hds d' (List.mem_cons_of_mem _ hd')) (by omega), List.foldl_cons, List.length_cons,
        show k + 1 + ds.length = k + (ds.length + 1) by omega]

-- Where the loop stops: after `m` digits, or before a character that is none.
theorem scanHex_stop {m k : ℕ} (n : ℤ) {a : List Chr} (h : k = m ∨ ∀ c ∈ a.head?, ¬isxdigit c = true) :
    scanHex m k n a = .ok (k + 1, n, a) := by
  cases a with
  | nil => simp [scanHex]
  | cons c a =>
      rcases h with rfl | hnot
      · rw [scanHex, if_pos (by omega)]
        rfl
      · have hc := hnot c (by simp)
        simp only [isxdigit, decide_eq_true_eq, not_or] at hc
        rw [scanHex, if_neg hc.1, if_neg hc.2.1, if_neg hc.2.2]
        split <;> rfl

-- Reading back what `hex` has written.
theorem scanHex_hex {m n x : ℕ} {a : List Chr} (hn : n ≤ m) (hx : x < 16 ^ n) (h : n = m ∨ ∀ c ∈ a.head?, ¬isxdigit c = true) :
    scanHex m 0 0 ((nibbles n x).map (fun d => charOf (digitChar d)) ++ a) = .ok (n + 1, (x : ℤ), a) := by
  rw [scanHex_digits 0 a (fun d => nibbles_lt) (by rw [length_nibbles]; omega), length_nibbles, foldl_nibbles n x 0 hx, Nat.zero_add,
    scanHex_stop _ h]
  simp

end Joolia.Strings
