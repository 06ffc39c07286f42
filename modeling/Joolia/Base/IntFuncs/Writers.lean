import Joolia.Base.IntFuncs.NDigits

namespace Joolia.IntFuncs

open Positional Fallible

-- The byte for a digit.
def digitByte (b d : ℕ) : UInt8 := (if b ≤ 36 then base36digits else base62digits).getD d 0

-- The digit that belongs at position `j` of a string of `n` bytes; a sign in front is written last.
def expect (b x n j : ℕ) : UInt8 := digitByte b (digit b x (n - 1 - j))

-- The positions in `S` hold what they should.
structure Filled (b x n : ℕ) (S : ℕ → Prop) (str : List UInt8) : Prop where
  length : str.length = n
  holds : ∀ j < n, S j → str[j]? = some (expect b x n j)

section Stores

variable {b x n : ℕ} {S : ℕ → Prop} {str : List UInt8}

-- One store, in whatever order they come.
theorem Filled.store (h : Filled b x n S str) (after : ℕ → Prop) {v : UInt8} {i : ℤ} (hlo : 0 ≤ i) (hhi : i < n)
    (hv : v = expect b x n i.toNat) (hafter : ∀ j < n, after j → S j ∨ (j : ℤ) = i) :
    ∃ next, unsafeStore str v i = .ok next ∧ Filled b x n after next := by
  have hlen := h.length
  rw [unsafeStore, if_pos ⟨hlo, by omega⟩]
  refine ⟨_, rfl, by simp [hlen], ?_⟩
  intro j hj hSj
  by_cases hij : j = i.toNat
  · subst hij
    rw [List.getElem?_set_self (by omega), hv]
  · rw [List.getElem?_set_ne (Ne.symm hij)]
    refine h.holds j hj ((hafter j hj hSj).resolve_right ?_)
    omega

theorem signWidth_cases (neg : Bool) : (neg = true ∧ signWidth neg = 1) ∨ (neg = false ∧ signWidth neg = 0) := by
  cases neg with
  | true => exact .inl ⟨rfl, rfl⟩
  | false => exact .inr ⟨rfl, rfl⟩

-- The digits behind the sign.
def signed (neg : Bool) (digits : List UInt8) : List UInt8 := (if neg then [0x2d] else []) ++ digits

-- The sign comes last.
theorem Filled.sign {neg : Bool} (h : Filled b x n (fun j => signWidth neg ≤ j) str) (hn : signWidth neg ≤ n) :
    storeSign neg str = .ok (signed neg ((lastDigits b x (n - (signWidth neg).toNat)).map (digitByte b))) := by
  have hlen := h.length
  rcases signWidth_cases neg with ⟨rfl, hsign⟩ | ⟨rfl, hsign⟩
  · rw [hsign] at h hn ⊢
    rw [storeSign, if_pos rfl, unsafeStore, if_pos ⟨by omega, by omega⟩]
    refine congrArg Except.ok (List.ext_getElem? ?_)
    intro j
    cases j with
    | zero => simp [signed, List.getElem?_set_self (by omega : 0 < str.length)]
    | succ j =>
        simp only [signed, if_true, List.singleton_append, List.getElem?_cons_succ, Int.toNat_zero,
          List.getElem?_set_ne (Nat.succ_ne_zero j).symm, List.getElem?_map]
        by_cases hj : j + 1 < n
        · have hin : j < n - 1 := by omega
          rw [h.holds (j + 1) hj (by omega), lastDigits]
          simp [hin, expect]
          congr 2
          omega
        · have hout : ¬ j < n - 1 := by omega
          rw [List.getElem?_eq_none (by omega), lastDigits]
          simp [hout]
  · rw [hsign] at h ⊢
    rw [storeSign]
    simp only [Bool.false_eq_true, if_false, signed, List.nil_append, Int.toNat_zero, Nat.sub_zero]
    refine congrArg Except.ok (List.ext_getElem? ?_)
    intro j
    by_cases hj : j < n
    · rw [h.holds j hj (by omega), lastDigits]
      simp [hj, expect]
    · rw [List.getElem?_eq_none (by omega), lastDigits]
      simp [hj]

end Stores

-- The text that a writer has to produce, or the error when its length is not an Int.
def textOf (b : ℕ) (neg : Bool) (pad : ℤ) (x : ℕ) : Except TextError (List UInt8) :=
  if Int64.typemax < signWidth neg + max pad (Nat.digits b x).length then .error .inexactError
  else .ok (signed neg ((lastDigits b x (max pad (Nat.digits b x).length).toNat).map (digitByte b)))

-- A loop of a writer between two passes: the positions behind the cursor are done.
structure Written (b x n : ℕ) (s : Cursor) : Prop where
  filled : Filled b x n (fun j => s.i < j) s.str
  rest : s.x = x / b ^ (n - 1 - s.i).toNat
  lo : -1 ≤ s.i
  hi : s.i < n

section Cursors

variable {b x n : ℕ} {s : Cursor}

-- The digit that belongs `k` positions before the cursor.
theorem Written.expect_eq (h : Written b x n s) {k : ℕ} (hk : (k : ℤ) ≤ s.i) :
    expect b x n (s.i - k).toNat = digitByte b (digit b s.x k) := by
  have hi := h.hi
  rw [h.rest, digit_div, expect]
  congr 2
  omega

-- The cursor moves on by `k` positions.
theorem Written.advance (h : Written b x n s) {str : List UInt8} {k y : ℕ} (hk : (k : ℤ) ≤ s.i + 1)
    (hstr : Filled b x n (fun j => s.i - k < j) str) (hy : y = s.x / b ^ k) :
    Written b x n ⟨str, y, s.i - k⟩ := by
  have hi := h.hi
  have hlo := h.lo
  refine ⟨hstr, ?_, by dsimp only; omega, by dsimp only; omega⟩
  dsimp only
  rw [hy, h.rest, Nat.div_div_eq_div_mul, ← pow_add]
  congr 2
  omega

end Cursors

-- What the writers share: the length, the fresh string, and the sign at the end.
theorem write_spec {b : ℕ} (hb : 2 ≤ b) (mem : ℕ → UInt8) {x : ℕ} {pad : ℤ} {neg : Bool}
    (hpad : pad ≤ Int64.typemax) (hfew : (Nat.digits b x).length ≤ 128)
    (fill : List UInt8 → ℤ → Except TextError (List UInt8))
    (hfill : ∀ n str, str.length = n → x < b ^ n → Written b x n ⟨str, x, n - 1⟩ →
      ∃ next, fill str n = .ok next ∧ Filled b x n (fun j => signWidth neg ≤ j) next) :
    (do
      let n := Int64.wrap (signWidth neg + max pad (Nat.digits b x).length)
      let str ← stringN mem n
      let str ← fill str n
      storeSign neg str) = textOf b neg pad x := by
  have hmax : Int64.typemax = 9223372036854775807 := rfl
  have hmin : Int64.typemin = -9223372036854775808 := rfl
  have hsign : 0 ≤ signWidth neg ∧ signWidth neg ≤ 1 := by
    rcases signWidth_cases neg with ⟨-, h⟩ | ⟨-, h⟩ <;> omega
  rw [textOf]
  dsimp only
  by_cases hlong : Int64.typemax < signWidth neg + max pad (Nat.digits b x).length
  · have hwrap : Int64.wrap (signWidth neg + max pad (Nat.digits b x).length) = Int64.typemin := by
      have heq : signWidth neg + max pad (Nat.digits b x).length = 9223372036854775808 := by omega
      rw [heq]
      rfl
    rw [if_pos hlong, hwrap, stringN, if_pos (by omega)]
    rfl
  · rw [if_neg hlong, wrap_eq_self _ (by omega) (by omega), stringN, if_neg (by omega), ok_bind]
    obtain ⟨n, hn⟩ : ∃ n : ℕ, signWidth neg + max pad (Nat.digits b x).length = n :=
      ⟨(signWidth neg + max pad (Nat.digits b x).length).toNat, by omega⟩
    rw [hn, Int.toNat_natCast]
    have hstart : Written b x n ⟨(List.range n).map mem, x, n - 1⟩ := by
      refine ⟨⟨by simp, ?_⟩, ?_, by dsimp only; omega, by dsimp only; omega⟩
      · intro j hj hlt
        dsimp only at hlt
        omega
      · dsimp only
        rw [Int.sub_self, Int.toNat_zero, pow_zero, Nat.div_one]
    have hfits : x < b ^ n :=
      (lt_pow_length_digits hb x).trans_le (Nat.pow_le_pow_right (by omega) (by omega))
    obtain ⟨next, hnext, hdone⟩ := hfill n ((List.range n).map mem) (by simp) hfits hstart
    rw [hnext, ok_bind, hdone.sign (by omega)]
    congr 5
    omega

end Joolia.IntFuncs

namespace Joolia.IntFuncs

open Positional Fallible

theorem lowByte_mod (x : ℕ) : lowByte x = lowByte (x % 256) := by
  apply UInt8.toNat_inj.mp
  rw [lowByte, lowByte, UInt8.toNat_ofNat', UInt8.toNat_ofNat', Nat.mod_mod]

-- The low byte holds the low digits.
theorem digit_low {b m : ℕ} (x : ℕ) (hm : b ^ m ∣ 256) {j : ℕ} (hj : j < m) :
    digit b (x % 256) j = digit b x j := by
  rw [← digit_mod x hj, ← digit_mod (x % 256) hj, Nat.mod_mod_of_dvd x hm]

section Bits

-- The digits in the low byte: four bits spread over four bytes by one multiplication, a bit, an octal
-- digit, two hexadecimal ones and a decimal one.
theorem low_table : ∀ v < 256,
    (let d := (0x30303030 : UInt32) + ((((lowByte v).toUInt32 * (0x08040201 : UInt32)) >>> 0x3) &&& 0x01010101);
      (d >>> 0x00).toUInt8 = digitByte 2 (digit 2 v 3) ∧ (d >>> 0x08).toUInt8 = digitByte 2 (digit 2 v 2) ∧
        (d >>> 0x10).toUInt8 = digitByte 2 (digit 2 v 1) ∧ (d >>> 0x18).toUInt8 = digitByte 2 (digit 2 v 0)) ∧
      (0x30 + (lowByte v &&& 0x1) = digitByte 2 (digit 2 v 0) ∧ 0x30 + (lowByte v &&& 0x7) = digitByte 8 (digit 8 v 0)) ∧
      (hexDigit (lowByte v >>> 0x4) = digitByte 16 (digit 16 v 1) ∧
        hexDigit (lowByte v &&& 0xf) = digitByte 16 (digit 16 v 0)) ∧
      (v < 10 → 0x30 + lowByte v = digitByte 10 v) := by
  decide +kernel

theorem spread_eq (x : ℕ) :
    let d := (0x30303030 : UInt32) + ((((lowByte x).toUInt32 * (0x08040201 : UInt32)) >>> 0x3) &&& 0x01010101)
    (d >>> 0x00).toUInt8 = digitByte 2 (digit 2 x 3) ∧ (d >>> 0x08).toUInt8 = digitByte 2 (digit 2 x 2) ∧
      (d >>> 0x10).toUInt8 = digitByte 2 (digit 2 x 1) ∧ (d >>> 0x18).toUInt8 = digitByte 2 (digit 2 x 0) := by
  have htable := (low_table (x % 256) (Nat.mod_lt _ (by omega))).1
  have hdigit : ∀ j < 4, digit 2 (x % 256) j = digit 2 x j := fun j hj =>
    digit_low (m := 4) x (by decide) hj
  rw [lowByte_mod]
  simpa only [hdigit 0 (by omega), hdigit 1 (by omega), hdigit 2 (by omega), hdigit 3 (by omega)] using htable

theorem bit_eq (x : ℕ) : 0x30 + (lowByte x &&& 0x1) = digitByte 2 (digit 2 x 0) := by
  have htable := (low_table (x % 256) (Nat.mod_lt _ (by omega))).2.1.1
  rwa [← lowByte_mod, digit_low (m := 1) x (by decide) (by omega)] at htable

theorem octal_eq (x : ℕ) : 0x30 + (lowByte x &&& 0x7) = digitByte 8 (digit 8 x 0) := by
  have htable := (low_table (x % 256) (Nat.mod_lt _ (by omega))).2.1.2
  rwa [← lowByte_mod, digit_low (m := 1) x (by decide) (by omega)] at htable

theorem hex_eq (x : ℕ) : hexDigit (lowByte x >>> 0x4) = digitByte 16 (digit 16 x 1) ∧
    hexDigit (lowByte x &&& 0xf) = digitByte 16 (digit 16 x 0) := by
  have htable := (low_table (x % 256) (Nat.mod_lt _ (by omega))).2.2.1
  rwa [← lowByte_mod, digit_low (m := 2) x (by decide) (by omega),
    digit_low (m := 2) x (by decide) (by omega)] at htable

end Bits

section Binary

variable {x n : ℕ} {s : Cursor}

theorem binFour_spec (fuel : ℕ) (h : Written 2 x n s) (hfuel : s.i < fuel) :
    ∃ next, binFour fuel s = .ok next ∧ Written 2 x n next ∧ next.i < 3 := by
  induction fuel generalizing s with
  | zero => exact ⟨s, rfl, h, by omega⟩
  | succ fuel ih =>
      rw [binFour]
      by_cases hi : 3 ≤ s.i
      · rw [if_pos hi]
        dsimp only
        have hn := h.hi
        obtain ⟨h3, h2, h1, h0⟩ := spread_eq s.x
        obtain ⟨str, hstr, hf⟩ := h.filled.store (fun j => s.i < j ∨ (j : ℤ) = s.i - 3) (i := s.i - 3)
          (by omega) (by omega) (h3.trans (h.expect_eq (k := 3) (by omega)).symm) (fun j _ hj => hj)
        rw [hstr, ok_bind]
        obtain ⟨str, hstr, hf⟩ := hf.store (fun j => s.i < j ∨ (j : ℤ) = s.i - 3 ∨ (j : ℤ) = s.i - 2)
          (i := s.i - 2) (by omega) (by omega) (h2.trans (h.expect_eq (k := 2) (by omega)).symm) (by omega)
        rw [hstr, ok_bind]
        obtain ⟨str, hstr, hf⟩ := hf.store (fun j => s.i < j ∨ (s.i - 3 ≤ (j : ℤ) ∧ (j : ℤ) ≤ s.i - 1))
          (i := s.i - 1) (by omega) (by omega) (h1.trans (h.expect_eq (k := 1) (by omega)).symm) (by omega)
        rw [hstr, ok_bind]
        have hlast := h.expect_eq (k := 0) (by omega)
        rw [Int.natCast_zero, Int.sub_zero] at hlast
        obtain ⟨str, hstr, hf⟩ := hf.store (fun j => s.i - 4 < j) (i := s.i) (by omega) (by omega)
          (h0.trans hlast.symm) (by omega)
        rw [hstr, ok_bind]
        have hnext := h.advance (k := 4) (y := s.x >>> 4) (by omega) hf (by rw [Nat.shiftRight_eq_div_pow])
        exact ih hnext (by dsimp only; omega)
      · rw [if_neg hi]
        exact ⟨s, rfl, h, by omega⟩

-- One digit of `k` bits at a time.
theorem bitsOne_spec {k : ℕ} {mask : UInt8}
    (hmask : ∀ y, 0x30 + (lowByte y &&& mask) = digitByte (2 ^ k) (digit (2 ^ k) y 0)) (neg : Bool) (fuel : ℕ)
    (h : Written (2 ^ k) x n s) (hfuel : s.i < fuel) :
    ∃ next, bitsOne k mask neg fuel s = .ok next ∧ Written (2 ^ k) x n next ∧ next.i < signWidth neg := by
  have hsign : 0 ≤ signWidth neg := by
    rcases signWidth_cases neg with ⟨-, h⟩ | ⟨-, h⟩ <;> omega
  induction fuel generalizing s with
  | zero => exact ⟨s, rfl, h, by omega⟩
  | succ fuel ih =>
      rw [bitsOne]
      by_cases hi : signWidth neg ≤ s.i
      · rw [if_pos hi]
        have hn := h.hi
        have hlast := h.expect_eq (k := 0) (by omega)
        rw [Int.natCast_zero, Int.sub_zero] at hlast
        obtain ⟨str, hstr, hf⟩ := h.filled.store (fun j => s.i - 1 < j) (by omega) (by omega)
          ((hmask s.x).trans hlast.symm) (by omega)
        rw [hstr, ok_bind]
        have hnext := h.advance (k := 1) (y := s.x >>> k) (by omega) hf (by rw [pow_one, ← Nat.shiftRight_eq_div_pow])
        exact ih hnext (by dsimp only; omega)
      · rw [if_neg hi]
        exact ⟨s, rfl, h, by omega⟩

-- When the cursor has passed the digits, they are all there.
theorem Written.done {b : ℕ} {neg : Bool} (h : Written b x n s) (hi : s.i < signWidth neg) :
    Filled b x n (fun j => signWidth neg ≤ j) s.str :=
  ⟨h.filled.length, fun j hj hle => h.filled.holds j hj (by omega)⟩

end Binary

section Decimal

variable {x n : ℕ} {s : Cursor}

theorem pair_table : ∀ k : ℕ, k < 100 → ∃ v : UInt16, decD100[k]? = some v ∧ (v >>> 8).toUInt8 = digitByte 10 (k % 10) ∧
    v.toUInt8 = digitByte 10 (k / 10) := by
  intro k hk
  have hread : decD100[k]? = some ((0x30 + UInt16.ofNat (k % 10)) <<< 0x8 + (0x30 + UInt16.ofNat (k / 10))) := by
    simp [decD100, hk]
  have htable : ∀ k < 100,
      (((0x30 + UInt16.ofNat (k % 10)) <<< 0x8 + (0x30 + UInt16.ofNat (k / 10))) >>> 8).toUInt8 =
        digitByte 10 (k % 10) ∧
      ((0x30 + UInt16.ofNat (k % 10)) <<< 0x8 + (0x30 + UInt16.ofNat (k / 10))).toUInt8 = digitByte 10 (k / 10) := by
    decide
  exact ⟨_, hread, htable k hk⟩

-- Two decimal digits.
theorem storePair_spec {str : List UInt8} {i : ℤ} {r : ℕ} (h : Filled 10 x n (fun j => i < j) str) (hlo : 1 ≤ i)
    (hhi : i < n) (h0 : expect 10 x n i.toNat = digitByte 10 (digit 10 r 0))
    (h1 : expect 10 x n (i - 1).toNat = digitByte 10 (digit 10 r 1)) :
    ∃ next, storePair str (r % 0x64) i = .ok next ∧ Filled 10 x n (fun j => i - 2 < j) next := by
  obtain ⟨v, hread, hunits, htens⟩ := pair_table (r % 0x64) (Nat.mod_lt _ (by omega))
  have hdigit0 : r % 0x64 % 10 = digit 10 r 0 := by
    simp only [digit, pow_zero, Nat.div_one]
    omega
  have hdigit1 : r % 0x64 / 10 = digit 10 r 1 := by
    simp only [digit, pow_one]
    omega
  rw [hdigit0] at hunits
  rw [hdigit1] at htens
  obtain ⟨str, hstr, hf⟩ := h.store (fun j => i - 1 < j) (by omega) hhi (hunits.trans h0.symm) (by omega)
  obtain ⟨last, hlast, hf⟩ := hf.store (fun j => i - 2 < j) (by omega) (by omega) (htens.trans h1.symm) (by omega)
  refine ⟨last, ?_, hf⟩
  rw [storePair, hread]
  dsimp only
  rw [hstr, ok_bind, hlast]

-- Eight decimal digits, two by two.
theorem storePairs_spec (count : ℕ) {str : List UInt8} {i : ℤ} {r : ℕ} (h : Filled 10 x n (fun j => i < j) str)
    (hlo : 2 * count ≤ i + 1) (hhi : i < n)
    (hexpect : ∀ k : ℕ, k < 2 * count → expect 10 x n (i - k).toNat = digitByte 10 (digit 10 r k)) :
    ∃ next, storePairs count str r i = .ok (next, r / 100 ^ count) ∧
      Filled 10 x n (fun j => i - 2 * count < j) next := by
  induction count generalizing str i r with
  | zero => exact ⟨str, by simp [storePairs], ⟨h.length, fun j hj hlt => h.holds j hj (by omega)⟩⟩
  | succ count ih =>
      have h0 := hexpect 0 (by omega)
      rw [Int.natCast_zero, Int.sub_zero] at h0
      obtain ⟨str', hstr, hf⟩ := storePair_spec h (by omega) hhi h0 (hexpect 1 (by omega))
      obtain ⟨next, hnext, hdone⟩ := ih (r := r / 0x64) hf (by omega) (by omega) (by
        intro k hk
        have hdiv := digit_div 10 r 2 k
        have hpos : i - 2 - (k : ℤ) = i - ((2 + k : ℕ) : ℤ) := by
          push_cast
          ring
        rw [hpos, hexpect (2 + k) (by omega), ← hdiv]
        norm_num)
      refine ⟨next, ?_, ⟨hdone.length, fun j hj hlt => hdone.holds j hj (by push_cast at hlt; omega)⟩⟩
      rw [storePairs, hstr, ok_bind, hnext, Nat.div_div_eq_div_mul, pow_succ']

theorem ninth_eq {d : ℕ} (hd : d < 10) : 0x30 + lowByte d = digitByte 10 d :=
  (low_table d (by omega)).2.2.2 hd

-- Nine decimal digits, while the number is wider than a word.
theorem decNine_spec (fuel : ℕ) (h : Written 10 x n s) (hfuel : s.i < fuel) :
    ∃ next, decNine fuel s = .ok next ∧ Written 10 x n next ∧ (next.i < 9 ∨ next.x < 2 ^ 64) := by
  induction fuel generalizing s with
  | zero => exact ⟨s, rfl, h, .inl (by omega)⟩
  | succ fuel ih =>
      rw [decNine]
      by_cases hi : 9 ≤ s.i ∧ 2 ^ 64 - 1 < s.x
      · rw [if_pos hi]
        dsimp only
        have hn := h.hi
        have hr : s.x % 0x3b9aca00 % 2 ^ 32 = s.x % 10 ^ 9 := by omega
        have hexpect : ∀ k : ℕ, k < 9 → expect 10 x n (s.i - k).toNat = digitByte 10 (digit 10 (s.x % 10 ^ 9) k) := by
          intro k hk
          rw [h.expect_eq (by omega), digit_mod _ hk]
        obtain ⟨str, hstr, hf⟩ := storePairs_spec 4 h.filled (by omega) hn (fun k hk => hexpect k (by omega))
        have hninth : 0x30 + lowByte (s.x % 10 ^ 9 / 100 ^ 4) = expect 10 x n (s.i - 8).toNat := by
          rw [ninth_eq (by omega)]
          refine Eq.trans ?_ (hexpect 8 (by omega)).symm
          congr 1
          simp only [digit]
          omega
        obtain ⟨last, hlast, hf⟩ := hf.store (fun j => s.i - (9 : ℕ) < j) (i := s.i - 8) (by omega) (by omega) hninth
          (by omega)
        rw [hr, hstr, ok_bind]
        dsimp only
        rw [hlast, ok_bind]
        have hnext := h.advance (k := 9) (y := s.x / 0x3b9aca00) (by omega) hf rfl
        exact ih hnext (by dsimp only; omega)
      · rw [if_neg hi]
        exact ⟨s, rfl, h, by omega⟩

-- Two decimal digits at a time.
theorem decTwo_spec (fuel : ℕ) (h : Written 10 x n s) (hfuel : s.i < fuel) :
    ∃ next, decTwo fuel s = .ok next ∧ Written 10 x n next ∧ next.i < 1 := by
  induction fuel generalizing s with
  | zero => exact ⟨s, rfl, h, by omega⟩
  | succ fuel ih =>
      rw [decTwo]
      by_cases hi : 1 ≤ s.i
      · rw [if_pos hi]
        have h0 := h.expect_eq (k := 0) (by omega)
        rw [Int.natCast_zero, Int.sub_zero] at h0
        obtain ⟨str, hstr, hf⟩ := storePair_spec h.filled hi h.hi h0 (h.expect_eq (k := 1) (by omega))
        rw [hstr, ok_bind]
        have hnext := h.advance (k := 2) (y := s.x / 0x64) (by omega) hf rfl
        exact ih hnext (by dsimp only; omega)
      · rw [if_neg hi]
        exact ⟨s, rfl, h, by omega⟩

end Decimal

-- The digit that is left when the number of digits is odd.
theorem storeLast_spec {b x n : ℕ} {s : Cursor} (h : Written b x n s) (hi : s.i < 1) {v : UInt8}
    (hv : v = digitByte b (digit b s.x 0)) (neg : Bool) :
    ∃ next, storeLast neg s v = .ok next ∧ Filled b x n (fun j => signWidth neg ≤ j) next := by
  have hn := h.hi
  have hsign : 0 ≤ signWidth neg := by
    rcases signWidth_cases neg with ⟨-, h⟩ | ⟨-, h⟩ <;> omega
  rw [storeLast]
  by_cases hle : signWidth neg ≤ s.i
  · rw [if_pos hle]
    have h0 := h.expect_eq (k := 0) (by omega)
    rw [Int.natCast_zero, Int.sub_zero] at h0
    exact h.filled.store _ (by omega) hn (hv.trans h0.symm) (by omega)
  · rw [if_neg hle]
    exact ⟨s.str, rfl, h.done (by omega)⟩

-- Two hexadecimal digits at a time.
theorem hexTwo_spec {x n : ℕ} {s : Cursor} (fuel : ℕ) (h : Written 16 x n s) (hfuel : s.i < fuel) :
    ∃ next, hexTwo fuel s = .ok next ∧ Written 16 x n next ∧ next.i < 1 := by
  induction fuel generalizing s with
  | zero => exact ⟨s, rfl, h, by omega⟩
  | succ fuel ih =>
      rw [hexTwo]
      by_cases hi : 1 ≤ s.i
      · rw [if_pos hi]
        dsimp only
        have hn := h.hi
        obtain ⟨hhigh, hlow⟩ := hex_eq s.x
        have h0 := h.expect_eq (k := 0) (by omega)
        rw [Int.natCast_zero, Int.sub_zero] at h0
        obtain ⟨str, hstr, hf⟩ := h.filled.store (fun j => s.i < j ∨ (j : ℤ) = s.i - 1) (i := s.i - 1) (by omega)
          (by omega) (hhigh.trans (h.expect_eq (k := 1) (by omega)).symm) (fun j _ hj => hj)
        rw [hstr, ok_bind]
        obtain ⟨str, hstr, hf⟩ := hf.store (fun j => s.i - (2 : ℕ) < j) (by omega) hn (hlow.trans h0.symm) (by omega)
        rw [hstr, ok_bind]
        have hnext := h.advance (k := 2) (y := s.x >>> 8) (by omega) hf (by rw [Nat.shiftRight_eq_div_pow]; norm_num)
        exact ih hnext (by dsimp only; omega)
      · rw [if_neg hi]
        exact ⟨s, rfl, h, by omega⟩

end Joolia.IntFuncs
