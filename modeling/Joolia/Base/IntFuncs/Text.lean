import Joolia.Base.IntFuncs.Writers

namespace Joolia.IntFuncs

open Positional Fallible

theorem sizeof_le (w : Width) : w.sizeof ≤ 16 := by cases w <;> decide

-- A machine integer has at most 128 digits.
theorem length_digits_le {w : Width} {x b : ℕ} (hb : 2 ≤ b) (hx : x < 2 ^ w.bits) : (Nat.digits b x).length ≤ 128 := by
  have hsize := size_le_bits hx
  have hle := length_digits_le_size hb x
  have hw := sizeof_le w
  rw [Width.bits] at hsize
  omega

theorem ndigits_spec {w : Width} {x b : ℕ} (hx : x < 2 ^ w.bits) (hb : 2 ≤ b) (hsmall : b ≤ 62) (pad : ℤ) :
    ndigits ⟨false, w⟩ x b pad = .ok (max pad (Nat.digits b x).length) := by
  have hx' : (x : ℤ) < 2 ^ w.bits := by exact_mod_cast hx
  have habs : |(x : ℤ)| = x := abs_of_nonneg (Int.natCast_nonneg x)
  have hwrap : (⟨false, w⟩ : IntType).wrap x = x := by
    refine wrap_eq_self _ ?_ ?_
    · simp [IntType.typemin]
    · simp only [IntType.typemax, Bool.false_eq_true, if_false]
      omega
  rw [ndigits, ndigits0z, if_neg (by omega), if_pos (by omega), habs, hwrap, Int.emod_eq_of_lt (by omega) hx',
    Int.toNat_natCast, Int.toNat_natCast, ndigits0zpb_spec hx hb hsmall]
  rfl

section Writers

variable (mem : ℕ → UInt8) {w : Width} {x : ℕ} {pad : ℤ} (neg : Bool)

theorem bin_spec (hx : x < 2 ^ w.bits) (hpad : pad ≤ Int64.typemax) : bin mem w x pad neg = textOf 2 neg pad x := by
  rw [← write_spec (by omega) mem hpad (length_digits_le (by omega) hx)
    (fun str n => do
      let s ← binFour str.length ⟨str, x, n - 1⟩
      let s ← bitsOne 1 0x1 neg str.length s
      return s.str)]
  · rw [bin, topSetBit_eq hx, length_digits_two]
    simp only [bind_assoc, pure_bind]
  · intro n str hlen hfits h
    obtain ⟨s, hs, hwritten, -⟩ := binFour_spec str.length h (by dsimp only; omega)
    obtain ⟨last, hlast, hdone, hi⟩ := bitsOne_spec (k := 1) bit_eq neg str.length hwritten (by
      have := hwritten.hi
      omega)
    refine ⟨last.str, ?_, hdone.done hi⟩
    rw [hs, ok_bind, hlast]
    rfl

theorem oct_spec (hx : x < 2 ^ w.bits) (hpad : pad ≤ Int64.typemax) : oct mem w x pad neg = textOf 8 neg pad x := by
  rw [← write_spec (by omega) mem hpad (length_digits_le (by omega) hx)
    (fun str n => do
      let s ← bitsOne 3 0x7 neg str.length ⟨str, x, n - 1⟩
      return s.str)]
  · have hlen := length_digits_two_pow (by omega : 0 < 3) x
    rw [oct, topSetBit_eq hx, show (8 : ℕ) = 2 ^ 3 from rfl, hlen]
    simp only [bind_assoc, pure_bind]
    rfl
  · intro n str hlen hfits h
    obtain ⟨last, hlast, hdone, hi⟩ := bitsOne_spec (k := 3) octal_eq neg str.length h (by dsimp only; omega)
    refine ⟨last.str, ?_, hdone.done hi⟩
    rw [hlast]
    rfl

theorem hex_spec (hx : x < 2 ^ w.bits) (hpad : pad ≤ Int64.typemax) : hex mem w x pad neg = textOf 16 neg pad x := by
  rw [← write_spec (by omega) mem hpad (length_digits_le (by omega) hx)
    (fun str n => do
      let s ← hexTwo str.length ⟨str, x, n - 1⟩
      storeLast neg s (hexDigit (lowByte s.x &&& 0xf)))]
  · have hlen := length_digits_two_pow (by omega : 0 < 4) x
    have hle := size_le_bits hx
    have hm : 2 * w.sizeof - leadingZeros w x >>> 2 = (Nat.digits 16 x).length := by
      rw [show (16 : ℕ) = 2 ^ 4 from rfl, hlen]
      simp only [leadingZeros, Width.bits, Nat.shiftRight_eq_div_pow] at hle ⊢
      omega
    rw [hex, hm]
    simp only [bind_assoc]
  · intro n str hlen hfits h
    obtain ⟨s, hs, hwritten, hi⟩ := hexTwo_spec str.length h (by dsimp only; omega)
    rw [hs, ok_bind]
    exact storeLast_spec hwritten hi (hex_eq s.x).2 neg

-- What is left before the cursor has at most that many digits.
theorem Written.rest_lt {b n : ℕ} {s : Cursor} (h : Written b x n s) (hb : 2 ≤ b) (hfits : x < b ^ n) :
    s.x < b ^ (s.i + 1).toNat := by
  have hi := h.hi
  have hlo := h.lo
  rw [h.rest, Nat.div_lt_iff_lt_mul (Nat.pow_pos (by omega)), ← pow_add]
  refine hfits.trans_le (Nat.pow_le_pow_right (by omega) ?_)
  omega

theorem dec_spec (hx : x < 2 ^ w.bits) (hpad : pad ≤ Int64.typemax) : dec mem w x pad neg = textOf 10 neg pad x := by
  rw [← write_spec (by omega) mem hpad (length_digits_le (by omega) hx)
    (fun str n => do
      let s ← decNine str.length ⟨str, x, n - 1⟩
      let s ← decTwo str.length { s with x := s.x % 2 ^ 64 }
      storeLast neg s (0x30 + lowByte (s.x % 0xa)))]
  · have hnd := ndigits_spec hx (by omega : 2 ≤ 10) (by omega) pad
    rw [Nat.cast_ofNat] at hnd
    rw [dec, hnd]
    simp only [ok_bind, bind_assoc]
  · intro n str hlen hfits h
    obtain ⟨s, hs, hwritten, hstop⟩ := decNine_spec str.length h (by dsimp only; omega)
    have hword : s.x % 2 ^ 64 = s.x := by
      refine Nat.mod_eq_of_lt ?_
      rcases hstop with hi | hlt
      · have hrest := hwritten.rest_lt (by omega) hfits
        have hpow : 10 ^ (s.i + 1).toNat ≤ 10 ^ 9 := Nat.pow_le_pow_right (by omega) (by omega)
        omega
      · exact hlt
    have hhi := hwritten.hi
    obtain ⟨last, hlast, hdone, hi⟩ := decTwo_spec str.length hwritten (by omega)
    have hdigit : 0x30 + lowByte (last.x % 0xa) = digitByte 10 (digit 10 last.x 0) := by
      rw [ninth_eq (Nat.mod_lt _ (by omega)), digit, pow_zero, Nat.div_one]
    rw [hs, ok_bind, hword, hlast, ok_bind]
    exact storeLast_spec hdone hi hdigit neg

end Writers

section Base

-- The generic writer divides, and takes its digits from a table.
theorem baseLoop_spec {b x n : ℕ} (hb : 2 ≤ b) (hsmall : b ≤ 62) (neg : Bool) (fuel : ℕ) {s : Cursor}
    (h : Written b x n s) (hfuel : s.i < fuel) :
    ∃ next, baseLoop b (if b ≤ 36 then base36digits else base62digits) neg fuel s.str s.x s.i = .ok next ∧
      Filled b x n (fun j => signWidth neg ≤ j) next := by
  have hsign : 0 ≤ signWidth neg := by
    rcases signWidth_cases neg with ⟨-, h⟩ | ⟨-, h⟩ <;> omega
  induction fuel generalizing s with
  | zero => exact ⟨s.str, rfl, h.done (by omega)⟩
  | succ fuel ih =>
      rw [baseLoop]
      by_cases hi : signWidth neg ≤ s.i
      · have hn := h.hi
        have hpos : (0 : ℤ) < b := by omega
        have hmod : ((s.x : ℤ).tmod b).toNat = s.x % b := by
          rw [Int.tmod_eq_emod_of_nonneg (Int.natCast_nonneg _)]
          exact_mod_cast Int.toNat_natCast (s.x % b)
        have hdiv : (s.x : ℤ).tdiv b = ((s.x / b : ℕ) : ℤ) := by
          rw [Int.tdiv_eq_ediv_of_nonneg (Int.natCast_nonneg _), Int.natCast_ediv]
        have hdigit : digit b s.x 0 = s.x % b := by rw [digit, pow_zero, Nat.div_one]
        have hlt : s.x % b < b := Nat.mod_lt _ (by omega)
        have hread : (if b ≤ 36 then base36digits else base62digits)[s.x % b]? = some (digitByte b (digit b s.x 0)) := by
          have h36 : base36digits.length = 36 := rfl
          have h62 : base62digits.length = 62 := rfl
          rw [hdigit, digitByte, List.getD_eq_getElem?_getD]
          split_ifs
          · rw [List.getElem?_eq_getElem (by omega), Option.getD_some]
          · rw [List.getElem?_eq_getElem (by omega), Option.getD_some]
        have h0 := h.expect_eq (k := 0) (by omega)
        rw [Int.natCast_zero, Int.sub_zero] at h0
        obtain ⟨str, hstr, hf⟩ := h.filled.store (fun j => s.i - (1 : ℕ) < j) (by omega) hn h0.symm (by omega)
        rw [if_pos hi]
        dsimp only
        rw [if_pos hpos, if_pos hpos, hmod, hread, hdiv]
        dsimp only
        rw [hstr, ok_bind]
        have hnext := h.advance (k := 1) (y := s.x / b) (by omega) hf (by rw [pow_one])
        exact ih hnext (by dsimp only; omega)
      · rw [if_neg hi]
        exact ⟨s.str, rfl, h.done (by omega)⟩

theorem base_spec (mem : ℕ → UInt8) {w : Width} {b x : ℕ} {pad : ℤ} (neg : Bool) (hb : 2 ≤ b) (hsmall : b ≤ 62)
    (hx : x < 2 ^ w.bits) (hpad : pad ≤ Int64.typemax) :
    base mem ⟨false, w⟩ b x pad neg = textOf b neg pad x := by
  have habs : |(b : ℤ)| = b := abs_of_nonneg (Int.natCast_nonneg b)
  have htable : (if |(b : ℤ)| ≤ 36 then base36digits else base62digits) =
      if b ≤ 36 then base36digits else base62digits := by
    rw [habs]
    exact if_congr (by omega) rfl rfl
  rw [← write_spec hb mem hpad (length_digits_le hb hx)
    (fun str n => baseLoop b (if b ≤ 36 then base36digits else base62digits) neg str.length str x (n - 1))]
  · rw [base, if_neg (by omega), if_neg (by omega)]
    simp only [htable, ndigits_spec hx hb hsmall, ok_bind]
  · intro n str hlen hfits h
    exact baseLoop_spec hb hsmall neg str.length h (by dsimp only; omega)

end Base

section MachineInts

variable {T : IntType} (n : MachineInt T)

theorem natAbs_lt : n.val.natAbs < 2 ^ T.width.bits := by
  have hlo := n.min_le
  have hhi := n.le_max
  have hbits : 2 ^ T.width.bits = 2 * 2 ^ (T.width.bits - 1) := by
    rw [← pow_succ']
    congr 1
    cases T.width <;> rfl
  have hhalf : ((2 ^ (T.width.bits - 1) : ℕ) : ℤ) = 2 ^ (T.width.bits - 1) := by push_cast; rfl
  have hwhole : ((2 ^ T.width.bits : ℕ) : ℤ) = 2 ^ T.width.bits := by push_cast; rfl
  have hpos : 0 < 2 ^ (T.width.bits - 1) := Nat.two_pow_pos _
  simp only [IntType.typemin, IntType.typemax, ← hhalf, ← hwhole] at hlo hhi
  split_ifs at hlo hhi with hsigned
  · omega
  · omega

-- Wrapping does not change the low bits.
theorem wrap_emod (x : ℤ) : T.wrap x % 2 ^ T.width.bits = x % 2 ^ T.width.bits := by
  rw [IntType.wrap, Int.emod_add_emod, Int.sub_add_cancel]

-- `unsigned(abs(n))` is the absolute value, also for the smallest value of the type.
theorem unsignedAbs_eq : unsignedAbs T n.val = n.val.natAbs := by
  have hlt : (n.val.natAbs : ℤ) < 2 ^ T.width.bits := by exact_mod_cast natAbs_lt n
  rw [unsignedAbs, wrap_emod, Int.abs_eq_natAbs, Int.emod_eq_of_lt (by omega) hlt, Int.toNat_natCast]

theorem splitSign_eq : splitSign T n.val = (n.val.natAbs, decide (n.val < 0)) := by
  rw [splitSign]
  split_ifs with hsigned
  · rw [unsignedAbs_eq]
  · have hlo := n.min_le
    simp only [IntType.typemin, hsigned] at hlo
    have hneg : decide (n.val < 0) = false := by
      simp only [decide_eq_false_iff_not, not_lt]
      simpa using hlo
    rw [hneg]
    simp only [decide_eq_false_iff_not] at hneg
    congr 1
    omega

theorem ndigits_machine {b : ℕ} (hb : 2 ≤ b) (hsmall : b ≤ 62) (pad : ℤ) :
    ndigits T n.val b pad = .ok (max pad (Nat.digits b n.val.natAbs).length) := by
  have habs := unsignedAbs_eq n
  rw [unsignedAbs] at habs
  rw [ndigits, ndigits0z, if_neg (by omega), if_pos (by omega), habs, Int.toNat_natCast,
    ndigits0zpb_spec (natAbs_lt n) hb hsmall]
  rfl

-- The number of digits asked for, as far as it is an Int.
theorem string_eq_textOf (mem : ℕ → UInt8) {b : ℕ} (hb : 2 ≤ b) (hsmall : b ≤ 62) (pad : ℤ) :
    string mem T n b pad = textOf b (decide (n.val < 0)) (min (max pad Int64.typemin) Int64.typemax) n.val.natAbs := by
  have hx := natAbs_lt n
  have hpad : min (max pad Int64.typemin) Int64.typemax ≤ Int64.typemax := min_le_right _ _
  rw [string, splitSign_eq]
  dsimp only
  split_ifs with h2 h8 h10 h16 hpos
  · obtain rfl : b = 2 := by omega
    exact bin_spec mem _ hx hpad
  · obtain rfl : b = 8 := by omega
    exact oct_spec mem _ hx hpad
  · obtain rfl : b = 10 := by omega
    exact dec_spec mem _ hx hpad
  · obtain rfl : b = 16 := by omega
    exact hex_spec mem _ hx hpad
  · rw [unsignedAbs_eq]
    exact base_spec mem _ hb hsmall hx hpad
  · omega
  · omega

end MachineInts

end Joolia.IntFuncs
